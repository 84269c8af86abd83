import StoreCheck.Proofs.Encoding.Allocation
import StoreCheck.Proofs.Encoding.Membership
import StoreCheck.Proofs.Logic.Sorting

/-!
# Values of a sort

Values carry no sorts. A value is of a sort at a context if its predicates are declared over the first parameters of the
context and elements of the sort, its tuples lead to elements of the sort, and so on for its parts; then every membership formula
of an element of the sort in it is well-formed (`ObjValue.wellFormed_member`). As always, sorts count up to `k`.
-/

namespace StoreCheck

open List Formula ClassGraph Contexts Term StoreCheck.Valuation VarGen Symbols

variable {d n : Nat} {extra ps qs : List SortId} {k : SortId → SortId} {p : PredId} {symbols' symbols : Symbols}
  {params pa pb : List Term} {Γ Γ' : SortEnv} {o t object : Term} {slot : Slot} {sort : SortId} {ts : TupleSort}
  {order : ChainOrder} {v : ObjValue} {vs : List ObjValue} {F : Formula} {g g' : VarGen}

/-- The predicate takes the first `d` parameters of a context, then elements of further sorts. -/
structure Symbols.Takes (k : SortId → SortId) (symbols : Symbols) (p : PredId) (ps : List SortId) (d : Nat) (extra : List SortId) : Prop where
  depth : d ≤ ps.length
  declared : symbols.Declares k p (ps.take d ++ extra)

namespace Symbols.Takes

variable {symbols : Symbols}

/-- The new predicate over all parameters of a context. -/
theorem of_declares (h : symbols.Declares k p (ps ++ extra)) (hd : d = ps.length) : symbols.Takes k p ps d extra := by
  subst hd
  exact ⟨Nat.le_refl _, by rwa [take_length]⟩

variable (h : symbols.Takes k p ps d extra)

include h

theorem mono (hg : symbols.Grows symbols') :
    symbols'.Takes k p ps d extra := ⟨h.depth, h.declared.mono hg⟩

/-- In a deeper context the same parameters are taken. -/
theorem deeper (hps : ps <+: qs) : symbols.Takes k p qs d extra := by
  obtain ⟨more, rfl⟩ := hps
  refine ⟨Nat.le_trans h.depth (by simp), ?_⟩
  rw [take_append_of_le_length h.depth]
  exact h.declared

theorem wellFormed (hparams : OfSorts k symbols.functions Γ n params ps)
    (hargs : OfSorts k symbols.functions Γ n args extra) : (atom p (params.take d ++ args)).WellFormed k symbols Γ :=
  wellFormed_atom h.declared ((hparams.take d).append hargs).sorts

theorem congr {extra' : List SortId} (hextra : extra.map k = extra'.map k) :
    symbols.Takes k p ps d extra' := ⟨h.depth, h.declared.congr (by rw [map_append, map_append, hextra])⟩

end Symbols.Takes

/-- The slot takes parameters of the context and an element of the sort. -/
def Slot.Sorted (k : SortId → SortId) (symbols : Symbols) (ps : List SortId) (sort : SortId) (slot : Slot) : Prop :=
  symbols.Takes k slot.pred ps slot.depth [sort]

theorem Slot.Sorted.wellFormed (h : slot.Sorted k symbols ps sort) (hparams : OfSorts k symbols.functions Γ n params ps)
    (ho : OfSorts k symbols.functions Γ n [o] [sort]) :
    (slot.holds params o).WellFormed k symbols Γ :=
  Takes.wellFormed h hparams ho

/-! ## Layouts -/

/-- The symbols of the layout are declared as it says. -/
structure Layout.Declared (k : SortId → SortId) (L : Layout) (symbols : Symbols) : Prop where
  ends : ∀ id ts, List.lookup id L.tupleSorts = some ts → HasEnds symbols.functions ts
  classes : ∀ c : ClassId, c.index < L.graph.size → symbols.Declares k (L.classPreds.getD c.index ⟨0⟩) [L.classSort c]
  initial : ∀ sort : SortId, sort.index < sortCount L.store → (L.initial.slot sort).Sorted k symbols [] sort

namespace Layout

variable {L : Layout} {symbols : Symbols}

theorem Declared.mono (h : L.Declared k symbols) (hg : symbols.Grows symbols') : L.Declared k symbols' where
  ends id ts hts := by rw [hg.functions]; exact h.ends id ts hts
  classes c hc := (h.classes c hc).mono hg
  initial sort hsort := (h.initial sort hsort).mono hg

theorem declares_of_args (h : (symbols.predicates.map (·.args))[p.index]? = some args) :
    symbols.Declares k p args := by
  rw [getElem?_map, Option.map_eq_some_iff] at h
  obtain ⟨symbol, hsymbol, rfl⟩ := h
  exact ⟨symbol, hsymbol, rfl⟩

theorem Shape.declared (h : L.Shape symbols) : L.Declared k symbols where
  ends id ts hts := h.ends (id, ts) (mem_of_lookup hts)
  classes c hc := by
    have hpred : L.classPreds.getD c.index ⟨0⟩ = ⟨c.index⟩ := by
      rw [h.classPreds, getD_eq_getElem?_getD, getElem?_map, getElem?_range hc]
      rfl
    rw [hpred]
    apply declares_of_args
    rw [h.predicates, getElem?_append_left (by simpa [ids, idsUpTo] using hc)]
    simp [ids, idsUpTo, hc]
  initial sort hsort := by
    have hslot : L.initial.slot sort = ⟨⟨L.graph.size + sort.index⟩, 0⟩ := by
      rw [Snapshot.slot, h.initial, getD_eq_getElem?_getD, getElem?_map, getElem?_range hsort]
      rfl
    rw [hslot]
    refine ⟨Nat.zero_le _, declares_of_args ?_⟩
    have hlength : (L.graph.ids.map fun c => [L.classSort c]).length = L.graph.size := by
      simp [ids, idsUpTo]
    rw [h.predicates, getElem?_append_right (by simp [hlength]), hlength, Nat.add_sub_cancel_left]
    simp [hsort]

theorem Declared.wellFormed_isClass (h : L.Declared k symbols) {c : ClassId} (hc : c.index < L.graph.size)
    (ho : OfSorts k symbols.functions Γ n [o] [L.classSort c]) : (L.isClass c o).WellFormed k symbols Γ :=
  wellFormed_atom (h.classes c hc) ho.sorts

theorem Declared.ofSorts_ends (h : L.Declared k symbols) {id : RelationId} (hts : List.lookup id L.tupleSorts = some ts)
    (ht : OfSorts k symbols.functions Γ n [t] [ts.sort]) :
    OfSorts k symbols.functions Γ n [ts.leftOf t] [ts.source] ∧
      OfSorts k symbols.functions Γ n [ts.rightOf t] [ts.target] := by
  obtain ⟨⟨_, hleft⟩, ⟨_, hright⟩⟩ := h.ends id ts hts
  refine ⟨⟨?_, ?_⟩, ⟨?_, ?_⟩⟩
  · exact .cons (hasSort_app hleft ht.sorts) .nil
  · exact ⟨settled_leftOf ts ht.settled.1, trivial⟩
  · exact .cons (hasSort_app hright ht.sorts) .nil
  · exact ⟨settled_rightOf ts ht.settled.1, trivial⟩

theorem Declared.ofSorts_nearFar (h : L.Declared k symbols) {id : RelationId} (hts : List.lookup id L.tupleSorts = some ts)
    (flipped : Bool) (ht : OfSorts k symbols.functions Γ n [t] [ts.sort]) :
    OfSorts k symbols.functions Γ n [ts.nearOf flipped t] [ts.nearSort flipped] ∧
      OfSorts k symbols.functions Γ n [ts.farOf flipped t] [ts.farSort flipped] := by
  obtain ⟨hl, hr⟩ := h.ofSorts_ends hts ht
  cases flipped
  · exact ⟨hl, hr⟩
  · exact ⟨hr, hl⟩

end Layout

/-! ## Contexts -/

/-- The order predicates are declared over the iterations of a loop. -/
structure ChainOrder.Sorted (k : SortId → SortId) (symbols : Symbols) (outer : List SortId) (sort : SortId) (order : ChainOrder) : Prop where
  before : symbols.Declares k order.before (outer ++ [sort, sort])
  justBefore : symbols.Declares k order.justBefore (outer ++ [sort, sort])
  first : symbols.Declares k order.first (outer ++ [sort])
  last : symbols.Declares k order.last (outer ++ [sort])

theorem ChainOrder.Sorted.mono (h : order.Sorted k symbols outer sort) (hg : symbols.Grows symbols') :
    order.Sorted k symbols' outer sort :=
  ⟨h.before.mono hg, h.justBefore.mono hg, h.first.mono hg, h.last.mono hg⟩

/-- The context's predicates are declared over its parameters, which are those of its parent and one more. -/
structure Context.Sorted (k : SortId → SortId) (cs : Contexts) (symbols : Symbols) (i : Nat) (c : Context) : Prop where
  level : c.level = c.paramSorts.length
  live : ∀ p, c.live = some p → symbols.Declares k p c.paramSorts
  order : ∀ order, c.kind = .chained order → ∃ outer sort, c.paramSorts = outer ++ [sort] ∧ order.Sorted k symbols outer sort
  parent : ∀ parent, c.parent = some parent → parent.index < i ∧ ∃ sort, c.paramSorts = (cs.get parent).paramSorts ++ [sort]
  flat : c.kind = .flat → 0 < c.level

/-- All contexts are declared as they say. -/
def Contexts.Sorted (k : SortId → SortId) (cs : Contexts) (symbols : Symbols) : Prop :=
  ∀ (i : Nat) (c : Context), cs.table[i]? = some c → c.Sorted k cs symbols i

theorem getElem?_extend {α : Type} {l l' : List α} (h : l <+: l') {i : Nat} {a : α} (ha : l[i]? = some a) :
    l'[i]? = some a := by
  obtain ⟨more, rfl⟩ := h
  rw [getElem?_append_left (List.getElem?_eq_some_iff.1 ha).1, ha]

namespace Contexts

variable {cs cs' : Contexts}

variable {id : ContextId}

theorem get_eq (h : id.index < cs.table.length) : cs.table[id.index]? = some (cs.get id) := by
  rw [get, getD_eq_getElem?_getD, getElem?_eq_getElem h]
  rfl

/-- A longer table has the same contexts. -/
theorem get_extend (h : cs.table <+: cs'.table) (hid : id.index < cs.table.length) : cs'.get id = cs.get id := by
  obtain ⟨more, hmore⟩ := h
  rw [get, get, ← hmore, getD_eq_getElem?_getD, getD_eq_getElem?_getD, getElem?_append_left hid]

/-- A context that is not the root's is in the table. -/
theorem lt_of_kind (h : (cs.get id).kind = .chained order) : id.index < cs.table.length := by
  rcases Nat.lt_or_ge id.index cs.table.length with hlt | hge
  · exact hlt
  · rw [get, getD_eq_getElem?_getD, getElem?_eq_none hge] at h
    cases h

theorem Sorted.get (h : cs.Sorted k symbols) (id : ContextId) : (cs.get id).Sorted k cs symbols id.index := by
  rcases Nat.lt_or_ge id.index cs.table.length with hlt | hge
  · exact h id.index _ (get_eq hlt)
  · rw [Contexts.get, getD_eq_getElem?_getD, getElem?_eq_none hge]
    exact ⟨rfl, fun _ h => (by cases h), fun _ h => (by cases h), fun _ h => (by cases h), fun h => (by cases h)⟩

theorem Sorted.level_eq (h : cs.Sorted k symbols) (id : ContextId) : cs.level id = (cs.get id).paramSorts.length := (h.get id).level

/-- What relates a context to itself, and to what it relates the parent to, relates it to all contexts on the way up. -/
theorem forall_mem_pathUp {R : ContextId → ContextId → Prop} (hrefl : ∀ id, R id id)
    (hup : ∀ id parent a, (cs.get id).parent = some parent → R parent a → R id a) (fuel : Nat) (id : ContextId) :
    ∀ a ∈ cs.pathUp fuel id, R id a := by
  induction fuel generalizing id with
  | zero => exact forall_mem_singleton.2 (hrefl id)
  | succ fuel ih =>
    rw [Contexts.pathUp]
    cases hp : (cs.get id).parent with
    | none => exact forall_mem_singleton.2 (hrefl id)
    | some parent => exact forall_mem_cons.2 ⟨hrefl id, fun a ha => hup id parent a hp (ih parent a ha)⟩

theorem Sorted.pathUp (h : cs.Sorted k symbols) : ∀ (fuel : Nat) (id : ContextId), ∀ a ∈ cs.pathUp fuel id,
    (cs.get a).paramSorts <+: (cs.get id).paramSorts := by
  refine forall_mem_pathUp (fun _ => prefix_refl _) fun id parent a hp ha => ?_
  obtain ⟨-, sort, hsort⟩ := (h.get id).parent parent hp
  rw [hsort]
  exact ha.trans (prefix_append _ _)

theorem Sorted.wellFormed_membership (h : cs.Sorted k symbols) (id : ContextId) (hps : (cs.get id).paramSorts <+: ps)
    (hparams : OfSorts k symbols.functions Γ n params ps) : (cs.membership id params).WellFormed k symbols Γ := by
  unfold membership
  cases hl : (cs.get id).live with
  | none => exact wellFormed_top
  | some p =>
    refine wellFormed_atom ((h.get id).live p hl) ?_
    obtain ⟨more, rfl⟩ := hps
    have htake := hparams.take (cs.level id)
    rw [h.level_eq, take_left] at htake
    rw [h.level_eq]
    exact htake.sorts

/-- The order of two iterations in one level is well formed. -/
theorem Sorted.wellFormed_beforeStep (h : cs.Sorted k symbols) {qs : List SortId}
    (hps : (cs.get id).paramSorts <+: ps) (hqs : (cs.get id).paramSorts <+: qs) {pa pb : List Term}
    (hpa : OfSorts k symbols.functions Γ n pa ps) (hpb : OfSorts k symbols.functions Γ n pb qs) {deeper : Formula}
    (hdeeper : deeper.WellFormed k symbols Γ) : (cs.beforeStep pa pb deeper id).WellFormed k symbols Γ := by
  have hlast : ∀ {a : SortId}, (cs.get id).paramSorts[cs.level id - 1]? = some a →
      OfSorts k symbols.functions Γ n [paramAt pa (cs.level id)] [a] ∧
        OfSorts k symbols.functions Γ n [paramAt pb (cs.level id)] [a] := by
    intro a ha
    exact ⟨hpa.paramAt (getElem?_extend hps ha), hpb.paramAt (getElem?_extend hqs ha)⟩
  unfold beforeStep
  cases hk : (cs.get id).kind with
  | root => exact hdeeper
  | flat =>
    have hpos : cs.level id - 1 < (cs.get id).paramSorts.length := by
      have := (h.get id).flat hk
      have := h.level_eq id
      unfold level at *
      omega
    obtain ⟨hx, hy⟩ := hlast (getElem?_eq_getElem hpos)
    exact wellFormed_mkAnd (forall_mem_pair (wellFormed_mkEq hx.hasSort hy.hasSort) hdeeper)
  | chained order =>
    obtain ⟨outer, sort, hsorts, horder⟩ := (h.get id).order order hk
    have hlevel : cs.level id - 1 = outer.length := by rw [h.level_eq, hsorts]; simp
    obtain ⟨hx, hy⟩ := hlast (a := sort) (by rw [hlevel, hsorts]; simp)
    have houter : OfSorts k symbols.functions Γ n (pa.take (cs.level id - 1)) outer := by
      have htake := hpa.take outer.length
      obtain ⟨more, rfl⟩ := hps
      rw [hsorts, append_assoc, take_left] at htake
      rw [hlevel]
      exact htake
    have hordered := wellFormed_atom horder.before (houter.append (hx.append hy)).sorts
    have hequal := wellFormed_mkAnd (forall_mem_pair (wellFormed_mkEq hx.hasSort hy.hasSort) hdeeper)
    exact wellFormed_mkOr (forall_mem_pair hordered hequal)

theorem Sorted.wellFormed_before (h : cs.Sorted k symbols) (a b : ContextId)
    (hps : (cs.get (cs.commonAncestor a b)).paramSorts <+: ps) (hqs : (cs.get (cs.commonAncestor a b)).paramSorts <+: qs)
    (hpa : OfSorts k symbols.functions Γ n pa ps) (hpb : OfSorts k symbols.functions Γ n pb qs) {fallback : Formula}
    (hfallback : fallback.WellFormed k symbols Γ) : (cs.before a b pa pb fallback).WellFormed k symbols Γ := by
  have hpath : ∀ c ∈ cs.path (cs.commonAncestor a b), (cs.get c).paramSorts <+: (cs.get (cs.commonAncestor a b)).paramSorts :=
    h.pathUp _ _
  unfold before
  revert hfallback hpath
  generalize cs.path (cs.commonAncestor a b) = path
  intro hfallback hpath
  induction path generalizing fallback with
  | nil => exact hfallback
  | cons c rest ih =>
    have hc := hpath c (by simp)
    exact ih (h.wellFormed_beforeStep (hc.trans hps) (hc.trans hqs) hpa hpb hfallback) fun c hc => hpath c (by simp [hc])

/-- The common ancestor of a context with itself is the context. -/
theorem commonAncestor_self (cs : Contexts) (a : ContextId) : cs.commonAncestor a a = a := by
  have hpath : ∃ rest, cs.path a = a :: rest := by
    unfold path
    cases cs.table.length with
    | zero => exact ⟨[], rfl⟩
    | succ n =>
      rw [pathUp]
      split
      · exact ⟨_, rfl⟩
      · exact ⟨[], rfl⟩
  obtain ⟨rest, hrest⟩ := hpath
  unfold commonAncestor
  rw [hrest]
  simp

theorem Sorted.mono (h : cs.Sorted k symbols) (hg : symbols.Grows symbols') : cs.Sorted k symbols' := by
  intro i c hc
  have hs := h i c hc
  refine ⟨hs.level, fun p hp => (hs.live p hp).mono hg, fun order horder => ?_, hs.parent, hs.flat⟩
  obtain ⟨outer, sort, hsorts, ho⟩ := hs.order order horder
  exact ⟨outer, sort, hsorts, ho.mono hg⟩

theorem sorted_initial (symbols : Symbols) : initial.Sorted k symbols := by
  intro i c hc
  have hroot : c = .root := by
    cases i with
    | zero => exact (Option.some.inj hc).symm
    | succ i => simp [initial] at hc
  rw [hroot]
  exact ⟨rfl, fun _ h => (by cases h), fun _ h => (by cases h), fun _ h => (by cases h), fun h => (by cases h)⟩

theorem sorted_addOrder (symbols : Symbols) (outer : List SortId) (sort : SortId) (hint : String) :
    (addOrder symbols outer sort hint).1.Sorted k (addOrder symbols outer sort hint).2 outer sort ∧
      symbols.Grows (addOrder symbols outer sort hint).2 := by
  let s1 := (symbols.addPredicate ("before_" ++ hint) (outer ++ [sort, sort])).2
  let s2 := (s1.addPredicate ("just_before_" ++ hint) (outer ++ [sort, sort])).2
  let s3 := (s2.addPredicate ("first_" ++ hint) (outer ++ [sort])).2
  have g1 : symbols.Grows s1 := symbols.grows_addPredicate _ _
  have g2 : s1.Grows s2 := s1.grows_addPredicate _ _
  have g3 : s2.Grows s3 := s2.grows_addPredicate _ _
  have g4 : s3.Grows (s3.addPredicate ("last_" ++ hint) (outer ++ [sort])).2 := s3.grows_addPredicate _ _
  refine ⟨⟨?_, ?_, ?_, ?_⟩, g1.trans (g2.trans (g3.trans g4))⟩
  · exact (symbols.declares_addPredicate _ _).mono (g2.trans (g3.trans g4))
  · exact (s1.declares_addPredicate _ _).mono (g3.trans g4)
  · exact (s2.declares_addPredicate _ _).mono g4
  · exact s3.declares_addPredicate _ _

/-- The context that is added for a loop, declared as it says. -/
theorem Sorted.add (h : cs.Sorted k symbols) {parent : ContextId} (hparent : parent.index < cs.table.length) (sort : SortId)
    (order : LoopKind) (hint : String) :
    (cs.add symbols parent sort order hint).2.1.Sorted k (cs.add symbols parent sort order hint).2.2 := by
  intro i c hc
  have htable : cs.table <+: (cs.add symbols parent sort order hint).2.1.table := prefix_append _ _
  have hgrows : symbols.Grows (cs.add symbols parent sort order hint).2.2 := by
    cases order with
    | flat => exact symbols.grows_addPredicate _ _
    | chained => exact (symbols.grows_addPredicate _ _).trans (sorted_addOrder (k := id) _ _ _ _).2
  rcases Nat.lt_or_ge i cs.table.length with hlt | hge
  · -- an old context: its parent is old as well
    have hold : cs.table[i]? = some c := by
      rw [← hc]
      exact (getElem?_append_left hlt).symm
    have hs := (h.mono hgrows) i c hold
    refine ⟨hs.level, hs.live, hs.order, fun p hp => ?_, hs.flat⟩
    obtain ⟨hpi, hsorts⟩ := hs.parent p hp
    rw [get_extend htable (Nat.lt_trans hpi hlt)]
    exact ⟨hpi, hsorts⟩
  · have hi : i = cs.table.length := by
      have hlen := (List.getElem?_eq_some_iff.1 hc).1
      simp only [Contexts.add, length_append, length_singleton] at hlen
      omega
    subst hi
    have hparams := get_extend htable hparent
    have hlevel : cs.level parent + 1 = ((cs.get parent).paramSorts ++ [sort]).length := by rw [h.level_eq]; simp
    cases order with
    | flat =>
      have hnew : c = ⟨some parent, cs.level parent + 1, (cs.get parent).paramSorts ++ [sort],
          some (symbols.addPredicate ("iter_" ++ hint) ((cs.get parent).paramSorts ++ [sort])).1, .flat⟩ := by
        simpa [Contexts.add] using hc.symm
      subst hnew
      refine ⟨hlevel, fun p hp => ?_, fun order ho => (by cases ho), fun p hp => ?_, fun _ => Nat.succ_pos _⟩
      · cases hp
        exact symbols.declares_addPredicate _ _
      · cases hp
        exact ⟨hparent, sort, by rw [hparams]⟩
    | chained =>
      have hadd := sorted_addOrder (k := k) (symbols.addPredicate ("iter_" ++ hint) ((cs.get parent).paramSorts ++ [sort])).2
        (cs.get parent).paramSorts sort hint
      have hnew : c = ⟨some parent, cs.level parent + 1, (cs.get parent).paramSorts ++ [sort],
          some (symbols.addPredicate ("iter_" ++ hint) ((cs.get parent).paramSorts ++ [sort])).1,
          .chained (addOrder (symbols.addPredicate ("iter_" ++ hint) ((cs.get parent).paramSorts ++ [sort])).2
            (cs.get parent).paramSorts sort hint).1⟩ := by
        simpa [Contexts.add] using hc.symm
      subst hnew
      refine ⟨hlevel, fun p hp => ?_, fun order ho => ?_, fun p hp => ?_, fun hk => (by cases hk)⟩
      · cases hp
        exact (symbols.declares_addPredicate _ _).mono hadd.2
      · cases ho
        exact ⟨_, sort, rfl, hadd.1⟩
      · cases hp
        exact ⟨hparent, sort, by rw [hparams]⟩

end Contexts

/-! ## Values -/

namespace ObjValue

mutual

/-- The value is of the sort at a context whose parameters have the sorts `ps`. -/
def Sorted (k : SortId → SortId) (L : Layout) (symbols : Symbols) (cs : Contexts) (Γ : SortEnv) :
    ObjValue → List SortId → SortId → Prop
  | .empty, _, _ => True
  | .ofClass c slot, ps, sort => c.index < L.graph.size ∧ k (L.classSort c) = k sort ∧ slot.Sorted k symbols ps sort
  | .pred p depth, ps, sort => symbols.Takes k p ps depth [sort]
  | .param level, ps, sort => 0 < level ∧ ∃ a, ps[level - 1]? = some a ∧ k a = k sort
  | .bound t, _, sort => t.HasSort k symbols.functions Γ sort
  | .union parts, ps, sort => AllSorted k L symbols cs Γ parts ps sort
  | .deref source relation flipped slot, ps, sort =>
    ∃ ts, List.lookup relation L.tupleSorts = some ts ∧ slot.Sorted k symbols ps ts.sort ∧ k (ts.farSort flipped) = k sort ∧
      source.Sorted k L symbols cs Γ ps (ts.nearSort flipped)
  | .merge depth indicators values, ps, sort =>
    (∀ p ∈ indicators, symbols.Takes k p ps depth []) ∧ AllSorted k L symbols cs Γ values ps sort
  | .boundary context before inside, ps, sort =>
    (∃ order, (cs.get context).kind = .chained order) ∧ (cs.get context).paramSorts <+: ps ∧
      before.Sorted k L symbols cs Γ ps sort ∧ inside.Sorted k L symbols cs Γ (cs.get context).paramSorts sort

/-- All values are of the sort. -/
def AllSorted (k : SortId → SortId) (L : Layout) (symbols : Symbols) (cs : Contexts) (Γ : SortEnv) :
    List ObjValue → List SortId → SortId → Prop
  | [], _, _ => True
  | v :: rest, ps, sort => v.Sorted k L symbols cs Γ ps sort ∧ AllSorted k L symbols cs Γ rest ps sort

end

variable {L : Layout} {symbols : Symbols} {cs cs' : Contexts}

theorem allSorted_iff (vs : List ObjValue) (ps : List SortId) (sort : SortId) :
    AllSorted k L symbols cs Γ vs ps sort ↔ ∀ v ∈ vs, v.Sorted k L symbols cs Γ ps sort := by
  induction vs with
  | nil => simp [AllSorted]
  | cons v rest ih => simp [AllSorted, ih]

theorem AllSorted.of_mem (h : AllSorted k L symbols cs Γ vs ps sort) (hv : v ∈ vs) : v.Sorted k L symbols cs Γ ps sort :=
  (allSorted_iff vs ps sort).1 h v hv

/-- A value of a sort is also of the sorts that count as the same. -/
theorem Sorted.congr (hab : k a = k b) {v : ObjValue} (h : v.Sorted k L symbols cs Γ ps a) : v.Sorted k L symbols cs Γ ps b := by
  induction v generalizing ps with
  | empty => trivial
  | ofClass c slot => exact ⟨h.1, h.2.1.trans hab, Takes.congr h.2.2 (by simp [hab])⟩
  | pred p depth => exact Takes.congr h (by simp [hab])
  | param level => exact ⟨h.1, h.2.imp fun _ h => ⟨h.1, h.2.trans hab⟩⟩
  | bound t =>
    rw [Sorted] at h ⊢
    exact h.congr hab
  | union parts ih => exact (allSorted_iff _ _ _).2 fun v hv => ih v hv (AllSorted.of_mem h hv)
  | deref source relation flipped slot => exact h.imp fun _ h => ⟨h.1, h.2.1, h.2.2.1.trans hab, h.2.2.2⟩
  | merge depth indicators values ih => exact ⟨h.1, (allSorted_iff _ _ _).2 fun v hv => ih v hv (h.2.of_mem hv)⟩
  | boundary context before inside ihb ihi => exact ⟨h.1, h.2.1, ihb h.2.2.1, ihi h.2.2.2⟩

/-- A value stays of its sort while symbols and contexts are added, in deeper contexts, and where more variables are bound. -/
theorem Sorted.later (hg : symbols.Grows symbols') (hcs : cs.table <+: cs'.table) {n : Nat} (hΓ : Agree n Γ Γ')
    {v : ObjValue} {ps qs : List SortId} {sort : SortId} (hv : v.Settled n) (hps : ps <+: qs)
    (h : v.Sorted k L symbols cs Γ ps sort) : v.Sorted k L symbols' cs' Γ' qs sort := by
  induction v generalizing ps qs sort with
  | empty => trivial
  | ofClass c slot => exact ⟨h.1, h.2.1, (h.2.2.mono hg).deeper hps⟩
  | pred p depth => exact (h.mono hg).deeper hps
  | param level => exact ⟨h.1, h.2.imp fun _ h => ⟨getElem?_extend hps h.1, h.2⟩⟩
  | bound t =>
    rw [Sorted] at h ⊢
    rw [hg.functions]
    exact h.agree hΓ hv
  | union parts ih =>
    exact (allSorted_iff _ _ _).2 fun v hmem => ih v hmem (AllSettled.of_mem hv hmem) hps (AllSorted.of_mem h hmem)
  | deref source relation flipped slot ih =>
    obtain ⟨ts, hts, hslot, hfar, hsource⟩ := h
    exact ⟨ts, hts, (hslot.mono hg).deeper hps, hfar, ih hv hps hsource⟩
  | merge depth indicators values ih =>
    refine ⟨fun p hp => ((h.1 p hp).mono hg).deeper hps, (allSorted_iff _ _ _).2 fun v hmem => ?_⟩
    exact ih v hmem (AllSettled.of_mem hv hmem) hps (h.2.of_mem hmem)
  | boundary context before inside ihb ihi =>
    rw [Sorted] at h ⊢
    obtain ⟨⟨order, hkind⟩, hparams, hbefore, hinside⟩ := h
    rw [get_extend hcs (lt_of_kind hkind)]
    exact ⟨⟨order, hkind⟩, hparams.trans hps, ihb hv.1 hps hbefore, ihi hv.2 (prefix_refl _) hinside⟩

/-- More variables are bound. -/
theorem Sorted.agree (hΓ : Agree n Γ Γ') (hv : v.Settled n) (h : v.Sorted k L symbols cs Γ ps sort) :
    v.Sorted k L symbols cs Γ' ps sort :=
  h.later (.refl _) (prefix_refl _) hΓ hv (prefix_refl _)

theorem wellFormed_derefMember (hL : L.Declared k symbols) {relation : RelationId}
    (hts : List.lookup relation L.tupleSorts = some ts) (hslot : slot.Sorted k symbols ps ts.sort)
    (hparams : OfSorts k symbols.functions Γ g.count params ps)
    (ho : OfSorts k symbols.functions Γ g.count [object] [ts.farSort flipped]) (hfree : Γ.Avoids g.count g'.count)
    (hle : ∀ t, Keeps Le (sourceMember t))
    (ih : ∀ (t : Term) (Γ' : SortEnv) {F : Formula}, Agree g.count Γ Γ' → Γ'.Avoids (g.count + 1) g'.count →
      OfSorts k symbols.functions Γ' (g.count + 1) [t] [ts.nearSort flipped] →
      sourceMember t ⟨g.count + 1⟩ = .ok (F, g') → F.WellFormed k symbols Γ')
    (hrun : derefMember ts flipped slot params object sourceMember g = .ok (F, g')) : F.WellFormed k symbols Γ := by
  obtain ⟨inSource, hsource, heq⟩ := derefMember_ok hrun
  cases heq
  have hle1 : g.count + 1 ≤ g'.count := (hle _).of_ok hsource
  have hagree := agree_bind_nameOf (Nat.lt_succ_self g.count) ts.sort Γ
  have hvar := ofSorts_nameOf (k := k) (f := symbols.functions) (n := g.count) ts.sort Γ
  obtain ⟨hnear, hfar⟩ := hL.ofSorts_nearFar hts flipped hvar
  have hexists := hslot.wellFormed (hparams.agree hagree (Nat.le_succ _)) hvar
  have hequal := wellFormed_mkEq hfar.hasSort (ho.agree hagree (Nat.le_succ _)).hasSort
  have hfree1 := (hfree.within (Nat.le_succ _) (Nat.le_refl _)).bind (Nat.le_refl _) ts.sort
  refine wellFormed_mkForSome (hfree.admits (Nat.lt_succ_self _) hle1 _) ?_
  exact wellFormed_mkAnd (forall_mem_triple hexists hequal (ih _ _ hagree hfree1 hnear hsource))

/-- Membership across the boundary of a chained loop is well formed. -/
theorem wellFormed_boundaryMember (hcs : cs.Sorted k symbols) {context : ContextId} (hkind : (cs.get context).kind = .chained order)
    (hps : (cs.get context).paramSorts <+: ps) (hparams : OfSorts k symbols.functions Γ g.count params ps)
    (hfree : Γ.Avoids g.count g'.count) {beforeMember : FreshEncode Formula} (hle : Keeps Le beforeMember)
    {insideMember : List Term → FreshEncode Formula} (hle' : ∀ qs, Keeps Le (insideMember qs))
    (ihb : ∀ {F : Formula} {g1 : VarGen}, g1.count ≤ g'.count → beforeMember ⟨g.count + 1⟩ = .ok (F, g1) → F.WellFormed k symbols Γ)
    (ihi : ∀ (qs : List Term) (Γ' : SortEnv) (g1 : VarGen) {F : Formula}, g.count ≤ g1.count → Agree g.count Γ Γ' →
      Γ'.Avoids g1.count g'.count → OfSorts k symbols.functions Γ' g1.count qs (cs.get context).paramSorts →
      insideMember qs g1 = .ok (F, g') → F.WellFormed k symbols Γ')
    (hrun : boundaryMember cs context params beforeMember insideMember g = .ok (F, g')) : F.WellFormed k symbols Γ := by
  obtain ⟨order', fromBefore, g1, fromInside, hkind', hbefore, hinside, heq⟩ := boundaryMember_ok hrun
  rw [hkind] at hkind'
  cases hkind'
  cases heq
  obtain ⟨outer, sort, hsorts, horder⟩ := (hcs.get context).order order hkind
  have hlevel : (cs.get context).level - 1 = outer.length := by rw [(hcs.get context).level, hsorts]; simp
  have hsort : (cs.get context).paramSorts.getD ((cs.get context).level - 1) ⟨0⟩ = sort := by
    rw [hlevel, hsorts, getD_eq_getElem?_getD]
    simp
  have hle1 : g.count + 1 ≤ g1.count := hle.of_ok hbefore
  have hle2 : g1.count + 1 ≤ g'.count := (hle' _).of_ok hinside
  have houter : OfSorts k symbols.functions Γ g.count (params.take ((cs.get context).level - 1)) outer := by
    have htake := hparams.take outer.length
    obtain ⟨more, rfl⟩ := hps
    rw [hsorts, append_assoc, take_left] at htake
    rw [hlevel]
    exact htake
  rw [hsort]
  refine wellFormed_mkOr (forall_mem_pair ?_ ?_)
  · -- no iteration comes before
    have hagree := VarGen.agree_bind_nameOf (Nat.lt_succ_self g.count) sort Γ
    have hvar := VarGen.ofSorts_nameOf (k := k) (f := symbols.functions) (n := g.count) sort Γ
    have hposition : Term.OfSorts k symbols.functions (Γ.bind [⟨VarGen.nameOf (g.count + 1), sort⟩]) (g.count + 1)
        (params.take ((cs.get context).level - 1) ++ [.var (VarGen.nameOf (g.count + 1))]) (cs.get context).paramSorts := by
      rw [hsorts]
      exact (houter.agree hagree (Nat.le_succ _)).append hvar
    have hadmits := hfree.admits (Nat.lt_succ_self _) (by omega) sort
    refine wellFormed_mkAnd (forall_mem_pair (wellFormed_mkNot (wellFormed_mkForSome hadmits ?_)) (ihb (by omega) hbefore))
    refine hcs.wellFormed_before context context ?_ ?_ hposition (hparams.agree hagree (Nat.le_succ _)) wellFormed_bot
    · exact (Contexts.commonAncestor_self cs context).symm ▸ prefix_refl _
    · rw [Contexts.commonAncestor_self]
      exact hps
  · -- the iteration just before
    have hagree := VarGen.agree_bind_nameOf (Nat.lt_of_lt_of_le (Nat.lt_succ_self g.count) (Nat.le_succ_of_le hle1)) sort Γ
    have hvar := VarGen.ofSorts_nameOf (k := k) (f := symbols.functions) (n := g1.count) sort Γ
    have hle3 : g.count ≤ g1.count + 1 := by omega
    have hcurrent := (hparams.paramAt (l := (cs.get context).level) (a := sort)
      (getElem?_extend hps (by rw [hlevel, hsorts]; simp))).agree hagree hle3
    have hfree1 := (hfree.within hle3 (Nat.le_refl _)).bind (Nat.le_refl _) sort
    refine wellFormed_mkForSome (hfree.admits (by omega) hle2 _) (wellFormed_mkAnd (forall_mem_pair ?_ ?_))
    · exact wellFormed_atom horder.justBefore ((houter.agree hagree hle3).append (hvar.append hcurrent)).sorts
    · refine ihi _ _ ⟨g1.count + 1⟩ hle3 hagree hfree1 ?_ hinside
      rw [hsorts]
      exact (houter.agree hagree hle3).append hvar

theorem wellFormed_mergeMember {indicators : List PredId} (hindicators : ∀ p ∈ indicators, symbols.Takes k p ps depth [])
    (hparams : OfSorts k symbols.functions Γ n params ps) {members : List Formula}
    (hmembers : ∀ F ∈ members, F.WellFormed k symbols Γ) :
    (mergeMember depth indicators params members).WellFormed k symbols Γ := by
  refine wellFormed_mkOr fun F hF => ?_
  obtain ⟨⟨p, G⟩, hpair, rfl⟩ := mem_map.1 hF
  obtain ⟨hp, hG⟩ := of_mem_zip hpair
  refine wellFormed_mkAnd (forall_mem_pair ?_ (hmembers G hG))
  have hatom := (hindicators p hp).wellFormed hparams .nil
  rwa [append_nil] at hatom

theorem wellFormed_members
    (hvs : ∀ v ∈ vs, ∀ {g g' : VarGen} {F : Formula}, v.Sorted k L symbols cs Γ ps sort → v.Settled g.count →
      OfSorts k symbols.functions Γ g.count params ps → OfSorts k symbols.functions Γ g.count [object] [sort] →
      Γ.Avoids g.count g'.count → v.member L cs params object g = .ok (F, g') → F.WellFormed k symbols Γ)
    (hv : AllSorted k L symbols cs Γ vs ps sort) (hsettled : AllSettled g.count vs)
    (hparams : OfSorts k symbols.functions Γ g.count params ps)
    (ho : OfSorts k symbols.functions Γ g.count [object] [sort]) (hfree : Γ.Avoids g.count g'.count)
    (hrun : members L cs vs params object g = .ok (Fs, g')) : ∀ F ∈ Fs, F.WellFormed k symbols Γ := by
  induction vs generalizing g Fs with
  | nil =>
    cases pure_ok.1 hrun
    simp
  | cons v rest ih =>
    obtain ⟨F, g1, h1, hrun⟩ := bind_ok.1 hrun
    obtain ⟨Gs, g2, h2, hrun⟩ := bind_ok.1 hrun
    cases pure_ok.1 hrun
    have hle : g.count ≤ g1.count := (keeps_member L cs v params object).of_ok h1
    have hle' : g1.count ≤ g'.count := (keeps_members L cs rest params object).of_ok h2
    obtain ⟨hhead, hrest⟩ := forall_mem_cons.1 hvs
    refine forall_mem_cons.2 ⟨hhead hv.1 hsettled.1 hparams ho (hfree.within (Nat.le_refl _) hle') h1, ?_⟩
    exact ih hrest hv.2 (hsettled.2.mono hle) (hparams.mono hle) (ho.mono hle) (hfree.within hle (Nat.le_refl _)) h2

/-- Membership of an element of the sort in a value of the sort is well-formed, if the variables that it takes are still free. -/
theorem wellFormed_member (hL : L.Declared k symbols) (hcs : cs.Sorted k symbols) (v : ObjValue) {g g' : VarGen}
    (hv : v.Sorted k L symbols cs Γ ps sort) (hsettled : v.Settled g.count)
    (hparams : OfSorts k symbols.functions Γ g.count params ps)
    (ho : OfSorts k symbols.functions Γ g.count [object] [sort]) (hfree : Γ.Avoids g.count g'.count)
    (hrun : v.member L cs params object g = .ok (F, g')) : F.WellFormed k symbols Γ := by
  induction v generalizing params object ps sort Γ g g' F with
  | empty =>
    cases pure_ok.1 hrun
    exact wellFormed_bot
  | ofClass c slot =>
    cases pure_ok.1 hrun
    obtain ⟨hc, hsort, hslot⟩ := hv
    exact wellFormed_mkAnd (forall_mem_pair (hslot.wellFormed hparams ho) (hL.wellFormed_isClass hc (ho.congr hsort.symm)))
  | pred p depth =>
    cases pure_ok.1 hrun
    exact hv.wellFormed hparams ho
  | param level =>
    cases pure_ok.1 hrun
    obtain ⟨-, a, ha, hsort⟩ := hv
    exact wellFormed_mkEq ho.hasSort ((hparams.paramAt ha).hasSort.congr hsort)
  | bound t =>
    cases pure_ok.1 hrun
    exact wellFormed_mkEq ho.hasSort hv
  | union parts ih =>
    obtain ⟨Fs, g1, h1, hrun⟩ := bind_ok.1 hrun
    cases pure_ok.1 hrun
    exact wellFormed_mkOr (wellFormed_members (fun v hv => ih v hv) hv hsettled hparams ho hfree h1)
  | deref source relation flipped slot ih =>
    obtain ⟨ts, hts, hrun⟩ := liftBind_ok.1 hrun
    obtain ⟨ts', hts', hslot, hsort, hsource⟩ := hv
    rw [Layout.lookup_of_tupleSort hts] at hts'
    cases hts'
    refine wellFormed_derefMember hL (Layout.lookup_of_tupleSort hts) hslot hparams (ho.congr hsort.symm) hfree
      (keeps_member L cs source params) (fun t Γ' F hΓ hfree' ht hrun => ?_) hrun
    exact ih (hsource.agree hΓ hsettled) (Settled.mono (Nat.le_succ _) hsettled) (hparams.agree hΓ (Nat.le_succ _)) ht hfree' hrun
  | merge depth indicators values ih =>
    obtain ⟨Fs, g1, h1, hrun⟩ := bind_ok.1 hrun
    cases pure_ok.1 hrun
    exact wellFormed_mergeMember hv.1 hparams (wellFormed_members (fun v hv => ih v hv) hv.2 hsettled hparams ho hfree h1)
  | boundary context before inside ihb ihi =>
    obtain ⟨⟨order, hkind⟩, hps, hbefore, hinside⟩ := hv
    refine wellFormed_boundaryMember hcs hkind hps hparams hfree (keeps_member L cs before params object)
      (fun qs => keeps_member L cs inside qs object) (fun hle hrun => ?_) (fun qs Γ' g1 F hle hΓ hfree' hqs hrun => ?_) hrun
    · exact ihb hbefore (hsettled.1.mono (Nat.le_succ _)) (hparams.mono (Nat.le_succ _)) (ho.mono (Nat.le_succ _))
        (hfree.within (Nat.le_succ _) hle) hrun
    · exact ihi (hinside.agree hΓ hsettled.2) (hsettled.2.mono hle) hqs (ho.agree hΓ hle) hfree' hrun

end ObjValue

end StoreCheck
