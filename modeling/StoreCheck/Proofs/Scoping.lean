import StoreCheck.Proofs.Encoding.Sessions
import StoreCheck.Proofs.Frame

/-!
# The theories of goals are closed, and nothing is looked up out of range

Predicates take as many parameters as the context they were made in has, and values made at one depth of loops are used at
others. A session is in range (`Session.InRange`) if every slot, guard and variable asks only for parameters, contexts and slots
that are there at its place. It is covered (`Session.Covered`) if every class and relation that a statement or a formula can lead
to has its entry in the layout and its slot in the snapshot: those that are named, that inferred types have, and that the analysis
of a loop's body plans. Every session that the encoding of a goal comes to is in range and covered, whether the encoding then
succeeds or fails, and the values of expressions there are in range. All formulas of a theory are well-scoped: closed, over
registered symbols with the right number of arguments, and without a variable bound again below its own binder
(`Formula.wellScoped`).
-/

namespace StoreCheck

open List Encode ObjValue Layout

variable {cs : Contexts} {n : Nat} {ps : List SortId} {σ : Snapshot} {vs : List ObjValue} {v : ObjValue} {inFormula : Bool}

/-! ## Lookups -/

/-- Every context has as many parameters as its level says, and its parent stands before it in the table, one level up. -/
def Contexts.Nested (cs : Contexts) : Prop :=
  ∀ (i : Nat) (c : Context), cs.table[i]? = some c → c.paramSorts.length = c.level ∧
    ∀ parent, c.parent = some parent → parent.index < i ∧ c.level = cs.level parent + 1

mutual

/-- At a position with `n` parameters, membership in the value looks only at parameters and contexts that are there. -/
def ObjValue.InRange (cs : Contexts) : Nat → ObjValue → Prop
  | _, .empty => True
  | n, .ofClass _ slot => slot.depth ≤ n
  | n, .pred _ depth => depth ≤ n
  | n, .param level => 0 < level ∧ level ≤ n
  | _, .bound _ => True
  | n, .union parts => ObjValue.AllInRange cs n parts
  | n, .deref source _ _ slot => source.InRange cs n ∧ slot.depth ≤ n
  | n, .merge depth indicators values => (indicators = [] ∨ depth ≤ n) ∧ ObjValue.AllInRange cs n values
  -- the iteration just before has the parameters of the loop's own context
  | n, .boundary context before inside =>
    context.index < cs.table.length ∧ 0 < cs.level context ∧ cs.level context ≤ n ∧ before.InRange cs n ∧
      inside.InRange cs (cs.level context)

/-- Membership in each of the values looks only at what is there. -/
def ObjValue.AllInRange (cs : Contexts) : Nat → List ObjValue → Prop
  | _, [] => True
  | n, v :: rest => v.InRange cs n ∧ ObjValue.AllInRange cs n rest

end

theorem ObjValue.allInRange_iff (vs : List ObjValue) : AllInRange cs n vs ↔ ∀ v ∈ vs, v.InRange cs n := by
  induction vs with
  | nil => simp [AllInRange]
  | cons v rest ih => simp [AllInRange, ih]

/-- The variables of the scope can be looked at from a position with `n` parameters. -/
def Scope.InRange (cs : Contexts) (n : Nat) (scope : Scope) : Prop :=
  ∀ name b, scope.find? name = some b → b.value.InRange cs n

/-- Everything that the session can look at from its place is there. -/
structure Session.InRange (L : Layout) (s : Session) : Prop where
  contexts : s.contexts.Nested
  context : s.context.index < s.contexts.table.length
  guards : ∀ g ∈ s.guards, g.depth ≤ s.level
  /-- There is a slot for each sort. -/
  slots : s.snapshot.slots.length = Layout.sortCount L.store
  depths : ∀ slot ∈ s.snapshot.slots, slot.depth ≤ s.level
  scope : s.scope.InRange s.contexts s.level
  /-- The type of a variable has a sort, and the sort a slot. -/
  types : ∀ name b, s.scope.find? name = some b → ∃ a, L.sortOf b.type = .ok a ∧
    ∀ sort, a = some sort → sort.index < s.snapshot.slots.length

/-- The tables of the layout have an entry for the class, and its sort has one of `n` slots. -/
structure Layout.HasClass (L : Layout) (n : Nat) (c : ClassId) : Prop where
  component : L.graph.componentOf c < L.componentSorts.length
  pred : c.index < L.classPreds.length
  slot : (L.classSort c).index < n

/-- The base relation has a tuple sort, which has one of `n` slots, and so have the sorts of its ends. -/
def Layout.HasRelation (L : Layout) (n : Nat) (id : RelationId) : Prop :=
  ∃ ts, L.tupleSort id = .ok ts ∧ ts.sort.index < n ∧ ts.source.index < n ∧ ts.target.index < n

/-- Whatever a statement or a formula makes the encoding look up in the session, in the layout and in the snapshot, is there. -/
structure Session.Covered (L : Layout) (s : Session) : Prop where
  /-- There is a parameter for each level. -/
  params : ∀ binders ps t, Encode.contextBinders s = .ok ((binders, ps), t) → ps.length = s.level
  /-- The sorts that are gone through where branches meet. -/
  sorts : ∀ sort ∈ L.sorts, sort.index < s.snapshot.slots.length
  classes : ∀ name c, L.graph.resolve name = .ok c → L.HasClass s.snapshot.slots.length c
  relations : ∀ signature name r, L.store.relationOn signature name = .ok r → L.HasRelation s.snapshot.slots.length r.base
  /-- The relations that deleting objects prunes. -/
  incident : ∀ signature, ∀ r ∈ L.store.incidentRelations signature, L.HasRelation s.snapshot.slots.length r.id
  bound : ∀ x b, s.scope.find? x = some b → L.graph.Declares b.type.signature
  /-- The types of expressions, also below quantifiers. -/
  types : ∀ (types : TypeEnv) (e : ObjExpr) (t : ObjType), types.All L.graph.Declares → infer L.store types e = .ok t →
    L.graph.Declares t.signature ∧ (∀ c ∈ t.signature.classes, L.HasClass s.snapshot.slots.length c) ∧
      ∀ sort, L.sortOf t = .ok (some sort) → sort.index < s.snapshot.slots.length
  /-- What the analysis of a loop's body finds has a sort, which the plan of the loop has. -/
  planned : ∀ (types : TypeEnv) (locals : VarMap Bool) (body : Block) (effects : EffectMap), types.All L.graph.Declares →
    VarMap.Distinct types → body.effects L.store types locals = .ok effects → ∀ d ∈ effects.reads ++ effects.writes,
      ∃ sort ∈ L.sorts, L.domainSort d = some sort ∧ sort.index < s.snapshot.slots.length

variable {k : SortId → SortId} {L : Layout} {s t : Session}

theorem Contexts.Sorted.nested (h : cs.Sorted k symbols) : cs.Nested := by
  intro i c hc
  obtain ⟨hlevel, -, -, hparent, -⟩ := h i c hc
  refine ⟨hlevel.symm, fun parent hp => ?_⟩
  obtain ⟨hlt, sort, hsorts⟩ := hparent parent hp
  refine ⟨hlt, ?_⟩
  rw [hlevel, hsorts, h.level_eq, length_append, length_singleton]

/-- A value of a sort refers to declared predicates and contexts only. -/
theorem ObjValue.Sorted.inRange {cs : Contexts} (hcs : cs.Sorted k symbols) {v : ObjValue} (h : v.Sorted k L symbols cs Γ ps sort) :
    v.InRange cs ps.length := by
  induction v generalizing ps sort with
  | empty | bound => trivial
  | ofClass c slot => exact h.2.2.depth
  | pred p depth => exact h.depth
  | param level =>
    obtain ⟨hpos, a, ha, -⟩ := h
    have hlt := (List.getElem?_eq_some_iff.1 ha).1
    exact ⟨hpos, by omega⟩
  | union parts ih => exact (allInRange_iff _).2 fun v hv => ih v hv (AllSorted.of_mem h hv)
  | deref source relation flipped slot ih =>
    obtain ⟨ts, -, hslot, -, hsource⟩ := h
    exact ⟨ih hsource, hslot.depth⟩
  | merge depth indicators values ih =>
    refine ⟨?_, (allInRange_iff _).2 fun v hv => ih v hv (h.2.of_mem hv)⟩
    cases indicators with
    | nil => exact .inl rfl
    | cons p rest => exact .inr (h.1 p (by simp)).depth
  | boundary context before inside ihb ihi =>
    obtain ⟨⟨order, hkind⟩, hps, hbefore, hinside⟩ := h
    obtain ⟨outer, last, hsorts, -⟩ := (hcs.get context).order order hkind
    have hlevel := hcs.level_eq context
    refine ⟨Contexts.lt_of_kind hkind, ?_, ?_, ihb hbefore, ?_⟩
    · rw [hlevel, hsorts]
      simp
    · rw [hlevel]
      exact hps.length_le
    · rw [hlevel]
      exact ihi hinside

theorem Snapshot.Sorted.depth_le (h : σ.Sorted k L symbols ps) : ∀ slot ∈ σ.slots, slot.depth ≤ ps.length := by
  intro slot hslot
  obtain ⟨i, hi⟩ := mem_iff_getElem?.1 hslot
  have hlt := (List.getElem?_eq_some_iff.1 hi).1
  have hsorted := h.slot ⟨i⟩ (by rw [← h.length]; exact hlt)
  have hat : σ.slot ⟨i⟩ = slot := by rw [Snapshot.slot, getD_eq_getElem?_getD, hi]; rfl
  rw [hat] at hsorted
  exact hsorted.depth

/-- A sorted session is in range. -/
theorem Session.Placed.inRange (h : s.Placed k L) : s.InRange L := by
  have hlevel := h.sorted.level_eq
  refine ⟨h.sorted.contexts.nested, h.sorted.context, fun g hg => ?_, h.snapshot.length, fun slot hslot => ?_,
    fun name b hb => ?_, fun name b hb => ?_⟩
  · rw [hlevel]
    exact (h.sorted.guards g hg).depth
  · rw [hlevel]
    exact Snapshot.Sorted.depth_le h.snapshot slot hslot
  · obtain ⟨a, hbinding⟩ := h.scope name b hb
    rw [hlevel]
    cases a with
    | none => exact (hbinding.fits ⟨0⟩ (.inl rfl)).inRange h.sorted.contexts
    | some sort => exact hbinding.fits.sorted.inRange h.sorted.contexts
  · obtain ⟨a, hbinding⟩ := h.scope name b hb
    refine ⟨a, hbinding.sortOf, fun sort ha => ?_⟩
    rw [h.snapshot.length]
    exact hbinding.known sort ha

/-! ## Expressions -/

theorem Snapshot.depth_slot_le {σ : Snapshot} (h : ∀ slot ∈ σ.slots, slot.depth ≤ n) (sort : SortId) :
    (σ.slot sort).depth ≤ n := by
  rw [Snapshot.slot, getD_eq_getElem?_getD]
  cases hi : σ.slots[sort.index]? with
  | none => exact Nat.zero_le _
  | some slot => exact h slot (mem_of_getElem? hi)

namespace Encode

theorem inRange_unionValue (h : ∀ v ∈ vs, v.InRange cs n) : (unionValue vs).InRange cs n := by
  have hfilter : ∀ v ∈ vs.filter (!·.isEmpty), v.InRange cs n := fun v hv => h v (mem_filter.1 hv).1
  unfold unionValue
  split
  · rw [InRange]
    trivial
  · rename_i v heq
    exact hfilter v (by simp [heq])
  · rw [InRange, allInRange_iff]
    exact hfilter

variable {scope : Scope}

theorem inRange_boundValue (h : scope.InRange s.contexts s.level) (hrun : boundValue scope name s = .ok (v, t)) :
    v.InRange s.contexts s.level := by
  obtain ⟨b, hb, heq⟩ := boundValue_ok hrun
  cases heq
  exact h name b hb

theorem inRange_objValues (hes : ∀ e ∈ es, ∀ {s t : Session} {v : ObjValue}, (∀ slot ∈ s.snapshot.slots, slot.depth ≤ s.level) →
      scope.InRange s.contexts s.level → objValue L inFormula scope e s = .ok (v, t) → v.InRange s.contexts s.level)
    (hdepths : ∀ slot ∈ s.snapshot.slots, slot.depth ≤ s.level) (hscope : scope.InRange s.contexts s.level)
    (hrun : objValues L inFormula scope es s = .ok (vs, t)) : ∀ v ∈ vs, v.InRange s.contexts s.level := by
  induction es generalizing s vs with
  | nil =>
    cases pure_ok.1 hrun
    exact forall_mem_nil _
  | cons e rest ih =>
    obtain ⟨he, hes⟩ := forall_mem_cons.1 hes
    obtain ⟨v, s1, h1, hrun⟩ := bind_ok.1 hrun
    obtain ⟨vs', s2, h2, hrun⟩ := bind_ok.1 hrun
    cases pure_ok.1 hrun
    have hq1 := (quiet_objValue L inFormula scope e).of_ok h1
    have hrest := ih hes (by rw [hq1.snapshot, hq1.level]; exact hdepths) (by rw [hq1.table, hq1.level]; exact hscope) h2
    rw [hq1.table, hq1.level] at hrest
    exact forall_mem_cons.2 ⟨he hdepths hscope h1, hrest⟩

/-- The value of an expression can be looked at where it is computed. -/
theorem inRange_objValue (e : ObjExpr) {s t : Session} {v : ObjValue} (hdepths : ∀ slot ∈ s.snapshot.slots, slot.depth ≤ s.level)
    (hscope : scope.InRange s.contexts s.level) (hrun : objValue L inFormula scope e s = .ok (v, t)) :
    v.InRange s.contexts s.level := by
  induction e generalizing s t v with
  | allOf className =>
    obtain ⟨c, -, hrun⟩ := typedBind_ok.1 hrun
    cases pure_ok.1 hrun
    exact Snapshot.depth_slot_le hdepths _
  | var name | iterator name => exact inRange_boundValue hscope hrun
  | subset source | oneOf source =>
    obtain ⟨-, value, u, s1, -, h1, hrun⟩ := choice_ok hrun
    have hq1 := (quiet_objValue L false scope source).of_ok h1
    obtain ⟨-, rfl, rfl⟩ | ⟨sort, p, s2, -, h2, -, rfl⟩ := chosen_ok hrun
    · trivial
    · rw [InRange, (hq1.trans ((quiet_freshPred _ _).of_ok h2)).level]
  | union parts ih =>
    obtain ⟨vs, s1, h1, hrun⟩ := bind_ok.1 hrun
    cases pure_ok.1 hrun
    exact inRange_unionValue (inRange_objValues ih hdepths hscope h1)
  | deref source relation ih =>
    obtain ⟨value, s1, h1, h2⟩ := bind_ok.1 hrun
    obtain ⟨u, r, ts, -, -, -, heq⟩ := derefValue_ok h2
    cases heq
    have hq1 := (quiet_objValue L inFormula scope source).of_ok h1
    rw [InRange, hq1.snapshot]
    exact ⟨ih hdepths hscope h1, Snapshot.depth_slot_le hdepths _⟩

end Encode

/-! ## Layouts -/

namespace Layout.Laid

variable {symbols : Symbols} (hlaid : L.Laid symbols)
include hlaid

theorem hasClass (hc : c.index < L.graph.size) : L.HasClass (sortCount L.store) c where
  component := by
    rw [hlaid.componentSorts, length_map, length_range]
    exact hlaid.store.graph.lt c hc
  pred := by
    rw [hlaid.classPreds, length_map, length_range]
    exact hc
  slot := hlaid.classSort_lt hc

theorem hasRelation {id : RelationId} (hd : Domain.Declared L.store (.ofRelation id)) : L.HasRelation (sortCount L.store) id := by
  obtain ⟨r, hr, rfl⟩ := hd
  obtain ⟨ts, hts⟩ := hlaid.exists_tupleSort hr
  exact ⟨ts, by rw [tupleSort, hts], hlaid.tupleSort_lt hts, hlaid.ends_lt hts⟩

/-- Everything declared has a sort. -/
theorem exists_domainSort (hd : d.Declared L.store) : ∃ sort ∈ L.sorts, L.domainSort d = some sort := by
  cases d with
  | ofClass c => exact ⟨_, hlaid.domainSort_mem hd rfl, rfl⟩
  | ofRelation id =>
    obtain ⟨ts, hts, -⟩ := hlaid.hasRelation hd
    have hsort := Layout.domainSort_relation hts
    exact ⟨ts.sort, hlaid.domainSort_mem hd hsort, hsort⟩

end Layout.Laid

/-- Every session that the encoding of a goal comes to is covered. -/
theorem Reached.covered {store : Store} (hwf : store.WellFormed) (h : Reached store s) : s.Covered (ofStore store).1 := by
  have hlaid := laid_ofStore hwf
  have hplaced : s.Placed (fun _ => ⟨0⟩) (ofStore store).1 := h.placed hwf fun _ _ => rfl
  have hslots := hplaced.inRange.slots
  have hhereditary := ClassGraph.hereditary_declares store.graph
  have hclasses : ∀ t : ObjType, store.graph.Declares t.signature →
      ∀ c ∈ t.signature.classes, (ofStore store).1.HasClass s.snapshot.slots.length c := by
    intro t ht c hc
    rw [hslots]
    exact hlaid.hasClass (ht c hc)
  refine ⟨fun binders ps t hrun => ?_, fun sort hsort => ?_, fun name c hc => ?_, fun signature name r hr => ?_,
    fun signature r hr => ?_, fun x b hb => ?_, fun types e t htypes ht => ?_, fun types locals body effects htypes hdistinct hrun d hd => ?_⟩
  · have hps : ps = (VarGen.binders s.paramSorts s.vars).1.2 := congrArg (fun r => r.1.2) (modifyGet_ok.1 hrun)
    rw [hps, VarGen.length_binders, hplaced.sorted.level_eq]
  · rw [hslots]
    exact hlaid.mem_sorts.1 hsort
  · rw [hslots]
    exact hlaid.hasClass (ClassGraph.resolveIn_lt hc)
  · rw [hslots]
    exact hlaid.hasRelation ⟨r, (Store.relationOn_ok hr).1, rfl⟩
  · rw [hslots]
    exact hlaid.hasRelation (Store.declared_of_incident hr)
  · exact Scope.all_binding (h.typed hwf hhereditary).types hb
  · have hdeclares := infer_hereditary hwf hhereditary htypes e ht
    refine ⟨hdeclares, hclasses t hdeclares, fun sort hsort => ?_⟩
    obtain ⟨c, hc, rfl⟩ := Layout.sortOf_some hsort
    exact (hclasses t hdeclares c hc).slot
  · have hdeclared : d.Declared store := by
      obtain ⟨e, he, -⟩ | ⟨e, he, -⟩ := (mem_append.1 hd).imp (EffectMap.mem_domainsWith _ _ _).1 (EffectMap.mem_domainsWith _ _ _).1
      · exact Block.effects_declared hwf htypes hdistinct hrun d e he
      · exact Block.effects_declared hwf htypes hdistinct hrun d e he
    obtain ⟨sort, hmem, hsort⟩ := hlaid.exists_domainSort hdeclared
    rw [hslots]
    exact ⟨sort, hmem, hsort, hlaid.mem_sorts.1 hmem⟩

/-! ## Theories -/

theorem Theory.wellScoped_of_wellFormed {theory : Theory}
    (h : ∀ F ∈ theory.axioms ++ theory.conjectures, F.WellFormed k theory.symbols .empty) : theory.wellScoped = true :=
  all_eq_true.2 fun F hF => Formula.wellScoped_of_wellFormed (fun _ => by simp [SortEnv.empty]) (h F hF)

/-- For every valid store: the theories of its goals are closed, use registered symbols with the right number of arguments and
bind no variable again below its own binder. And wherever the encoding of a goal comes to, all that it can look at is there: the
session is in range, every class, relation and planned sort that it can look up has its slot, and the value of every expression
over variables that are in range is so too. -/
theorem encodings_closed_in_range (spec : Spec) (store : Store) (hspec : Store.ofSpec spec = .ok store) :
    (∀ (action : Action) (assumed checked : List FormulaExpr) (name : String) (theory : Theory),
      preservationTheory store action assumed checked name = .ok theory → theory.wellScoped = true) ∧
    (∀ (formulas : List FormulaExpr) (name : String) (theory : Theory),
      consistencyTheory store formulas name = .ok theory → theory.wellScoped = true) ∧
    ∀ s, Reached store s → s.InRange (Layout.ofStore store).1 ∧ s.Covered (Layout.ofStore store).1 ∧
      ∀ (inFormula : Bool) (scope : Scope) (e : ObjExpr) (v : ObjValue) (type : ObjType) (t : Session),
        scope.InRange s.contexts s.level → Encode.objSet (Layout.ofStore store).1 inFormula scope e s = .ok ((v, type), t) →
        v.InRange s.contexts s.level := by
  have hwf := Store.wellFormed_ofSpec hspec
  have hk : Loose fun _ => (⟨0⟩ : SortId) := fun _ _ => rfl
  refine ⟨fun action assumed checked name theory htheory => ?_, fun formulas name theory htheory => ?_, fun s hs => ?_⟩
  · exact Theory.wellScoped_of_wellFormed (wellFormed_preservation hwf (.inr hk) htheory)
  · exact Theory.wellScoped_of_wellFormed (wellFormed_consistency (k := id) hwf htheory)
  · have hrange := (hs.placed hwf hk).inRange
    refine ⟨hrange, hs.covered hwf, fun inFormula scope e v type t hscope hrun => ?_⟩
    exact Encode.inRange_objValue e hrange.depths hscope (Encode.objSet_ok hrun).2.1

open Hotel

/-- The theory of checking out is closed, and so is the theory that the hotel can be open; at its end the encoding is in range and covered. -/
theorem encodings_closed_in_range_checkout :
    Store.ofSpec Hotel.spec = .ok Hotel.store ∧
    (∃ theory, preservationTheory Hotel.store Hotel.checkout [Hotel.openRooms.formula] [Hotel.openRooms.formula] "checkout" =
      .ok theory ∧ theory.wellScoped = true) ∧
    (∃ theory, consistencyTheory Hotel.store [Hotel.openRooms.formula] "open" = .ok theory ∧ theory.wellScoped = true) ∧
    ∃ s, Encode.walk (Layout.ofStore Hotel.store).1 Hotel.checkout (Layout.ofStore Hotel.store).2 = .ok ((), s) ∧
      Reached Hotel.store s ∧ s.InRange (Layout.ofStore Hotel.store).1 ∧ s.Covered (Layout.ofStore Hotel.store).1 := by
  have hspec := ofSpec_spec
  obtain ⟨theory, htheory, -⟩ := exists_ok_of_any (x := preservationTheory Hotel.store checkout
    [openRooms.formula] [openRooms.formula] "checkout") (p := fun _ => true) (by decide +kernel)
  obtain ⟨theory', htheory', -⟩ := exists_ok_of_any (x := consistencyTheory Hotel.store [openRooms.formula] "open")
    (p := fun _ => true) (by decide +kernel)
  obtain ⟨⟨⟨⟩, s⟩, hwalk, -⟩ := exists_ok_of_any (p := fun _ => true)
    (x := Encode.walk (ofStore Hotel.store).1 checkout (ofStore Hotel.store).2) (by decide +kernel)
  obtain ⟨⟨⟩, s1, hparams, hblock⟩ := bind_ok.mp hwalk
  have hreached : Reached Hotel.store s := .statement hparams (Encode.reaches_end _ hblock)
  obtain ⟨hpreservation, hconsistency, hrange⟩ := encodings_closed_in_range spec Hotel.store hspec
  exact ⟨hspec, ⟨theory, htheory, hpreservation _ _ _ _ theory htheory⟩, ⟨theory', htheory', hconsistency _ _ theory' htheory'⟩,
    s, hwalk, hreached, (hrange s hreached).1, (hrange s hreached).2.1⟩

end StoreCheck
