import StoreCheck.Proofs.Encoding.SortedValues
import StoreCheck.Proofs.Encoding.TypeSorts

/-!
# Sessions whose axioms are well-formed

Everything that a session has made is sorted: its axioms, and the predicates of its contexts, slots, branches and creations
(`Session.Sorted`). A step that adds an axiom keeps this if it builds a well-formed formula from variables that have the sorts of
the context's parameters (`Session.Sorted.axiomOver`).
-/

namespace StoreCheck

open List Formula Encode SortEnv VarGen Term

variable {L : Layout} {ps qs extra sorts : List SortId} {sort : SortId} {symbols : Symbols} {t : Session} {p : PredId}
  {ts position : List Term} {Γ : SortEnv} {v : ObjValue} {F : Formula}

variable {k : SortId → SortId}

/-- The snapshot has a slot for every sort, declared over parameters of the context. -/
structure Snapshot.Sorted (k : SortId → SortId) (L : Layout) (symbols : Symbols) (ps : List SortId) (σ : Snapshot) :
    Prop where
  length : σ.slots.length = Layout.sortCount L.store
  slot : ∀ sort : SortId, sort.index < Layout.sortCount L.store → (σ.slot sort).Sorted k symbols ps sort

namespace Snapshot

variable {σ : Snapshot}

theorem slot_link (σ : Snapshot) (sort sort' : SortId) (slot : Slot) :
    (σ.link sort slot).slot sort' = slot ∧ sort' = sort ∨ (σ.link sort slot).slot sort' = σ.slot sort' := by
  unfold Snapshot.slot link
  rw [getD_eq_getElem?_getD, getD_eq_getElem?_getD, getElem?_set]
  split
  · rename_i heq
    split
    · exact .inl ⟨rfl, by cases sort; cases sort'; simpa using heq.symm⟩
    · right
      rw [← heq, getElem?_eq_none (by omega)]
  · exact .inr rfl

theorem Sorted.link (h : σ.Sorted k L symbols ps) {slot : Slot} (hslot : slot.Sorted k symbols ps sort) :
    (σ.link sort slot).Sorted k L symbols ps := by
  refine ⟨by rw [Snapshot.link, length_set, h.length], fun sort' hsort' => ?_⟩
  rcases σ.slot_link sort sort' slot with ⟨heq, rfl⟩ | heq
  · rw [heq]
    exact hslot
  · rw [heq]
    exact h.slot sort' hsort'

theorem Sorted.withSlots (h : σ.Sorted k L symbols ps) (hchanges : ∀ c ∈ changes, c.2.Sorted k symbols ps c.1) :
    (σ.withSlots changes).Sorted k L symbols ps := by
  induction changes generalizing σ with
  | nil => exact h
  | cons c rest ih =>
    exact ih (h.link (hchanges c (by simp))) fun d hd => hchanges d (by simp [hd])

theorem Sorted.later (h : σ.Sorted k L symbols ps) (hg : symbols.Grows symbols') (hps : ps <+: qs) : σ.Sorted k L symbols' qs :=
  ⟨h.length, fun sort hsort => ((h.slot sort hsort).mono hg).deeper hps⟩

end Snapshot

/-- The value is of the sort; without a sort, of every sort. -/
def ObjValue.Fits (k : SortId → SortId) (L : Layout) (symbols : Symbols) (cs : Contexts) (Γ : SortEnv)
    (ps : List SortId) (v : ObjValue) (a : Option SortId) : Prop :=
  ∀ sort, Covers a (some sort) → v.Sorted k L symbols cs Γ ps sort

/-- What the session has made is sorted, and so are the branches that lead to its place. -/
structure Session.Sorted (k : SortId → SortId) (L : Layout) (s : Session) : Prop where
  declared : L.Declared k s.symbols
  contexts : s.contexts.Sorted k s.symbols
  context : s.context.index < s.contexts.table.length
  guards : ∀ g ∈ s.guards, s.symbols.Takes k g.indicator s.paramSorts g.depth []
  axioms : ∀ f ∈ s.axioms, f.WellFormed k s.symbols .empty
  creations : ∀ c ∈ s.creations, s.symbols.Declares k c.pred (c.params ++ [c.sort])

namespace Session

variable {s : Session}

/-- Quiet steps stay in the context. -/
theorem Quiet.paramSorts (hq : s.Quiet t) : t.paramSorts = s.paramSorts := by
  unfold Session.paramSorts
  rw [hq.table, hq.context]

theorem Quiet.level (hq : s.Quiet t) : t.level = s.level := by
  unfold Session.level
  rw [hq.table, hq.context]

/-- The session's snapshot is sorted at its place. -/
def Standing (k : SortId → SortId) (L : Layout) (s : Session) : Prop := s.snapshot.Sorted k L s.symbols s.paramSorts

theorem Standing.later (h : s.Standing k L) (hq : s.Quiet t) : t.Standing k L := by
  unfold Standing
  rw [hq.snapshot, hq.paramSorts]
  exact .later h hq.symbols (prefix_refl _)

theorem Standing.slot (h : s.Standing k L) (hsort : sort.index < Layout.sortCount L.store) :
    (s.snapshot.slot sort).Sorted k s.symbols s.paramSorts sort := Snapshot.Sorted.slot h sort hsort

variable (h : s.Sorted k L)

include h

theorem Sorted.level_eq : s.level = s.paramSorts.length := h.contexts.level_eq s.context

/-- Of a quiet step only the new axioms have to be looked at. -/
theorem Sorted.of_quiet (hq : s.Quiet t)
    (haxioms : ∀ f ∈ t.axioms, f ∈ s.axioms ∨ f.WellFormed k t.symbols .empty) : t.Sorted k L where
  declared := h.declared.mono hq.symbols
  contexts := by rw [hq.table]; exact h.contexts.mono hq.symbols
  context := by rw [hq.table, hq.context]; exact h.context
  guards := by rw [hq.guards, hq.paramSorts]; exact fun g hg => (h.guards g hg).mono hq.symbols
  axioms f hf := (haxioms f hf).elim (fun hold => .mono hq.symbols (h.axioms f hold)) id
  creations := by rw [hq.made]; exact fun c hc => (h.creations c hc).mono hq.symbols

theorem Sorted.of_same_axioms (hq : s.Quiet t) (haxioms : t.axioms = s.axioms) : t.Sorted k L :=
  h.of_quiet hq fun _ hf => .inl (haxioms ▸ hf)

/-- A sorted session takes well-formed axioms. -/
theorem Sorted.emit {f : Formula} (hf : f.WellFormed k s.symbols .empty)
    (hrun : emit f s = .ok ((), t)) : t.Sorted k L := by
  refine h.of_quiet ((quiet_emit f).of_ok hrun) fun g hg => ?_
  cases emit_ok.1 hrun
  split at hg
  · exact .inl hg
  · rename_i hnot
    rcases mem_append.1 hg with hg | hg
    · exact .inl hg
    · right
      rw [if_neg hnot, mem_singleton.1 hg]
      exact hf

theorem Sorted.emits {fs : List Formula} (hfs : ∀ f ∈ fs, f.WellFormed k s.symbols .empty)
    (hrun : fs.forM Encode.emit s = .ok ((), t)) : t.Sorted k L := by
  refine (forM_keeps (P := fun u => s.Quiet u ∧ u.Sorted k L) (fun f hf u v hu h1 => ?_) ⟨.refl s, h⟩ hrun).2
  exact ⟨hu.1.trans ((Encode.quiet_emit f).of_ok h1), hu.2.emit (WellFormed.mono hu.1.symbols (hfs f hf)) h1⟩

theorem Sorted.fresh {α : Type} {f : Fresh α} (hf : f.Takes) {a : α}
    (hrun : fresh f s = .ok (a, t)) : t.Sorted k L := by
  refine h.of_same_axioms ((quiet_fresh hf).of_ok hrun) ?_
  cases modifyGet_ok.1 hrun
  rfl

theorem Sorted.afterParams : (afterParams s).Sorted k L :=
  h.of_same_axioms (quiet_afterParams s) rfl

/-- A new predicate is declared over the parameters of the context. -/
theorem Sorted.freshPred (hrun : freshPred hint extra s = .ok (p, t)) :
    t.Sorted k L ∧ t.symbols.Takes k p t.paramSorts t.level extra := by
  have hq := (quiet_freshPred hint extra).of_ok hrun
  have ht : t.Sorted k L := by
    refine h.of_same_axioms hq ?_
    cases freshPred_ok.1 hrun
    rfl
  refine ⟨ht, .of_declares ?_ ht.level_eq⟩
  cases freshPred_ok.1 hrun
  exact s.symbols.declares_addPredicate hint _

theorem Sorted.freshSlot (hrun : freshSlot sort s = .ok (slot, t)) :
    t.Sorted k L ∧ slot.Sorted k t.symbols t.paramSorts sort := by
  obtain ⟨hint, hp, hdepth⟩ := freshSlot_ok hrun
  obtain ⟨ht, htakes⟩ := h.freshPred hp
  refine ⟨ht, ?_⟩
  rw [((quiet_freshPred hint [sort]).of_ok hp).level, ← hdepth] at htakes
  exact htakes

end Session

/-! ## What is there at the place of a session -/

variable {s t : Session} {sort : SortId} {L : Layout}

/-- Terms stay of their sorts while the session grows. -/
theorem Term.OfSorts.later (h : OfSorts k s.symbols.functions Γ s.vars.count ts sorts) (hq : s.Quiet t) :
    OfSorts k t.symbols.functions Γ t.vars.count ts sorts := by
  rw [hq.symbols.functions]
  exact h.mono hq.vars

/-- A slot stays declared. -/
theorem Slot.Sorted.later {slot : Slot} (h : slot.Sorted k s.symbols s.paramSorts sort)
    (hq : s.Quiet t) : slot.Sorted k t.symbols t.paramSorts sort := by
  rw [hq.paramSorts]
  exact h.mono hq.symbols

/-- The terms have the sorts, over variables that the session has made. -/
abbrev Session.HasTerms (k : SortId → SortId) (s : Session) (Γ : SortEnv) (ts : List Term) (sorts : List SortId) : Prop :=
  OfSorts k s.symbols.functions Γ s.vars.count ts sorts

/-- At the session's place the slot is of the sort. -/
abbrev Session.HasSlot (k : SortId → SortId) (s : Session) (slot : Slot) (sort : SortId) : Prop :=
  slot.Sorted k s.symbols s.paramSorts sort

/-- The predicate takes the parameters of the session's context and further arguments. -/
def Session.HasPred (k : SortId → SortId) (s : Session) (p : PredId) (extra : List SortId) : Prop :=
  s.symbols.Takes k p s.paramSorts s.level extra

/-- A predicate stays declared. -/
theorem Session.HasPred.later (h : s.HasPred k p extra) (hq : s.Quiet t) : t.HasPred k p extra := by
  unfold HasPred
  rw [hq.paramSorts, hq.level]
  exact .mono h hq.symbols

/-- At the session's place the value is of the sort. It has no variables. -/
structure Session.HasValue (k : SortId → SortId) (L : Layout) (s : Session) (v : ObjValue) (sort : SortId) : Prop where
  sorted : v.Sorted k L s.symbols s.contexts .empty s.paramSorts sort
  settled : v.Settled 0

/-- A value keeps its sort. -/
theorem Session.HasValue.later (h : s.HasValue k L v sort) (hq : s.Quiet t) : t.HasValue k L v sort := by
  refine ⟨?_, h.settled⟩
  rw [hq.paramSorts]
  exact h.sorted.later hq.symbols hq.contexts (.refl 0 _) h.settled (prefix_refl _)

/-! ## Building formulas -/

/-- Membership of an element of a sort in a value of the sort, at a position of the right sorts, if the variables that are taken
on the way are still free. -/
theorem Session.Sorted.member (h : s.Sorted k L) (hv : v.Sorted k L s.symbols s.contexts Γ qs sort)
    (hsettled : v.Settled s.vars.count) (hposition : s.HasTerms k Γ position qs) (ho : s.HasTerms k Γ [o] [sort])
    (hfree : Γ.Avoids s.vars.count t.vars.count) (hrun : member L v position o s = .ok (F, t)) :
    s.Quiet t ∧ t.Sorted k L ∧ F.WellFormed k t.symbols Γ := by
  have hq := (quiet_member L v position o).of_ok hrun
  obtain ⟨G, g, hg, heq⟩ := freshly_ok.1 hrun
  cases heq
  refine ⟨hq, h.of_same_axioms hq rfl, ?_⟩
  exact ObjValue.wellFormed_member h.declared h.contexts v hv hsettled hposition ho hfree hg

/-- A formula is built here, over variables for the parameters of the context. -/
structure Session.Building (k : SortId → SortId) (L : Layout) (s : Session) (Γ : SortEnv) (params : List Term) : Prop where
  sorted : s.Sorted k L
  params : Term.OfSorts k s.symbols.functions Γ s.vars.count params s.paramSorts
  /-- Only variables that have been taken are bound. -/
  taken : Valuation.Agree 0 SortEnv.empty Γ
  free : ∀ n, Γ.Avoids s.vars.count n

namespace Session.Building

variable {L : Layout} {s t : Session} {Γ : SortEnv} {params : List Term}

variable (h : s.Building k L Γ params)

include h

theorem later (hq : s.Quiet t) (ht : t.Sorted k L) : t.Building k L Γ params := by
  refine ⟨ht, ?_, h.taken, fun n => (h.free n).within hq.vars (Nat.le_refl _)⟩
  rw [hq.paramSorts]
  exact h.params.later hq

variable {sort : SortId} {o : Term}

/-- A variable that is taken has its sort where it is bound. -/
theorem binder {b : Binder} (hrun : binder sort s = .ok ((b, o), t)) :
    s.Quiet t ∧ t.Building k L (Γ.bind [b]) params ∧ t.HasTerms k (Γ.bind [b]) [o] [sort] ∧
      Valuation.Agree s.vars.count Γ (Γ.bind [b]) ∧ Γ.Admits [b] := by
  have hq := (quiet.binder sort).of_ok hrun
  have ht : t.Sorted k L := h.sorted.fresh (Fresh.takes_binder sort) hrun
  cases binder_ok.1 hrun
  have hagree := agree_bind_nameOf (Nat.lt_succ_self s.vars.count) sort Γ
  have htaken := h.taken.trans (hagree.anti (Nat.zero_le _))
  have hfree : ∀ n, (Γ.bind [⟨nameOf (s.vars.count + 1), sort⟩]).Avoids (s.vars.count + 1) n :=
    fun n => ((h.free n).within (Nat.le_succ _) (Nat.le_refl _)).bind (Nat.le_refl _) sort
  exact ⟨hq, ⟨ht, h.params.agree hagree (Nat.le_succ _), htaken, hfree⟩, ofSorts_nameOf sort Γ, hagree,
    (h.free _).admits (Nat.lt_succ_self _) (Nat.le_refl _) sort⟩

/-- Variables that are taken together have their sorts where they are bound. -/
theorem binders {bs : List Binder} (hrun : fresh (binders sorts) s = .ok ((bs, ts), t)) :
    s.Quiet t ∧ t.Building k L (Γ.bind bs) params ∧ t.HasTerms k (Γ.bind bs) ts sorts ∧
      Valuation.Agree s.vars.count Γ (Γ.bind bs) ∧ Γ.Admits bs := by
  have hq := (quiet_fresh (Fresh.takes_binders sorts)).of_ok hrun
  have ht : t.Sorted k L := h.sorted.fresh (Fresh.takes_binders sorts) hrun
  obtain ⟨hbinders, rfl⟩ := Prod.mk.inj (modifyGet_ok.1 hrun)
  obtain ⟨rfl, rfl⟩ := Prod.mk.inj hbinders
  have hagree := agree_bind_binders sorts s.vars Γ
  have htaken := h.taken.trans (hagree.anti (Nat.zero_le _))
  exact ⟨hq, ⟨ht, h.params.agree hagree (Fresh.takes_binders sorts s.vars), htaken,
    fun n => avoids_bind_binders sorts s.vars (h.free n)⟩, ofSorts_binders sorts s.vars Γ, hagree,
    admits_binders sorts s.vars (h.free _) (Nat.le_refl _)⟩

/-- Membership of an element of a sort in a value of the sort, at any position of the right sorts. -/
theorem memberAt (hv : v.Sorted k L s.symbols s.contexts Γ qs sort) (hsettled : v.Settled s.vars.count)
    (hposition : s.HasTerms k Γ position qs) (ho : s.HasTerms k Γ [o] [sort]) (hrun : member L v position o s = .ok (F, t)) :
    s.Quiet t ∧ t.Building k L Γ params ∧ F.WellFormed k t.symbols Γ := by
  obtain ⟨hq, ht, hF⟩ := h.sorted.member hv hsettled hposition ho (h.free _) hrun
  exact ⟨hq, h.later hq ht, hF⟩

/-- Membership in a value that is there at the place of the session. -/
theorem member (hv : s.HasValue k L v sort)
    (ho : s.HasTerms k Γ [o] [sort]) (hrun : member L v params o s = .ok (F, t)) :
    s.Quiet t ∧ t.Building k L Γ params ∧ F.WellFormed k t.symbols Γ :=
  h.memberAt (hv.sorted.agree h.taken hv.settled) (hv.settled.mono (Nat.zero_le _)) h.params ho hrun

theorem wellFormed_membership :
    (s.contexts.membership s.context params).WellFormed k s.symbols Γ :=
  h.sorted.contexts.wellFormed_membership s.context (prefix_refl _) h.params

theorem wellFormed_guarded : (guarded s.guards params).WellFormed k s.symbols Γ := by
  refine wellFormed_mkAnd fun F hF => ?_
  obtain ⟨g, hg, rfl⟩ := mem_map.1 hF
  have hatom := (h.sorted.guards g hg).wellFormed h.params .nil
  rwa [append_nil] at hatom

theorem wellFormed_slot {slot : Slot}
    (hslot : s.HasSlot k slot sort) (ho : s.HasTerms k Γ [o] [sort]) :
    (slot.holds params o).WellFormed k s.symbols Γ := hslot.wellFormed h.params ho

/-- A predicate over all parameters of the context. -/
theorem wellFormed_atom (hp : s.HasPred k p extra)
    (hargs : s.HasTerms k Γ args extra) :
    (atom p (params ++ args)).WellFormed k s.symbols Γ := by
  have hatom := Symbols.Takes.wellFormed hp h.params hargs
  have hlength : params.length = s.level := by rw [h.params.length_eq, h.sorted.level_eq]
  rwa [take_of_length_le (Nat.le_of_eq hlength)] at hatom

end Session.Building

theorem Session.Sorted.building (h : s.Sorted k L) :
    (Encode.afterParams s).Building k L (SortEnv.empty.bind (Encode.paramVars s).1) (Encode.paramVars s).2 :=
  ⟨h.afterParams, VarGen.ofSorts_binders s.paramSorts s.vars .empty,
    (VarGen.agree_bind_binders s.paramSorts s.vars .empty).anti (Nat.zero_le _),
    fun n => SortEnv.avoids_bind_binders s.paramSorts s.vars (SortEnv.avoids_empty _ n)⟩

/-- Outside all loops there are no parameters. -/
theorem Session.Sorted.closed (h : s.Sorted k L) (hroot : s.paramSorts = []) : s.Building k L .empty [] :=
  ⟨h, by rw [hroot]; exact .nil, .refl 0 _, avoids_empty _⟩

theorem Encode.admits_paramVars (s : Session) : empty.Admits (paramVars s).1 :=
  admits_binders s.paramSorts s.vars (avoids_empty _ _) (Nat.le_refl _)

/-- After `s` the formula is well-formed wherever it is built over the parameters of the context. -/
def Encode.WellBuilt (k : SortId → SortId) (L : Layout) (s : Session) (build : List Term → Encode Formula) : Prop :=
  ∀ s1 t Γ params F, s.Quiet s1 → s1.Building k L Γ params → build params s1 = .ok (F, t) →
    t.Sorted k L ∧ F.WellFormed k t.symbols Γ

/-- An axiom over the parameters of the context is well formed if its formula is. -/
theorem Session.Sorted.axiomOver (h : s.Sorted k L) (hquiet : ∀ ps, Keeps Session.Quiet (build ps))
    (hbuild : Encode.WellBuilt k L s build) (hrun : axiomOver build s = .ok ((), t)) : t.Sorted k L := by
  obtain ⟨body, s1, h1, h2⟩ := axiomOver_ok hquiet hrun
  have hq := (hquiet _).of_ok h1
  obtain ⟨hs1, hbody⟩ := hbuild _ _ _ _ _ (quiet_afterParams s) h.building h1
  have hpremise : (mkAnd [s.contexts.membership s.context (paramVars s).2,
      guarded s.guards (paramVars s).2]).WellFormed k s1.symbols
      (empty.bind (paramVars s).1) := by
    refine .mono hq.symbols (wellFormed_mkAnd ?_)
    exact forall_mem_pair h.building.wellFormed_membership h.building.wellFormed_guarded
  exact hs1.emit (wellFormed_mkForAll (admits_paramVars s) (wellFormed_mkImplies hpremise hbody)) h2

end StoreCheck
