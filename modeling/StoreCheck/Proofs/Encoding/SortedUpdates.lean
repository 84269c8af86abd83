import StoreCheck.Proofs.Encoding.SortedFormulas
import StoreCheck.Proofs.Encoding.Walk

/-!
# Updates add well-formed axioms

Where a session and its scope are sorted (`Session.Placed`), an assignment, a creation, a deletion or an update of tuples leaves
them sorted. The axioms of each update are taken one by one: each builds a well-formed formula.
-/

namespace StoreCheck

open List Formula Layout

variable {L : Layout} {t s1 : Session} {a : Option SortId} {e : ObjExpr} {v : ObjValue} {sort : SortId}
  {build : List Term → Encode Formula} {p : PredId} {snapshot : Snapshot} {r : Relation}

variable {k : SortId → SortId}

/-- The session is sorted, and so are its snapshot and the values in scope. -/
structure Session.Placed (k : SortId → SortId) (L : Layout) (s : Session) : Prop where
  sorted : s.Sorted k L
  snapshot : s.Standing k L
  scope : s.scope.Sorted k L s.symbols s.contexts .empty 0 s.paramSorts

namespace Session

variable {s : Session}

/-- Quiet steps keep the session placed. -/
theorem Placed.of_quiet (h : s.Placed k L) (hq : s.Quiet t) (ht : t.Sorted k L) : t.Placed k L := by
  refine ⟨ht, h.snapshot.later hq, ?_⟩
  rw [hq.scope]
  exact h.scope.quiet hq

theorem Sorted.bind (h : s.Sorted k L) (name : String) (b : Binding) : (s.bind name b).Sorted k L :=
  ⟨h.declared, h.contexts, h.context, h.guards, h.axioms, h.creations⟩

theorem Placed.bind (h : s.Placed k L) {b : Binding} (hb : b.Sorted k L s.symbols s.contexts .empty 0 s.paramSorts a) :
    (s.bind name b).Placed k L :=
  ⟨h.sorted.bind name b, h.snapshot, h.scope.insert hb⟩

theorem Sorted.atSnapshot (h : s.Sorted k L) (σ : Snapshot) : (s.atSnapshot σ).Sorted k L :=
  ⟨h.declared, h.contexts, h.context, h.guards, h.axioms, h.creations⟩

theorem Placed.atSnapshot (h : s.Placed k L) {σ : Snapshot} (hσ : σ.Sorted k L s.symbols s.paramSorts) :
    (s.atSnapshot σ).Placed k L := ⟨h.sorted.atSnapshot σ, hσ, h.scope⟩

end Session

namespace Encode

section Steps

variable {L : Layout} {s : Session}

theorem placed_objSet (hlaid : L.Laid symbols) (h : s.Placed k L)
    (hrun : objSet L false s.scope e s = .ok ((v, type), t)) :
    ∃ a, L.sortOf type = .ok a ∧ GivesValue k L .empty 0 s t v a ∧ t.Placed k L := by
  obtain ⟨a, ha, hv⟩ := sorted_objSet hlaid (fun _ => ⟨rfl, rfl⟩) h.sorted h.snapshot h.scope hrun
  exact ⟨a, ha, hv, h.of_quiet hv.quiet hv.sorted⟩

theorem GivesValue.hasValue (h : GivesValue k L .empty 0 s t v a) (ha : Covers a (some sort)) :
    t.HasValue k L v sort := ⟨(h.fits.mono ha).sorted, h.settled⟩

/-- A new slot and the axiom about it. -/
theorem sorted_slotAxiom (h : s.Sorted k L) (hslot : freshSlot sort s = .ok (slot, s1))
    (hquiet : ∀ ps, Keeps Session.Quiet (build ps))
    (hbuild : s1.HasSlot k slot sort → WellBuilt k L s1 build) (hrun : axiomOver build s1 = .ok ((), t)) :
    s.Quiet t ∧ t.Sorted k L ∧ t.HasSlot k slot sort := by
  obtain ⟨hs1, hslot1⟩ := h.freshSlot hslot
  have hq1 := quiet.freshSlot.of_ok hslot
  have hq2 := (quiet.axiomOver hquiet).of_ok hrun
  exact ⟨hq1.trans hq2, hs1.axiomOver hquiet (hbuild hslot1) hrun, hslot1.later hq2⟩

/-- A new predicate and the axiom about it. -/
theorem sorted_predAxiom (h : s.Sorted k L) (hpred : freshPred hint extra s = .ok (p, s1))
    (hquiet : ∀ ps, Keeps Session.Quiet (build ps)) (hbuild : s1.HasPred k p extra → WellBuilt k L s1 build)
    (hrun : axiomOver build s1 = .ok ((), t)) : s.Quiet t ∧ t.Sorted k L ∧ t.HasPred k p extra := by
  obtain ⟨hs1, hp⟩ := h.freshPred hpred
  have hq1 := (quiet_freshPred hint extra).of_ok hpred
  have hq2 := (quiet.axiomOver hquiet).of_ok hrun
  exact ⟨hq1.trans hq2, hs1.axiomOver hquiet (hbuild hp) hrun, Session.HasPred.later hp hq2⟩

/-- After `base` the step makes a slot and says what it holds. -/
def SlotStep (k : SortId → SortId) (L : Layout) (base : Session) (step : Encode (SortId × Slot)) : Prop :=
  ∀ s t c, base.Quiet s → s.Sorted k L → step s = .ok (c, t) → s.Quiet t ∧ t.Sorted k L ∧ c.2.Sorted k t.symbols t.paramSorts c.1

theorem sorted_mapM_slots {α : Type} {step : α → Encode (SortId × Slot)} {as : List α} {cs : List (SortId × Slot)}
    (hsteps : ∀ a ∈ as, SlotStep k L base (step a)) (hq : base.Quiet s) (hs : s.Sorted k L) (hrun : as.mapM step s = .ok (cs, t)) :
    s.Quiet t ∧ t.Sorted k L ∧ ∀ c ∈ cs, t.HasSlot k c.2 c.1 := by
  have hall := mapM_keeps (P := fun u => s.Quiet u ∧ u.Sorted k L) (Q := fun c u => u.HasSlot k c.2 c.1)
    (fun a ha u c v hu h1 => ?_) ⟨.refl s, hs⟩ hrun
  · exact ⟨hall.1.1, hall.1.2, hall.2.1⟩
  · obtain ⟨hq1, hs1, hc⟩ := hsteps a ha u v c (hq.trans hu.1) hu.2 h1
    exact ⟨⟨hu.1.trans hq1, hs1⟩, hc, fun _ hd => hd.later hq1⟩

end Steps

/-! ## Assignments -/

section Updates

variable {L : Layout} {symbols : Symbols} {s t : Session}

variable {Γ : SortEnv} {sort : SortId} {type : ObjType} {before after : Slot} {c : ClassId} {params : List Term}
variable {o : Term} {value : ObjValue} {id : RelationId} {ts : TupleSort} {update : TupleUpdate}

theorem sorted_empty (a : Option SortId) :
    ObjValue.empty.Fits k L symbols cs Γ ps a := fun _ _ => by rw [ObjValue.Sorted]; trivial

/-- What a variable is bound to when its value has been named by a predicate. -/
theorem binding_of_pred (hp : s.HasPred k p [sort]) (htype : L.sortOf type = .ok (some sort)) (hknown : L.Knows (some sort))
    (hd : d = s.level) :
    Binding.Sorted k L s.symbols s.contexts .empty 0 s.paramSorts ⟨.pred p d, type, isLocal⟩ (some sort) := by
  refine ⟨htype, hknown, .of_sorted ?_, by simp [ObjValue.Settled]⟩
  rw [ObjValue.Sorted, hd]
  exact hp

theorem placed_assign (hlaid : L.Laid symbols) (h : s.Placed k L)
    (hrun : assign L var e s = .ok ((), t)) : t.Placed k L := by
  obtain ⟨value, type, s1, v, s2, h1, -, rfl, hcases⟩ := assign_ok hrun
  obtain ⟨a, ha, hv, hs1⟩ := placed_objSet hlaid h h1
  rcases hcases with ⟨rfl, rfl⟩ | ⟨sort, hsort, h2⟩ | ⟨rfl, rfl, hnone, -⟩
  · exact hs1.bind ⟨ha, hv.known, hv.fits, hv.settled⟩
  · rw [ha] at hsort
    cases hsort
    obtain ⟨p, s3, hp, h3, rfl⟩ := define_ok h2
    have hvalue := hv.hasValue (.refl _)
    have hq3 := (quiet_freshPred ("assign_" ++ var) [sort]).of_ok hp
    obtain ⟨hq, hs2, hpred⟩ := sorted_predAxiom hv.sorted hp (quiet.sameMembers (quiet_member L _))
      (fun hp => wellBuilt_sameMembers hp (hvalue.later hq3)) h3
    exact (hs1.of_quiet hq hs2).bind (binding_of_pred hpred ha hv.known (hq3.level.trans hq.level.symm))
  · rw [ha] at hnone
    cases hnone
    exact hs1.bind ⟨ha, hv.known, sorted_empty _, by simp [ObjValue.Settled]⟩

/-! ## Creations -/

theorem wellBuilt_someCreated (hp : s.HasPred k p [sort]) : WellBuilt k L s (someCreated sort p) := by
  intro s1 t Γ params F hq hb hrun
  obtain ⟨b, o, h1, rfl⟩ := someCreated_ok hrun
  obtain ⟨hq1, hb1, ho, -, hadm⟩ := hb.binder h1
  exact ⟨hb1.sorted, wellFormed_mkForSome hadm (hb1.wellFormed_atom ((hp.later hq).later hq1) ho)⟩

theorem wellBuilt_createdSlot
    (hbefore : s.HasSlot k before sort) (hafter : s.HasSlot k after sort)
    (hp : s.HasPred k p [sort]) : WellBuilt k L s (createdSlot sort before after p) := by
  intro s1 t Γ params F hq hb hrun
  obtain ⟨b, o, h1, rfl⟩ := createdSlot_ok hrun
  obtain ⟨hq1, hb1, ho, -, hadm⟩ := hb.binder h1
  have hq' := hq.trans hq1
  have hold := hb1.wellFormed_slot (hbefore.later hq') ho
  have hnew := hb1.wellFormed_slot (hafter.later hq') ho
  have hmade := hb1.wellFormed_atom (hp.later hq') ho
  exact ⟨hb1.sorted, wellFormed_mkForAll hadm (wellFormed_mkIff hnew (wellFormed_mkOr (forall_mem_pair hold hmade)))⟩

theorem mem_foreignClasses (h : d ∈ foreignClasses L c) : d.index < L.graph.size ∧ L.classSort d = L.classSort c := by
  obtain ⟨hd, hcomponent⟩ := mem_filter.1 (mem_filter.1 h).1
  refine ⟨ClassGraph.mem_idsUpTo.1 hd, ?_⟩
  rw [classSort, classSort, eq_of_beq hcomponent]

/-- What is said of a created object is well-formed. -/
theorem wellFormed_creationFacts (hlaid : L.Laid symbols)
    (hc : c.index < L.graph.size) (hb : s.Building k L Γ params)
    (ho : s.HasTerms k Γ [o] [L.classSort c]) :
    ∀ F ∈ creationFacts L c s params o, F.WellFormed k s.symbols Γ := by
  intro F hF
  have hdeclared := hb.sorted.declared
  rcases mem_append.1 hF with hF | hF
  · simp only [mem_cons, not_mem_nil, or_false] at hF
    rcases hF with rfl | rfl | rfl | rfl
    · exact hb.wellFormed_membership
    · exact hb.wellFormed_guarded
    · exact wellFormed_mkNot ((hdeclared.initial _ (hlaid.classSort_lt hc)).wellFormed .nil ho)
    · exact hdeclared.wellFormed_isClass hc ho
  · obtain ⟨d, hd, rfl⟩ := mem_map.1 hF
    obtain ⟨hsize, hsort⟩ := mem_foreignClasses hd
    exact wellFormed_mkNot (hdeclared.wellFormed_isClass hsize (hsort ▸ ho))

/-- The axioms of a creation are well formed. -/
theorem sorted_creationAxioms (hlaid : L.Laid symbols)
    (hc : c.index < L.graph.size) (h : s.Sorted k L) (hp : s.HasPred k p [L.classSort c])
    (hrun : creationAxioms L c (L.classSort c) p s = .ok ((), t)) : t.Sorted k L := by
  obtain ⟨s1, b, o, s2, s3, b1, o1, s4, b2, o2, s5, h1, h2, h3, h4, h5, h6⟩ := creationAxioms_ok hrun
  have hs1 := h.axiomOver quiet.someCreated (wellBuilt_someCreated hp) h1
  have hp1 := (hp.later ((quiet.axiomOver quiet.someCreated).of_ok h1)).later (quiet_afterParams s1)
  -- the object belongs to its class alone
  obtain ⟨hq2, hb2, ho, -, hadm⟩ := hs1.building.binder h2
  have hfacts : ∀ F ∈ creationFacts L c s1 (paramVars s1).2 o,
      F.WellFormed k s2.symbols ((SortEnv.empty.bind (paramVars s1).1).bind [b]) := by
    have hsame : creationFacts L c s1 (paramVars s1).2 o = creationFacts L c s2 (paramVars s1).2 o := by
      cases binder_ok.1 h2
      rfl
    rw [hsame]
    exact wellFormed_creationFacts hlaid hc hb2 ho
  have hs3 : s3.Sorted k L := by
    refine hb2.sorted.emit (wellFormed_mkForAll ((admits_paramVars s1).append hadm) ?_) h3
    rw [SortEnv.bind_append]
    exact wellFormed_mkImplies (hb2.wellFormed_atom (hp1.later hq2) ho) (wellFormed_mkAnd hfacts)
  -- there is no second one
  have hq3 := hq2.trans ((quiet_emit _).of_ok h3)
  obtain ⟨hq4, hb4, ho1, -, hadm1⟩ := (hs1.building.later hq3 hs3).binder h4
  obtain ⟨hq5, hb5, ho2, hagree, hadm2⟩ := hb4.binder h5
  have hp5 := ((hp1.later hq3).later hq4).later hq5
  have ho1' := (ho1.agree hagree (Nat.le_refl _)).later hq5
  have hboth := wellFormed_mkAnd (forall_mem_pair (hb5.wellFormed_atom hp5 ho1') (hb5.wellFormed_atom hp5 ho2))
  refine hb5.sorted.emit (wellFormed_mkForAll (b := (paramVars s1).1 ++ [b1, b2])
    ((admits_paramVars s1).append (hadm1.append hadm2)) ?_) h6
  rw [SortEnv.bind_append]
  exact wellFormed_mkImplies hboth (wellFormed_mkEq ho1'.hasSort ho2.hasSort)

theorem sorted_created (h : s.Sorted k L) (hp : s.HasPred k p [sort]) : (created sort after p s).Sorted k L := by
  refine ⟨h.declared, h.contexts, h.context, h.guards, h.axioms, fun c hc => ?_⟩
  rcases mem_append.1 hc with hc | hc
  · exact h.creations c hc
  · rw [mem_singleton.1 hc]
    have hdeclared := hp.declared
    rwa [h.level_eq, take_length] at hdeclared

theorem placed_create (hlaid : L.Laid symbols) (h : s.Placed k L)
    (hrun : create L className var s = .ok ((), t)) : t.Placed k L := by
  obtain ⟨c, p, s1, s2, after, s3, s4, hc, h1, h2, h3, h4, hquiet, rfl⟩ := create_ok hrun
  have hlt : c.index < L.graph.size := ClassGraph.resolveIn_lt hc
  have hsize := hlaid.classSort_lt hlt
  obtain ⟨hs1, hp⟩ := h.sorted.freshPred h1
  have hq1 := (quiet_freshPred ("created_" ++ className) [L.classSort c]).of_ok h1
  have hq2 := quiet.creationAxioms.of_ok h2
  have hs2 := sorted_creationAxioms hlaid hlt hs1 hp h2
  have hp2 : s2.HasPred k p [L.classSort c] := Session.HasPred.later hp hq2
  have hq3 := quiet.freshSlot.of_ok h3
  have hbefore := ((h.snapshot.later (hq1.trans hq2)).slot hsize).later hq3
  obtain ⟨hq, hs4, hafter⟩ := sorted_slotAxiom hs2 h3 quiet.createdSlot
    (fun hafter => wellBuilt_createdSlot hbefore hafter (hp2.later hq3)) h4
  have hp4 := hp2.later hq
  have hplaced := h.of_quiet hquiet hs4
  have hcreated : (created (L.classSort c) after p s4).Placed k L :=
    ⟨sorted_created hs4 hp4, Snapshot.Sorted.link hplaced.snapshot hafter, hplaced.scope⟩
  cases var with
  | none => exact hcreated
  | some name =>
    refine hcreated.bind (binding_of_pred hp4 ((Layout.sortOf_single _).trans (Layout.sortOf_class c rfl))
      (hlaid.knows_class hlt) ?_)
    exact (hq2.level.symm.trans hq.level.symm)

/-! ## Deletions -/

theorem wellBuilt_deletedSlot
    (hbefore : s.HasSlot k before sort) (hafter : s.HasSlot k after sort)
    (hv : s.HasValue k L value sort) : WellBuilt k L s (deletedSlot L sort value before after) := by
  intro s1 t Γ params F hq hb hrun
  obtain ⟨b, o, s2, gone, h1, h2, rfl⟩ := deletedSlot_ok hrun
  obtain ⟨hq1, hb1, ho, -, hadm⟩ := hb.binder h1
  obtain ⟨hq2, hb2, hgone⟩ := hb1.member ((hv.later hq).later hq1) ho h2
  have hq' := hq.trans (hq1.trans hq2)
  have hold := hb2.wellFormed_slot (hbefore.later hq') (ho.later hq2)
  have hnew := hb2.wellFormed_slot (hafter.later hq') (ho.later hq2)
  have hkept := wellFormed_mkAnd (forall_mem_pair hold (wellFormed_mkNot hgone))
  exact ⟨hb2.sorted, wellFormed_mkForAll hadm (wellFormed_mkIff hnew hkept)⟩

/-- The end of a tuple is looked at only where it is of the sort of the value. -/
theorem wellFormed_endKept (hb : s.Building k L Γ params) (hv : s.HasValue k L value sort)
    (ho : s.HasTerms k Γ [o] [endSort])
    (hrun : endKept L value params (endSort = sort) o s = .ok (Fs, t)) :
    s.Quiet t ∧ t.Building k L Γ params ∧ ∀ F ∈ Fs, F.WellFormed k t.symbols Γ := by
  obtain ⟨hsort, gone, h1, rfl⟩ | ⟨-, rfl, rfl⟩ := endKept_ok hrun
  · rw [of_decide_eq_true hsort] at ho
    obtain ⟨hq, hb1, hgone⟩ := hb.member hv ho h1
    refine ⟨hq, hb1, fun F hF => ?_⟩
    rw [mem_singleton.1 hF]
    exact wellFormed_mkNot hgone
  · exact ⟨.refl _, hb, by simp⟩

theorem wellBuilt_prunedSlot
    (hts : List.lookup id L.tupleSorts = some ts) (hbefore : s.HasSlot k before ts.sort)
    (hafter : s.HasSlot k after ts.sort) (hv : s.HasValue k L value sort) :
    WellBuilt k L s (prunedSlot L sort value ts before after) := by
  intro s1 t Γ params F hq hb hrun
  obtain ⟨b, o, s2, left, s3, right, h1, h2, h3, rfl⟩ := prunedSlot_ok hrun
  obtain ⟨hq1, hb1, ho, -, hadm⟩ := hb.binder h1
  obtain ⟨hleft, hright⟩ := hb1.sorted.declared.ofSorts_ends hts ho
  have hv1 := (hv.later hq).later hq1
  obtain ⟨hq2, hb2, hl⟩ := wellFormed_endKept hb1 hv1 hleft h2
  obtain ⟨hq3, hb3, hr⟩ := wellFormed_endKept hb2 (hv1.later hq2) (hright.later hq2) h3
  have hq' := hq.trans (hq1.trans (hq2.trans hq3))
  have hot := (ho.later hq2).later hq3
  refine ⟨hb3.sorted, wellFormed_mkForAll hadm (wellFormed_mkIff (hb3.wellFormed_slot (hafter.later hq') hot)
    (wellFormed_mkAnd fun F hF => ?_))⟩
  rcases mem_append.1 hF with hF | hF
  · rcases mem_cons.1 hF with rfl | hF
    · exact hb3.wellFormed_slot (hbefore.later hq') hot
    · exact WellFormed.mono hq3.symbols (hl F hF)
  · exact hr F hF

theorem slotStep_pruneTuples (hlaid : L.Laid symbols) (hsnapshot : s.Standing k L)
    (hv : s.HasValue k L value sort) (r : Relation) : SlotStep k L s (pruneTuples L sort value r) := by
  intro s1 t c hq hs1 hrun
  obtain ⟨ts, after, s2, hts, h1, h2, rfl⟩ := pruneTuples_ok hrun
  have hlookup := lookup_of_tupleSort hts
  have hq1 := quiet.freshSlot.of_ok h1
  have hbefore := ((hsnapshot.later hq).slot (hlaid.tupleSort_lt hlookup)).later hq1
  exact sorted_slotAxiom hs1 h1 (quiet.prunedSlot (quiet_member L _))
    (fun hafter => wellBuilt_prunedSlot hlookup hbefore hafter ((hv.later hq).later hq1)) h2

theorem placed_delete (hlaid : L.Laid symbols) (h : s.Placed k L) (hrun : delete L e s = .ok ((), t)) : t.Placed k L := by
  obtain ⟨value, type, s1, h1, -, hcases⟩ := delete_ok hrun
  obtain ⟨a, ha, hv, hs1⟩ := placed_objSet hlaid h h1
  obtain ⟨-, rfl⟩ | ⟨sort, after, s2, s3, pruned, s4, hsort, h2, h3, h4, -, rfl⟩ := hcases
  · exact hs1
  · rw [ha] at hsort
    cases hsort
    have hvalue := hv.hasValue (.refl _)
    have hq2 := quiet.freshSlot.of_ok h2
    have hbefore := (hs1.snapshot.slot (hv.known sort rfl)).later hq2
    obtain ⟨hq, hs3, hafter⟩ := sorted_slotAxiom hv.sorted h2 (quiet.deletedSlot (quiet_member L _))
      (fun hafter => wellBuilt_deletedSlot hbefore hafter (hvalue.later hq2)) h3
    obtain ⟨hq4, hs4, hpruned⟩ := sorted_mapM_slots (fun r _ => slotStep_pruneTuples hlaid (hs1.snapshot.later hq)
      (hvalue.later hq) r) (.refl _) hs3 h4
    have hplaced := (hs1.of_quiet hq hs3).of_quiet hq4 hs4
    refine hplaced.atSnapshot (Snapshot.Sorted.withSlots hplaced.snapshot fun c hc => ?_)
    rcases mem_cons.1 hc with rfl | hc
    · exact hafter.later hq4
    · exact hpruned c hc

/-! ## Updates of tuples -/

theorem wellFormed_updatedFormula (hlaid : L.Laid symbols)
    (hts : List.lookup id L.tupleSorts = some ts) {snapshot : Snapshot} {inLeft inRight : Formula} (hb : s.Building k L Γ params)
    (hsnapshot : snapshot.Sorted k L s.symbols s.paramSorts)
    (ho : s.HasTerms k Γ [o] [ts.sort]) (hl : inLeft.WellFormed k s.symbols Γ)
    (hr : inRight.WellFormed k s.symbols Γ) :
    (updatedFormula ts update snapshot params o inLeft inRight).WellFormed k s.symbols Γ := by
  have hold := hb.wellFormed_slot (hsnapshot.slot _ (hlaid.tupleSort_lt hts)) ho
  have hmatched := wellFormed_mkAnd (forall_mem_pair hl hr)
  cases update with
  | remove => exact wellFormed_mkAnd (forall_mem_pair hold (wellFormed_mkNot hmatched))
  | add =>
    obtain ⟨hleft, hright⟩ := hb.sorted.declared.ofSorts_ends hts ho
    obtain ⟨hsource, htarget⟩ := hlaid.ends_lt hts
    have hleft' := hb.wellFormed_slot (hsnapshot.slot _ hsource) hleft
    have hright' := hb.wellFormed_slot (hsnapshot.slot _ htarget) hright
    exact wellFormed_mkOr (forall_mem_pair hold (wellFormed_mkAnd (forall_mem_triple hmatched hleft' hright')))

theorem wellBuilt_updatedSlot (hlaid : L.Laid symbols) (hts : List.lookup id L.tupleSorts = some ts)
    (hsnapshot : snapshot.Sorted k L s.symbols s.paramSorts) (hafter : s.HasSlot k after ts.sort)
    (hl : s.HasValue k L left ts.source) (hr : s.HasValue k L right ts.target) :
    WellBuilt k L s (updatedSlot L ts left right update snapshot after) := by
  intro s1 t Γ params F hq hb hrun
  obtain ⟨b, o, s2, inLeft, s3, inRight, h1, h2, h3, rfl⟩ := updatedSlot_ok hrun
  obtain ⟨hq1, hb1, ho, -, hadm⟩ := hb.binder h1
  obtain ⟨hleft, hright⟩ := hb1.sorted.declared.ofSorts_ends hts ho
  have hq01 := hq.trans hq1
  obtain ⟨hq2, hb2, hinLeft⟩ := hb1.member (hl.later hq01) hleft h2
  obtain ⟨hq3, hb3, hinRight⟩ := hb2.member ((hr.later hq01).later hq2) (hright.later hq2) h3
  have hq' := hq01.trans (hq2.trans hq3)
  have hot := (ho.later hq2).later hq3
  have hsnapshot' : snapshot.Sorted k L t.symbols t.paramSorts := by
    rw [hq'.paramSorts]
    exact hsnapshot.later hq'.symbols (prefix_refl _)
  refine ⟨hb3.sorted, wellFormed_mkForAll hadm (wellFormed_mkIff (hb3.wellFormed_slot (hafter.later hq') hot) ?_)⟩
  exact wellFormed_updatedFormula hlaid hts hb3 hsnapshot' hot (WellFormed.mono hq3.symbols hinLeft) hinRight

theorem compare_of_checkTarget (hbottom : type.signature.isBottom = false) (h : checkTarget L type r = .ok ()) :
    L.graph.closure type.signature = L.graph.closure (.ofClass r.target) ∨
      ∀ c ∈ L.graph.closure (.ofClass r.target), c ∈ L.graph.closure type.signature := by
  simp only [checkTarget, hbottom, Bool.false_eq_true, if_false, ClassGraph.compare] at h
  by_cases heq : L.graph.closure type.signature = L.graph.closure (.ofClass r.target)
  · exact .inl heq
  by_cases hall : (L.graph.closure (.ofClass r.target)).all (· ∈ L.graph.closure type.signature)
  · exact .inr fun c hc => by simpa using all_eq_true.1 hall c hc
  · split_ifs at h

/-- The objects that may be targets of a relation are of the sort of its target. -/
theorem covers_of_checkTarget (hwf : L.store.WellFormed) (hr : r ∈ L.store.relations) (ha : L.sortOf type = .ok a)
    (h : checkTarget L type r = .ok ()) : Covers a (some (L.classSort r.target)) := by
  cases a with
  | none => exact .inl rfl
  | some sort =>
    obtain ⟨hbottom, component, hwithin, rfl⟩ := sortOf_some_iff.1 ha
    -- the target is above some class of the type
    have hmem : r.target ∈ L.graph.closure type.signature := by
      have htarget : r.target ∈ L.graph.closure (.ofClass r.target) := by
        refine mem_filter.2 ⟨ClassGraph.mem_idsUpTo.2 (hwf.target r hr), ?_⟩
        simp [Signature.ofClass, ClassGraph.isSubclass]
      rcases compare_of_checkTarget hbottom h with heq | hall
      · rw [heq]
        exact htarget
      · exact hall _ htarget
    obtain ⟨m, hm, heq⟩ := hwf.graph.componentOf_closure hmem
    exact .inr (by rw [Layout.classSort, show L.graph.componentOf r.target = component from heq.trans (hwithin m hm)])

/-- An update of tuples keeps the session placed. -/
theorem placed_updateTuples (hlaid : L.Laid symbols) (h : s.Placed k L)
    (hrun : updateTuples L source relation target update s = .ok ((), t)) : t.Placed k L := by
  obtain ⟨v, vt, s1, w, wt, s2, r, ts, after, s3, s4, h1, h2, hr, hcheck, hts, h3, h4, -, rfl⟩ := updateTuples_ok hrun
  obtain ⟨a, ha, hv, hs1⟩ := placed_objSet hlaid h h1
  have hscope : s1.scope = s.scope := hv.quiet.scope
  rw [← hscope] at h2
  obtain ⟨b, hb, hw, hs2⟩ := placed_objSet hlaid hs1 h2
  have hmem := (Store.relationOn_ok hr).1
  have hlookup := Layout.lookup_of_tupleSort hts
  obtain ⟨hnear, hfar⟩ := hlaid.ends_of_base hmem hlookup
  have hsource := Layout.sortOf_relationOn hlaid.store.graph hr ha
  subst hsource
  have hq3 := quiet.freshSlot.of_ok h3
  have hnearValue := ((hv.hasValue (.refl _)).later hw.quiet).later hq3
  have hfarValue := (hw.hasValue (covers_of_checkTarget hlaid.store hmem hb hcheck)).later hq3
  rw [← hnear] at hnearValue
  rw [← hfar] at hfarValue
  have hleft : s3.HasValue k L (if r.flipped then w else v) ts.source := by
    cases hflipped : r.flipped <;> simp only [hflipped, TupleSort.nearSort, TupleSort.farSort] at hnearValue hfarValue
    · exact hnearValue
    · exact hfarValue
  have hright : s3.HasValue k L (if r.flipped then v else w) ts.target := by
    cases hflipped : r.flipped <;> simp only [hflipped, TupleSort.nearSort, TupleSort.farSort] at hnearValue hfarValue
    · exact hfarValue
    · exact hnearValue
  have hsnapshot : s2.snapshot.Sorted k L s3.symbols s3.paramSorts := by
    rw [hq3.paramSorts]
    exact Snapshot.Sorted.later hs2.snapshot hq3.symbols (prefix_refl _)
  obtain ⟨hq, hs4, hafter⟩ := sorted_slotAxiom hs2.sorted h3 (quiet.updatedSlot (quiet_member L _) (quiet_member L _))
    (fun hafter => wellBuilt_updatedSlot hlaid hlookup hsnapshot hafter hleft hright) h4
  have hplaced := hs2.of_quiet hq hs4
  exact hplaced.atSnapshot (Snapshot.Sorted.link hplaced.snapshot hafter)

end Updates

end Encode

end StoreCheck
