import StoreCheck.Proofs.Encoding.GoalMeaning
import StoreCheck.Proofs.Encoding.Iterations

/-!
# What statements do to the state in a model

A structure that obeys the axioms of an encoded statement shows, at every position where the statement is run, the state before
it and the state after it. The lemmas here say how the second one comes from the first: a creation adds its object, a deletion
takes the objects and the tuples that touch them, an update of tuples changes one tuple sort, alternatives end with the state of
the one that is taken, and a flat loop merges what its iterations leave.
-/

namespace StoreCheck

open List Layout

variable {pruned changes : List (SortId × Slot)} {symbols : Symbols} {rs : List Relation} {value : ObjValue} {st : Statement}
  {x : Encode.Exit} {s2 s3 : Session} {slot : Slot}

/-- What exists of each sort. -/
abbrev Structure.Contents (M : Structure) : Type := SortId → Set M.Elem

variable {M : Structure} {L : Layout} {s t : Session} {k : SortId → SortId} {es : List M.Elem}

namespace Structure.Contents

/-- The contents without the objects of a set of the sort, and without the tuples that touch one. -/
def without (L : Layout) (sort : SortId) (X : Set M.Elem) (σ : M.Contents) : M.Contents := fun sort' =>
  {e | e ∈ σ sort' ∧ (sort' = sort → e ∉ X) ∧ ∀ id ts, List.lookup id L.tupleSorts = some ts → ts.sort = sort' →
    (ts.source = sort → ts.Left M e ∉ X) ∧ (ts.target = sort → ts.Right M e ∉ X)}

/-- The contents after independent iterations: what was there and every iteration keeps, and what was not there and some
iteration adds. -/
def merge (σ : M.Contents) (its : Set M.Elem) (out : M.Elem → M.Contents) : M.Contents := fun sort =>
  {e | e ∈ σ sort ∧ (∀ x ∈ its, e ∈ out x sort) ∨ e ∉ σ sort ∧ ∃ x ∈ its, e ∈ out x sort}

theorem mem_without {sort sort' : SortId} :
    e ∈ without L sort X σ sort' ↔ e ∈ σ sort' ∧ (sort' = sort → e ∉ X) ∧
      ∀ id ts, List.lookup id L.tupleSorts = some ts → ts.sort = sort' →
        (ts.source = sort → ts.Left M e ∉ X) ∧ (ts.target = sort → ts.Right M e ∉ X) := Iff.rfl

theorem mem_merge {its : Set M.Elem} {out : M.Elem → M.Contents} {sort : SortId} {e : M.Elem} :
    e ∈ merge σ its out sort ↔
      e ∈ σ sort ∧ (∀ x ∈ its, e ∈ out x sort) ∨ e ∉ σ sort ∧ ∃ x ∈ its, e ∈ out x sort := Iff.rfl

end Structure.Contents

open Structure

/-! ## Slots that are replaced -/

namespace Snapshot

variable {σ : Snapshot} {sort : SortId}

theorem mem_on : e ∈ σ.on M es sort ↔ M.sort e = sort ∧ (σ.slot sort).At M es e := Iff.rfl

/-- Replacing the slot of a sort changes what there is of the sort. -/
theorem on_link (hlt : sort.index < σ.slots.length) (slot : Slot) :
    (σ.link sort slot).on M es = Function.update (σ.on M es) sort {e | M.sort e = sort ∧ slot.At M es e} := by
  funext sort'
  by_cases h : sort' = sort
  · subst h
    have hslot : (σ.link sort' slot).slot sort' = slot := by simp [link, Snapshot.slot, hlt]
    rw [Function.update_self, on, hslot]
  · rw [Function.update_of_ne h, on, slot_link_of_ne σ slot h, on]

/-- Where the slots of a sort and of the tuples with an end of the sort are replaced by what is left of them without the elements
of a set, the contents are those without the set. -/
theorem on_without (hlaid : L.Laid symbols) (hlength : σ.slots.length = sortCount L.store)
    (hsort : L.sortOf type = .ok (some sort)) (hlt : sort.index < σ.slots.length) {after : Slot}
    (hobjects : ∀ e, M.sort e = sort → (after.At M es e ↔ (σ.slot sort).At M es e ∧ e ∉ X))
    (htuples : ∀ change ∈ pruned, ∃ id ts, List.lookup id L.tupleSorts = some ts ∧ change.1 = ts.sort ∧
      ∀ e, M.sort e = ts.sort → (change.2.At M es e ↔ (σ.slot ts.sort).At M es e ∧
        (ts.source = sort → ts.Left M e ∉ X) ∧ (ts.target = sort → ts.Right M e ∉ X)))
    (hall : ∀ id ts, List.lookup id L.tupleSorts = some ts → ts.source = sort ∨ ts.target = sort →
      ts.sort ∈ pruned.map Prod.fst) :
    (σ.withSlots ((sort, after) :: pruned)).on M es = Contents.without L sort X (σ.on M es) := by
  have hne : ∀ {id ts}, List.lookup id L.tupleSorts = some ts → ts.sort ≠ sort := fun hts =>
    (hlaid.sortOf_ne_tupleSort hsort hts).symm
  funext sort'
  ext e
  rw [Contents.mem_without, mem_on, mem_on]
  by_cases hmem : sort' ∈ pruned.map Prod.fst
  · -- a tuple sort: its slot is one of the pruned ones
    obtain ⟨⟨_, _⟩, hchange, rfl⟩ := mem_map.1 hmem
    obtain ⟨id, ts, hts, rfl, -⟩ := htuples _ hchange
    have hmem' : ts.sort ∈ ((sort, after) :: pruned).map Prod.fst := mem_cons_of_mem sort hmem
    obtain ⟨slot, hslot, heq⟩ := exists_slot_withSlots hmem'
      (show ts.sort.index < σ.slots.length by rw [hlength]; exact hlaid.tupleSort_lt hts)
    have hslot' : (ts.sort, slot) ∈ pruned := (mem_cons.1 hslot).resolve_left fun hpair =>
      hne hts (congrArg Prod.fst hpair)
    obtain ⟨_, ts', hts', hsame, hat⟩ := htuples _ hslot'
    obtain ⟨-, rfl⟩ := hlaid.tupleSort_inj hts hts' hsame
    rw [heq]
    constructor
    · rintro ⟨he, hin⟩
      obtain ⟨hold, hends⟩ := (hat e he).1 hin
      refine ⟨⟨he, hold⟩, fun hcontra => absurd hcontra (hne hts), fun id' ts' hts' hsame => ?_⟩
      obtain ⟨-, rfl⟩ := hlaid.tupleSort_inj hts' hts hsame
      exact hends
    · rintro ⟨⟨he, hold⟩, -, hends⟩
      exact ⟨he, (hat e he).2 ⟨hold, hends _ ts hts rfl⟩⟩
  by_cases hsame : sort' = sort
  · subst hsame
    have hslot : (σ.withSlots ((sort', after) :: pruned)).slot sort' = after := by
      refine (slot_withSlots_of_not_mem hmem).trans ?_
      simp [link, Snapshot.slot, hlt]
    rw [hslot]
    constructor
    · rintro ⟨he, hin⟩
      obtain ⟨hold, hgone⟩ := (hobjects e he).1 hin
      exact ⟨⟨he, hold⟩, fun _ => hgone, fun id ts hts hcontra => absurd hcontra (hne hts)⟩
    · rintro ⟨⟨he, hold⟩, hgone, -⟩
      exact ⟨he, (hobjects e he).2 ⟨hold, hgone rfl⟩⟩
  · -- a sort without an end of the sort keeps its slot
    rw [slot_withSlots_of_not_mem (by simp [hsame, hmem])]
    refine ⟨fun hin => ⟨hin, fun hcontra => absurd hcontra hsame, fun id ts hts heq => ?_⟩, fun hin => hin.1⟩
    subst heq
    exact ⟨fun hend => absurd (hall id ts hts (.inl hend)) hmem, fun hend => absurd (hall id ts hts (.inr hend)) hmem⟩

end Snapshot

namespace Encode

/-! ## Creations, deletions and updates of tuples -/

/-- A creation adds the object that it makes. -/
theorem on_create (hlaid : L.Laid symbols) (h : s.Placed k L)
    (hrun : create L className var s = .ok ((), t)) (hM : M.Obeys ρ t) :
    ∃ c made, AddsCreation L s className c made ∧ Creates M L s c made.pred ∧ ∀ es, s.Runs M es →
      t.snapshot.on M es = Function.update (s.snapshot.on M es) (L.classSort c)
        (s.snapshot.on M es (L.classSort c) ∪ {e | made.Makes M es e}) := by
  obtain ⟨c, p, s1, s2, after, s3, s4, hc, h1, h2, h3, h4, hquiet, rfl⟩ := create_ok hrun
  have hlt : c.index < L.graph.size := ClassGraph.resolveIn_lt hc
  have hq1 := (quiet_freshPred _ _).of_ok h1
  have hq2 := quiet.creationAxioms.of_ok h2
  have hq3 := quiet.freshSlot.of_ok h3
  have hq := hq1.trans (hq2.trans hq3)
  have hM4 : M.Obeys ρ s4 := by
    cases var <;> exact hM
  obtain ⟨hM3, hslot⟩ := (obeys_createdSlot h4).1 hM4
  obtain ⟨-, hcreates⟩ := (obeys_creationAxioms h2).1 (hM3.of_grows hq3.axioms)
  refine ⟨c, ⟨L.classSort c, p, s.paramSorts⟩, ⟨hc, rfl, rfl, s1, h1⟩, ?_, fun es hes => ?_⟩
  · exact ⟨fun es hes => hcreates.made es (hes.later hq1),
      fun es hes e he hp => (hcreates.only es (hes.trans hq1.paramSorts.symm) e he hp).imp_left
        (Session.runs_iff_of_quiet hq1).1,
      fun es hes => hcreates.single es (hes.trans hq1.paramSorts.symm)⟩
  · have hsnapshot : s4.snapshot = s.snapshot := hquiet.snapshot
    have hbefore : s2.snapshot = s.snapshot := (hq1.trans hq2).snapshot
    have htaken : ((created (L.classSort c) after p s4).bindTo ⟨.pred p s1.level, (ObjType.ofClass c).single, true⟩ var).snapshot =
        s.snapshot.link (L.classSort c) after := by
      rw [← hsnapshot]
      cases var <;> rfl
    have hindex : (L.classSort c).index < s.snapshot.slots.length := by
      rw [h.snapshot.length]
      exact hlaid.classSort_lt hlt
    rw [htaken, Snapshot.on_link hindex]
    congr 1
    ext e
    have hat := hslot es (hes.later hq) e
    rw [hbefore] at hat
    constructor
    · rintro ⟨he, hin⟩
      exact ((hat he).1 hin).imp (fun hold => ⟨he, hold⟩) fun hp => ⟨hes.sorts, he, hp⟩
    · rintro (⟨he, hold⟩ | ⟨-, he, hp⟩)
      · exact ⟨he, (hat he).2 (.inl hold)⟩
      · exact ⟨he, (hat he).2 (.inr hp)⟩

/-- The tuples of a relation that are left after a deletion. -/
theorem at_pruned {sort : SortId} (hv : value.Settled s.vars.count) (hrun : rs.mapM (pruneTuples L sort value) s = .ok (pruned, t))
    (hM : M.Obeys ρ t) (hmem : change ∈ pruned) :
    ∃ r ∈ rs, ∃ ts, List.lookup r.id L.tupleSorts = some ts ∧ change.1 = ts.sort ∧ ∀ es, s.Runs M es →
      ∀ e, M.sort e = ts.sort → (change.2.At M es e ↔ (s.snapshot.slot ts.sort).At M es e ∧
        (ts.source = sort → ¬ value.Holds L M s.contexts ρ es (ts.Left M e)) ∧
        (ts.target = sort → ¬ value.Holds L M s.contexts ρ es (ts.Right M e))) := by
  obtain ⟨r, hr, s0, t0, hq0, hprune, hq2⟩ := exists_step_of_mapM (fun r => quiet.pruneTuples (quiet_member L _) (.lift _)) hrun hmem
  obtain ⟨ts, after, s1, hts, hfresh, haxiom, rfl⟩ := pruneTuples_ok hprune
  have hq := hq0.trans (quiet.freshSlot.of_ok hfresh)
  refine ⟨r, hr, ts, lookup_of_tupleSort hts, rfl, fun es hes e he => ?_⟩
  have hfacts := ((obeys_prunedSlot (hv.mono hq.vars) haxiom).1 (hM.of_grows hq2.axioms)).2 es (hes.later hq) e he
  rw [hq0.snapshot, hq.table] at hfacts
  exact hfacts

theorem map_pruned {sort : SortId} (hrun : rs.mapM (pruneTuples L sort value) s = .ok (pruned, t)) :
    pruned.map Prod.fst = rs.map fun r => ((List.lookup r.id L.tupleSorts).map (·.sort)).getD ⟨0⟩ := by
  refine map_of_mapM Prod.fst _ (fun r s p t hprune => ?_) hrun
  obtain ⟨ts, after, s1, hts, -, -, rfl⟩ := pruneTuples_ok hprune
  rw [lookup_of_tupleSort hts]
  rfl

/-- A deletion takes the objects of the set, and the tuples that touch one; a set of the bottom type has none. -/
theorem on_delete (hlaid : L.Laid symbols) (h : s.Placed k L) {objects : ObjExpr}
    (hrun : delete L objects s = .ok ((), t)) (hM : M.Obeys ρ t) :
    ∃ value type s1, objSet L false s.scope objects s = .ok ((value, type), s1) ∧
      (L.sortOf type = .ok none ∧ t.snapshot = s.snapshot ∨ ∃ sort, L.sortOf type = .ok (some sort) ∧ ∀ es, s.Runs M es →
        t.snapshot.on M es = Contents.without L sort {o | value.Holds L M s.contexts ρ es o} (s.snapshot.on M es)) := by
  obtain ⟨value, type, s1, h1, -, hcases⟩ := delete_ok hrun
  obtain ⟨a, ha, hv, hs1⟩ := placed_objSet hlaid h h1
  refine ⟨value, type, s1, h1, ?_⟩
  obtain ⟨hnone, rfl⟩ | ⟨sort, after, s2, s3, pruned, s4, hsort, h2, h3, h4, hquiet, rfl⟩ := hcases
  · exact .inl ⟨hnone, hv.quiet.snapshot⟩
  refine .inr ⟨sort, hsort, fun es hes => ?_⟩
  have hq2 := quiet.freshSlot.of_ok h2
  have hq3 := (quiet.axiomOver (quiet.deletedSlot (quiet_member L _))).of_ok h3
  have hq4 := (Keeps.mapM (fun _ => quiet.pruneTuples (quiet_member L _) (.lift _)) _).of_ok h4
  have hq := hv.quiet.trans hq2
  have hq' := hq.trans hq3
  have hM4 : M.Obeys ρ s4 := hM
  have hsettled : ∀ n, value.Settled n := fun n => hv.settled.mono (Nat.zero_le n)
  have hdeleted := ((obeys_deletedSlot (hsettled _) h3).1 (hM4.of_grows hq4.axioms)).2 es (hes.later hq)
  rw [hq.table, hv.quiet.snapshot] at hdeleted
  have hlength := h.snapshot.length
  rw [hquiet.snapshot]
  refine Snapshot.on_without hlaid hlength hsort ?_ hdeleted (fun change hmem => ?_) fun id ts hts hend => ?_
  · rw [ha] at hsort
    cases hsort
    rw [hlength]
    exact hv.known sort rfl
  · obtain ⟨r, -, ts, hts, heq, hat⟩ := at_pruned (hsettled s3.vars.count) h4 hM4 hmem
    rw [hq'.snapshot, hq'.table] at hat
    exact ⟨r.id, ts, hts, heq, hat es (hes.later hq')⟩
  · obtain ⟨r, hr, rfl⟩ := hlaid.mem_incident hsort hts hend
    rw [map_pruned h4]
    exact mem_map.2 ⟨r, hr, by rw [hts]; rfl⟩

/-- An update of tuples changes the tuples of the relation, between the two values. -/
theorem on_updateTuples (hlaid : L.Laid symbols) (h : s.Placed k L)
    (hrun : updateTuples L source relation target update s = .ok ((), t)) (hM : M.Obeys ρ t) :
    ∃ sourceValue sourceType s1 targetValue targetType s2 r ts, objSet L false s.scope source s = .ok ((sourceValue, sourceType), s1) ∧
      objSet L false s.scope target s1 = .ok ((targetValue, targetType), s2) ∧
      L.store.relationOn sourceType.signature relation = .ok r ∧ checkTarget L targetType r = .ok () ∧
      List.lookup r.base L.tupleSorts = some ts ∧ ∀ es, s.Runs M es →
        t.snapshot.on M es = Function.update (s.snapshot.on M es) ts.sort {e | M.sort e = ts.sort ∧
          Updated M L s.contexts ρ ts (if r.flipped then targetValue else sourceValue)
            (if r.flipped then sourceValue else targetValue) update s.snapshot es e} := by
  obtain ⟨v, vt, s1, w, wt, s2, r, ts, after, s3, s4, h1, h2, hr, hcheck, hts, h3, h4, hquiet, rfl⟩ := updateTuples_ok hrun
  obtain ⟨a, ha, hv, hs1⟩ := placed_objSet hlaid h h1
  have hscope : s1.scope = s.scope := hv.quiet.scope
  have h2' := h2
  rw [← hscope] at h2'
  obtain ⟨b, hb, hw, hs2⟩ := placed_objSet hlaid hs1 h2'
  have hlookup := lookup_of_tupleSort hts
  refine ⟨v, vt, s1, w, wt, s2, r, ts, h1, h2, hr, hcheck, hlookup, fun es hes => ?_⟩
  have hq2 := hv.quiet.trans hw.quiet
  have hq3 := hq2.trans (quiet.freshSlot.of_ok h3)
  have hsettled : ∀ {x : ObjValue}, x.Settled 0 → x.Settled s3.vars.count := fun hx => hx.mono (Nat.zero_le _)
  have hleft : (if r.flipped then w else v).Settled s3.vars.count := by
    split
    · exact hsettled hw.settled
    · exact hsettled hv.settled
  have hright : (if r.flipped then v else w).Settled s3.vars.count := by
    split
    · exact hsettled hv.settled
    · exact hsettled hw.settled
  have hM4 : M.Obeys ρ s4 := hM
  have hupdated := ((obeys_updatedSlot hleft hright h4).1 hM4).2 es (hes.later hq3)
  rw [hq3.table, hq2.snapshot] at hupdated
  have hindex : ts.sort.index < s.snapshot.slots.length := by
    rw [h.snapshot.length]
    exact hlaid.tupleSort_lt hlookup
  show (s4.snapshot.link ts.sort after).on M es = _
  rw [hquiet.snapshot, Snapshot.on_link hindex]
  congr 1
  ext e
  exact and_congr_right fun he => hupdated e he

/-- An assignment leaves the state alone. -/
theorem snapshot_assign (hrun : assign L var e s = .ok ((), t)) : t.snapshot = s.snapshot := by
  obtain ⟨value, type, s1, v, s2, -, hq, rfl, -⟩ := assign_ok hrun
  exact hq.snapshot

/-! ## Alternatives -/

/-- Where a statement with alternatives is run, exactly one of them is taken. -/
theorem taken_of_alternativesOf (hrun : alternativesOf L st s = .ok (alternatives, t)) (hne : alternatives ≠ [])
    (hM : M.Obeys ρ t) (hes : s.Runs M es) :
    (∃ a ∈ alternatives, M.pred a.1 es) ∧ alternatives.Pairwise fun a b => ¬ (M.pred a.1 es ∧ M.pred b.1 es) := by
  unfold alternativesOf at hrun
  split at hrun
  · obtain ⟨taken, s1, h1, hrun⟩ := bind_ok.1 hrun
    obtain ⟨skipped, s2, h2, hrun⟩ := bind_ok.1 hrun
    obtain ⟨⟨⟩, s3, h3, hrun⟩ := bind_ok.1 hrun
    cases pure_ok.1 hrun
    obtain ⟨F, u, -, hobeys⟩ := obeys_decided (ρ := ρ) h3
    have hq := ((quiet_freshPred _ _).of_ok h1).trans ((quiet_freshPred _ _).of_ok h2)
    obtain ⟨htaken, hskipped⟩ := (hobeys.1 hM).2 es (hes.later hq)
    constructor
    · by_cases hF : F.Holds M (ρ.setFrom s2.vars.count es)
      · exact ⟨_, mem_cons_self, htaken.2 hF⟩
      · exact ⟨_, mem_cons_of_mem _ mem_cons_self, hskipped.2 hF⟩
    · simp only [pairwise_cons, mem_singleton, forall_eq, not_mem_nil, false_implies, implies_true,
        List.Pairwise.nil, and_true]
      rintro ⟨hp, hq⟩
      exact hskipped.1 hq (htaken.1 hp)
  · rename_i first second rest
    obtain ⟨indicators, s1, h1, hrun⟩ := bind_ok.1 hrun
    obtain ⟨⟨⟩, s2, h2, hrun⟩ := bind_ok.1 hrun
    cases pure_ok.1 hrun
    have hlength := length_choiceIndicators h1
    have hfirst : (indicators.zip (first :: second :: rest)).map Prod.fst = indicators :=
      map_fst_zip (by simp [hlength])
    obtain ⟨htaken, hpairwise⟩ := ((obeys_oneTaken h2).1 hM).2 es (hes.later ((quiet_choiceIndicators _).of_ok h1))
    rw [← hfirst] at htaken hpairwise
    exact ⟨by simpa using htaken, pairwise_map.1 hpairwise⟩
  · cases pure_ok.1 hrun
    exact absurd rfl hne

/-- Every end belongs to an alternative. -/
theorem exists_of_exit : ∀ {alternatives : List (PredId × Block)} {s : Session} {exits : List Exit},
    runAlternatives entry (encodings L alternatives) s = .ok (exits, t) → x ∈ exits →
      ∃ a ∈ alternatives, a.1 = x.indicator
  | [], _, _, h, hx => by
    obtain ⟨rfl, -⟩ := runAlternatives_nil_ok h
    cases hx
  | (p, b) :: rest, _, _, h, hx => by
    obtain ⟨s1, others, -, h2, rfl⟩ := runAlternatives_cons_ok h
    rcases mem_cons.1 hx with rfl | hx
    · exact ⟨(p, b), mem_cons_self, rfl⟩
    · obtain ⟨a, ha, heq⟩ := exists_of_exit h2 hx
      exact ⟨a, mem_cons_of_mem _ ha, heq⟩

/-- The length of a position where a session is run. -/
theorem length_of_runs (hs : s.Sorted k L) (hes : s.Runs M es) : es.length = s.level := by
  rw [Session.level, hs.contexts.level_eq, ← length_map (f := M.sort), hes.sorts]
  rfl

/-- The alternative that a structure takes at a position: the alternatives before it have been encoded, then it has, and none of
the others is taken. -/
structure TakenAlternative (M : Structure) (L : Layout) (alternatives : List (PredId × Block)) (entry t : Session)
    (es : List M.Elem) where
  before : List (PredId × Block)
  indicator : PredId
  body : Block
  after : List (PredId × Block)
  /-- The ends of the alternatives before, and where they have been encoded. -/
  first : List Exit
  reached : Session
  /-- The end of the alternative. -/
  inner : Session
  others : List Exit
  split : alternatives = before ++ (indicator, body) :: after
  earlier : runAlternatives entry (encodings L before) entry = .ok (first, reached)
  run : block L body (enterAlternative entry indicator reached) = .ok ((), inner)
  made : inner.Extends t
  taken : M.pred indicator es
  only : ∀ x ∈ first ++ others, ¬ M.pred x.indicator es

namespace TakenAlternative

variable {alternatives : List (PredId × Block)} (r : TakenAlternative M L alternatives s t es)

/-- The ends of all alternatives. -/
def exits : List Exit := r.first ++ ⟨r.indicator, r.inner.snapshot, r.inner.scope⟩ :: r.others

theorem mem : (r.indicator, r.body) ∈ alternatives := by
  have hmem : (r.indicator, r.body) ∈ r.before ++ (r.indicator, r.body) :: r.after := by simp
  rwa [← r.split] at hmem

/-- An alternative that is taken is the one. -/
theorem eq_of_mem_exits (hx : x ∈ r.exits) (htaken : M.pred x.indicator es) :
    x = ⟨r.indicator, r.inner.snapshot, r.inner.scope⟩ := by
  rcases mem_append.1 hx with hx | hx
  · exact absurd htaken (r.only x (mem_append_left _ hx))
  · rcases mem_cons.1 hx with rfl | hx
    · rfl
    · exact absurd htaken (r.only x (mem_append_right _ hx))

/-- Where a branch is run, it is inside the alternative that is taken. -/
theorem runs_enter (hs : s.Sorted k L) (hes : s.Runs M es) : (enterAlternative s r.indicator r.reached).Runs M es := by
  obtain ⟨hextends, hcontext⟩ := extends_runAlternatives s _ (grows_encodings L r.before) r.earlier
  refine ⟨?_, ?_, fun g hg => ?_⟩
  · exact hes.sorts.trans (Session.Beside.paramSorts ⟨hextends, hcontext⟩ hs).symm
  · show r.reached.contexts.Live M r.reached.context es
    rw [hcontext]
    exact (Contexts.live_extend hextends.contexts hs.context).2 hes.live
  · rcases mem_append.1 hg with hg | hg
    · exact hes.guards g hg
    · rw [mem_singleton.1 hg, take_of_length_le (length_of_runs hs hes).le]
      exact r.taken

/-- Where a branch is run, one alternative is taken; the scope is merged from those at the ends of all of them. -/
theorem of_branch (halternatives : alternativesOf L st s = .ok (alternatives, s1)) (hne : alternatives ≠ [])
    (hrun : statement L st s = .ok ((), t)) (hM : M.Obeys ρ t) (hes : s.Runs M es) :
    ∃ (r : TakenAlternative M L alternatives s1 t es) (s2 : Session) (changes : List (SortId × Slot)) (s3 : Session),
      s1.Beside s2 ∧
      (changedSorts s1.snapshot r.exits).mapM (mergeSlot r.exits) (leaveAlternatives s1 s2) = .ok (changes, s3) ∧
      M.Obeys ρ s3 ∧ t.snapshot = s1.snapshot.withSlots changes ∧ t.scope = mergeScopes L.graph s1.level r.exits := by
  have hbranch := branch_of_alternativesOf halternatives hne hrun
  obtain ⟨exits, s2, changes, s3, h1, h2, rfl⟩ := branch_ok hbranch
  obtain ⟨hextends, hcontext⟩ := extends_runAlternatives s1 _ (grows_encodings L alternatives) h1
  have hq := (Keeps.mapM (fun sort => quiet.mergeSlot) _).of_ok h2
  have hM1 : M.Obeys ρ s1 := Structure.Obeys.of_grows (t := s3) hM (hextends.axioms.trans hq.axioms)
  obtain ⟨⟨⟨p, b⟩, hmem, htaken⟩, hpairwise⟩ := taken_of_alternativesOf halternatives hne hM1 hes
  obtain ⟨before, after, rfl⟩ := append_of_mem hmem
  have h1' := h1
  rw [encodings, map_append, map_cons] at h1'
  obtain ⟨first, rest, s4, hfirst, hrest, rfl⟩ := runAlternatives_append_ok h1'
  obtain ⟨s5, others, hbody, hothers, rfl⟩ := runAlternatives_cons_ok hrest
  have hafter := extends_runAlternatives s1 _ (grows_encodings L after) hothers
  have hmade : s5.Extends { s3 with
      snapshot := s1.snapshot.withSlots changes
      scope := mergeScopes L.graph s1.level (first ++ ⟨p, s5.snapshot, s5.scope⟩ :: others) } :=
    (hafter.1.trans (s2.extends_place _ _ _ _)).trans (hq.extends.trans (s3.extends_place _ _ _ _))
  refine ⟨⟨before, p, b, after, first, s4, s5, others, rfl, hfirst, hbody, hmade, htaken, fun x hx htaken' => ?_⟩,
    s2, changes, s3, ⟨hextends, hcontext⟩, h2, hM, rfl, rfl⟩
  obtain ⟨-, hright, hcross⟩ := pairwise_append.1 hpairwise
  rcases mem_append.1 hx with hx | hx
  · obtain ⟨a, ha, heq⟩ := exists_of_exit hfirst hx
    exact hcross a ha (p, b) mem_cons_self ⟨heq ▸ htaken', htaken⟩
  · obtain ⟨a, ha, heq⟩ := exists_of_exit hothers hx
    exact (pairwise_cons.1 hright).1 a ha ⟨htaken, heq ▸ htaken'⟩

/-- A merged slot holds what the slot of the alternative that is taken does. -/
theorem at_merged {sort : SortId} (hs : s.Sorted k L) (hbeside : s.Beside s2)
    (hmerge : (changedSorts s.snapshot r.exits).mapM (mergeSlot r.exits) (leaveAlternatives s s2) = .ok (changes, s3))
    (hM : M.Obeys ρ s3) (hes : s.Runs M es) (hmem : (sort, slot) ∈ changes) (e : M.Elem) (he : M.sort e = sort) :
    slot.At M es e ↔ (r.inner.snapshot.slot sort).At M es e := by
  obtain ⟨_, -, s4, t4, hq, hslot, hq'⟩ := exists_step_of_mapM (fun sort => quiet.mergeSlot) hmerge hmem
  obtain ⟨merged, s5, hfresh, haxiom, hpair⟩ := mergeSlot_ok hslot
  cases hpair
  have hq5 := hq.trans (quiet.freshSlot.of_ok hfresh)
  have hleave : s.Beside (leaveAlternatives s s2) := ⟨hbeside.made.trans (s2.extends_place _ _ _ _), hbeside.context⟩
  have hruns : s5.Runs M es := Session.Runs.later (hes.beside hs hleave rfl) hq5
  have hlevel : es.length ≤ s4.level := by
    rw [length_of_runs hs hes, hq.level, hleave.level hs]
  rw [((obeys_takenSlot haxiom).1 (hM.of_grows hq'.axioms)).2 es hruns e he, take_of_length_le hlevel]
  constructor
  · rintro ⟨x, hx, htaken, hat⟩
    rw [r.eq_of_mem_exits hx htaken] at hat
    exact hat
  · exact fun hat => ⟨_, mem_append_right _ mem_cons_self, r.taken, hat⟩

/-- A branch ends with the state of the alternative that is taken. -/
theorem on_branch (h : s.Placed k L) (hinner : r.inner.Placed k L) (hbeside : s.Beside s2)
    (hmerge : (changedSorts s.snapshot r.exits).mapM (mergeSlot r.exits) (leaveAlternatives s s2) = .ok (changes, s3))
    (hM : M.Obeys ρ s3) (hes : s.Runs M es) : (s.snapshot.withSlots changes).on M es = r.inner.snapshot.on M es := by
  have hlength : r.inner.snapshot.slots.length = s.snapshot.slots.length :=
    hinner.snapshot.length.trans h.snapshot.length.symm
  have hkeys : changes.map Prod.fst = changedSorts s.snapshot r.exits := by
    refine (map_of_mapM Prod.fst id (fun sort _ _ _ hslot => ?_) hmerge).trans (map_id _)
    obtain ⟨_, _, _, _, rfl⟩ := mergeSlot_ok hslot
    rfl
  funext sort
  ext e
  rw [Snapshot.mem_on, Snapshot.mem_on]
  by_cases hmem : sort ∈ changedSorts s.snapshot r.exits
  · have hlt : sort.index < s.snapshot.slots.length := by
      obtain ⟨i, hi, rfl⟩ := mem_map.1 (mem_filter.1 hmem).1
      exact mem_range.1 hi
    obtain ⟨slot, hslot, heq⟩ := Snapshot.exists_slot_withSlots (by rw [hkeys]; exact hmem) hlt
    rw [heq]
    exact and_congr_right fun he => r.at_merged h.sorted hbeside hmerge hM hes hslot e he
  · rw [Snapshot.slot_withSlots_of_not_mem (by rw [hkeys]; exact hmem)]
    rw [Snapshot.slot_eq_of_not_mem_difference hlength fun hdiff => hmem ?_]
    refine mem_filter.2 ⟨mem_of_mem_take (mem_filter.1 hdiff).1, any_eq_true.2 ?_⟩
    exact ⟨_, mem_append_right _ mem_cons_self, by simpa using hdiff⟩

end TakenAlternative

/-! ## Flat loops -/

/-- The iterations of a loop that are run at a position. -/
def LoopFrame.iterations (f : LoopFrame) (M : Structure) (s : Session) (es : List M.Elem) : Set M.Elem :=
  {x | M.sort x = f.sort ∧ s.contexts.Live M f.child (es ++ [x])}

/-- The body of a flat loop is run at the live iterations. -/
theorem LoopFrame.Placed.runs_flat {x : M.Elem} {f : LoopFrame} (h : f.Placed k L s) (hes : s.Runs M es)
    (hx : x ∈ f.iterations M s es) :
    (enterBody f s.snapshot s).Runs M (es ++ [x]) := by
  have hcontexts : s.contexts.table <+: (enterBody f s.snapshot s).contexts.table := prefix_refl _
  exact runs_inside h.session.sorted h.frame hcontexts rfl rfl hes hx.1 hx.2

/-- The encoding of a flat loop from the session in which its context is there. -/
structure FlatRun (L : Layout) (f : LoopFrame) (s t : Session) where
  /-- The end of the body. -/
  inner : Session
  changes : List (SortId × Slot)
  merged : Session
  accepted : checkFlat s.symbols f = .ok ()
  body : f.body (enterBody f s.snapshot s) = .ok ((), inner)
  planned : ∀ sort ∈ s.snapshot.difference inner.snapshot, sort ∈ f.plan.writes
  merges : (s.snapshot.difference inner.snapshot).mapM (mergeIterations f ⟨s.snapshot, inner.snapshot, inner.scope⟩)
    (leaveBody s.snapshot s inner) = .ok (changes, merged)
  exit : t = merged.atSnapshot (s.snapshot.withSlots changes)

theorem FlatRun.of_ok (h : flatLoop f s = .ok ((), t)) : Nonempty (FlatRun L f s t) := by
  obtain ⟨body, s1, changes, s2, haccepted, h1, hplanned, h2, rfl⟩ := flatLoop_ok h
  obtain ⟨s3, h3, rfl, rfl⟩ := loopBody_ok h1
  exact ⟨s3, changes, s2, haccepted, h3, hplanned, h2, rfl⟩

namespace FlatRun

variable {f : LoopFrame} (r : FlatRun L f s t)

theorem quiet_merged : (leaveBody s.snapshot s r.inner).Quiet r.merged :=
  (Keeps.mapM (fun _ => quiet.mergeIterations) _).of_ok r.merges

theorem extends_inner : r.inner.Extends t := by
  have hleave : r.inner.Extends (leaveBody s.snapshot s r.inner) := r.inner.extends_place _ s.context _ _
  have hexit := hleave.trans (r.quiet_merged.extends.trans (r.merged.grows_atSnapshot (s.snapshot.withSlots r.changes)).extends)
  rwa [← r.exit] at hexit

variable (h : f.Placed k L s)

include h

theorem made_inner : s.Extends r.inner := (s.extends_place _ f.child _ _).trans (h.body.of_ok r.body).extends

theorem guards_inner : r.inner.guards = s.guards := (h.body.of_ok r.body).guards

/-- What the slot of a sort that the body changes holds after the loop. -/
theorem at_merged (hM : M.Obeys ρ t) (hes : s.Runs M es) {sort : SortId} (hmem : (sort, slot) ∈ r.changes) (e : M.Elem)
    (he : M.sort e = sort) : slot.At M es e ↔
      ((s.snapshot.slot sort).At M es e ∧ ∀ x ∈ f.iterations M s es, (r.inner.snapshot.slot sort).At M (es ++ [x]) e) ∨
      (¬ (s.snapshot.slot sort).At M es e ∧ ∃ x ∈ f.iterations M s es, (r.inner.snapshot.slot sort).At M (es ++ [x]) e) := by
  obtain ⟨_, -, s1, t1, hq, hslot, hq'⟩ := exists_step_of_mapM (fun sort => quiet.mergeIterations) r.merges hmem
  obtain ⟨new, s2, hfresh, haxiom, hpair⟩ := mergeIterations_ok hslot
  cases hpair
  have hq2 := hq.trans (quiet.freshSlot.of_ok hfresh)
  have hleave : s.Beside (leaveBody s.snapshot s r.inner) :=
    ⟨(r.made_inner h).trans (r.inner.extends_place _ s.context _ _), rfl⟩
  have hruns : s2.Runs M es := Session.Runs.later (hes.beside h.session.sorted hleave (r.guards_inner h)) hq2
  have hM' : M.Obeys ρ r.merged := by
    rw [r.exit] at hM
    exact hM
  have hlive : ∀ x, s2.contexts.Live M f.child (es ++ [x]) ↔ s.contexts.Live M f.child (es ++ [x]) := fun x =>
    Contexts.live_extend (hleave.made.contexts.trans hq2.contexts) h.frame.child
  rw [((obeys_keptOrAdded haxiom).1 (hM'.of_grows hq'.axioms)).2 es hruns e he]
  simp only [hlive, LoopFrame.iterations, Set.mem_ofPred_eq, and_imp, and_assoc]

/-- A flat loop merges what its iterations leave. -/
theorem on_flat (hinner : r.inner.Placed k L) (hM : M.Obeys ρ t) (hes : s.Runs M es) :
    t.snapshot.on M es = Contents.merge (s.snapshot.on M es) (f.iterations M s es) fun x => r.inner.snapshot.on M (es ++ [x]) := by
  have hlength : r.inner.snapshot.slots.length = s.snapshot.slots.length :=
    hinner.snapshot.length.trans h.session.snapshot.length.symm
  have hkeys : r.changes.map Prod.fst = s.snapshot.difference r.inner.snapshot := by
    refine (map_of_mapM Prod.fst id (fun sort _ _ _ hslot => ?_) r.merges).trans (map_id _)
    obtain ⟨_, _, _, _, rfl⟩ := mergeIterations_ok hslot
    rfl
  have hsnapshot : t.snapshot = s.snapshot.withSlots r.changes := congrArg Session.snapshot r.exit
  funext sort
  ext e
  rw [Contents.mem_merge, hsnapshot]
  simp only [Snapshot.mem_on]
  by_cases hmem : sort ∈ s.snapshot.difference r.inner.snapshot
  · have hlt : sort.index < s.snapshot.slots.length := by
      obtain ⟨i, hi, rfl⟩ := mem_map.1 (mem_of_mem_take (mem_filter.1 hmem).1)
      exact mem_range.1 hi
    obtain ⟨slot, hslot, heq⟩ := Snapshot.exists_slot_withSlots (by rw [hkeys]; exact hmem) hlt
    rw [heq]
    by_cases he : M.sort e = sort
    · simp only [he, true_and]
      exact r.at_merged h hM hes hslot e he
    · simp [he]
  · -- a sort that the body leaves alone is the same in all iterations
    have hdepth : (s.snapshot.slot sort).depth ≤ es.length := by
      rw [← length_map (f := M.sort), hes.sorts]
      exact Snapshot.depth_slot_le h.session.snapshot.depth_le sort
    have hkept : ∀ x, (r.inner.snapshot.slot sort).At M (es ++ [x]) e ↔ (s.snapshot.slot sort).At M es e := by
      intro x
      rw [Snapshot.slot_eq_of_not_mem_difference hlength hmem, Slot.At, Slot.At, take_append_of_le_length hdepth]
    rw [Snapshot.slot_withSlots_of_not_mem (by rw [hkeys]; exact hmem)]
    simp only [hkept]
    constructor
    · exact fun hin => .inl ⟨hin, fun _ _ => hin⟩
    · rintro (⟨hin, -⟩ | ⟨hnot, x, -, hin⟩)
      · exact hin
      · exact absurd hin hnot

end FlatRun

end Encode

end StoreCheck
