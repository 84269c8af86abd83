import StoreCheck.Proofs.Encoding.FormulaMeaning
import StoreCheck.Proofs.Encoding.Walk
import StoreCheck.Proofs.WriteSet
import StoreCheck.Verification.Verifier

/-!
# An invariant that reads nothing written is preserved

A formula's truth depends only on the classes and relations that the analysis reports as read (`FormulaExpr.holds_congr`). An
action leaves the slots alone of every sort that is not reported as written. So an invariant that reads no written sort means
the same before and after the action, and the theory that its preservation goal would become has a valid conjecture
(`framed_goal_entailed`): reporting the goal as trivial agrees with proving it.

This needs that analysis and encoding agree on the types along the action, and that the invariant has no `unknown`: an `unknown`
may be true before and false after.
-/

namespace StoreCheck

open List FormulaExpr

variable {d : Domain} {l : Bool} {sort : SortId} {f : FormulaExpr} {final : Session} {written : List SortId}

/-! ## What the truth of a formula depends on -/

section Agreement

variable {U : Universe}

/-- The states do not differ in the domain. -/
def State.Agree (st st' : State U) : Domain → Prop
  | .ofClass c => st.ofClass c = st'.ofClass c
  | .ofRelation r => ∀ a b, st.linked r a b ↔ st'.linked r a b

theorem State.targets_congr {st st' : State U} {r : Relation} (h : st.Agree st' (.ofRelation r.base)) (X : Set U.Obj) :
    st.targets r X = st'.targets r X := by
  have hleads : ∀ a b, st.Leads r.base r.flipped a b ↔ st'.Leads r.base r.flipped a b := by
    intro a b
    unfold State.Leads
    split
    · exact h b a
    · exact h a b
  ext b
  constructor
  · rintro ⟨a, ha, hab⟩
    exact ⟨a, ha, (hleads a b).1 hab⟩
  · rintro ⟨a, ha, hab⟩
    exact ⟨a, ha, (hleads a b).2 hab⟩

variable {store : Store} {st st' : State U}

open Analysis

/-- The states agree on all domains of the store that the analysis has noted as read. -/
def Analysis.AgreeOnReads (a : Analysis) (store : Store) (st st' : State U) : Prop :=
  ∀ d ∈ a.effects.reads, d.Declared store → st.Agree st' d

variable {a b : Analysis}

theorem Analysis.AgreeOnReads.of_more (h : b.AgreeOnReads store st st') (hm : More a b) : a.AgreeOnReads store st st' :=
  fun d hd => h d (hm.domainsWith hd)

theorem Analysis.agree_of_note (h : b.AgreeOnReads store st st') (hn : note d .read isLocal a = .ok ((), b))
    (hd : d.Declared store) : st.Agree st' d := by
  cases modify_ok.1 hn
  exact h d ((EffectMap.mem_domainsWith_add a.effects d d .read isLocal _).2 (.inr ⟨rfl, by simp⟩)) hd

theorem ObjExpr.denoteAll_congr
    (hes : ∀ e ∈ es, ∀ {a b : Analysis} {l : Bool}, readSet store true e a = .ok (l, b) → b.AgreeOnReads store st st' →
      ∀ X, e.Denotes store a.types st vars X ↔ e.Denotes store a.types st' vars X) (hrun : readSets store true es a = .ok (l, b))
    (hagree : b.AgreeOnReads store st st') (Xs : List (Set U.Obj)) :
    ObjExpr.DenoteAll store a.types st vars es Xs ↔ ObjExpr.DenoteAll store a.types st' vars es Xs := by
  induction es generalizing a l Xs with
  | nil => rfl
  | cons e rest ih =>
    obtain ⟨he, hes⟩ := forall_mem_cons.1 hes
    obtain ⟨l1, l2, a1, h1, h2, -, hreads, hmore⟩ := readSets_cons_ok hrun
    have hrest := ih hes h2
    rw [hreads.types] at hrest
    simp only [ObjExpr.DenoteAll, he h1 (hagree.of_more hmore), hrest]

/-- An expression denotes the same in states that agree on what it reads. -/
theorem ObjExpr.denotes_congr (vars : Vars U) (e : ObjExpr) (hrun : readSet store true e a = .ok (l, b))
    (hagree : b.AgreeOnReads store st st') (X : Set U.Obj) :
    e.Denotes store a.types st vars X ↔ e.Denotes store a.types st' vars X := by
  induction e generalizing a b l X with
  | allOf className =>
    obtain ⟨-, c, hc, h1⟩ := readSet_allOf_ok hrun
    have hclass : st.ofClass c = st'.ofClass c := agree_of_note hagree h1 (ClassGraph.resolveIn_lt hc)
    refine exists_congr fun c' => and_congr_right fun hc' => ?_
    cases hc.symm.trans hc'
    rw [hclass]
  | var name => rfl
  | iterator name => rfl
  | subset source ih => exact exists_congr fun Y => and_congr_left' (ih hrun hagree Y)
  | oneOf source ih => exact exists_congr fun Y => and_congr_left' (ih hrun hagree Y)
  | union parts ih => exact exists_congr fun Xs => and_congr_left' (ObjExpr.denoteAll_congr (fun e he => ih e he) hrun hagree Xs)
  | deref source relation ih =>
    obtain ⟨a1, t, r, h1, ht, hr, h2⟩ := readSet_deref_ok hrun
    have hrel : st.Agree st' (.ofRelation r.base) :=
      agree_of_note hagree h2 ⟨r, (Store.relationOn_ok hr).1, rfl⟩
    refine exists_congr fun Y => exists_congr fun t' => exists_congr fun r' =>
      and_congr (ih h1 (hagree.of_more ((more_note _ _ _).of_ok h2)) Y) ?_
    refine and_congr_right fun ht' => and_congr_right fun hr' => ?_
    cases ht.symm.trans ht'
    cases hr.symm.trans hr'
    rw [State.targets_congr hrel]

/-- The variables of a quantifier range over the same objects in both states. -/
theorem QuantVar.forAll_congr : ∀ (qs : List QuantVar) {a b : Analysis} {v : Vars U}, bindQuantified store qs a = .ok ((), b) →
    b.AgreeOnReads store st st' → ∀ {P P' : TypeEnv → Vars U → Prop}, (∀ vars, P b.types vars ↔ P' b.types vars) →
    (QuantVar.ForAll store st P qs a.types v ↔ QuantVar.ForAll store st' P' qs a.types v) ∧
      (QuantVar.ForSome store st P qs a.types v ↔ QuantVar.ForSome store st' P' qs a.types v)
  | [], _, _, vars, hrun, _, _, _, hP => by
    cases pure_ok.1 hrun
    exact ⟨hP vars, hP vars⟩
  | v :: rest, a, _, vars, hrun, hagree, _, _, hP => by
    obtain ⟨l1, a1, h1, hrun⟩ := bind_ok.1 hrun
    obtain ⟨t, ht, hrun⟩ := typeOfBind_ok.1 hrun
    obtain ⟨⟨⟩, a3, h3, hrun⟩ := bind_ok.1 hrun
    have hmore := ((walking_more store).bindQuantified more_bind rest).of_ok hrun
    have hdomain := ObjExpr.denotes_congr vars v.domain h1 ((hagree.of_more hmore).of_more ((more_bind _ _ _).of_ok h3))
    cases modify_ok.1 h3
    have htypes : a1.types = a.types := ((reads_readSet store true v.domain).of_ok h1).types
    have hrest := fun vars => QuantVar.forAll_congr rest (v := vars) hrun hagree hP
    rw [htypes] at ht
    rw [htypes] at hrest
    constructor
    · refine exists_congr fun t' => exists_congr fun X => and_congr_right fun ht' => and_congr (hdomain X) ?_
      rw [ht] at ht'
      cases ht'
      exact forall_congr' fun o => imp_congr_right fun _ => (hrest _).1
    · refine exists_congr fun t' => exists_congr fun X => and_congr_right fun ht' => and_congr (hdomain X) ?_
      rw [ht] at ht'
      cases ht'
      exact exists_congr fun o => and_congr_right fun _ => (hrest _).2

theorem FormulaExpr.holdAll_congr
    (hfs : ∀ f ∈ fs, ∀ {a b : Analysis} {v : Vars U}, readFormula store f a = .ok ((), b) → b.AgreeOnReads store st st' →
      (f.Holds store st a.types v ↔ f.Holds store st' a.types v)) (hrun : readFormulas store fs a = .ok ((), b))
    (hagree : b.AgreeOnReads store st st') :
    (FormulaExpr.HoldAll store st fs a.types v ↔ FormulaExpr.HoldAll store st' fs a.types v) ∧
      (FormulaExpr.HoldSome store st fs a.types v ↔ FormulaExpr.HoldSome store st' fs a.types v) ∧
      (FormulaExpr.HoldNone store st fs a.types v ↔ FormulaExpr.HoldNone store st' fs a.types v) := by
  induction fs generalizing a with
  | nil => exact ⟨.rfl, .rfl, .rfl⟩
  | cons f rest ih =>
    obtain ⟨hf, hfs⟩ := forall_mem_cons.1 hfs
    obtain ⟨a1, h1, h2, htypes, hmore⟩ := readFormulas_cons_ok hrun
    have hfirst := hf (v := v) h1 (hagree.of_more hmore)
    have hrest := ih hfs h2
    rw [htypes] at hrest
    simp only [FormulaExpr.HoldAll, FormulaExpr.HoldSome, FormulaExpr.HoldNone, hfirst, hrest]
    tauto

/-- A formula is true of both states or of neither, if they agree on all that it reads. -/
theorem FormulaExpr.holds_congr (f : FormulaExpr) (hrun : readFormula store f a = .ok ((), b))
    (hagree : b.AgreeOnReads store st st') : f.Holds store st a.types v ↔ f.Holds store st' a.types v := by
  induction f generalizing a b v with
  | literal => rfl
  | not f ih => exact not_congr (ih hrun hagree)
  | and parts ih => exact (holdAll_congr ih hrun hagree).1
  | or parts ih => exact (holdAll_congr ih hrun hagree).2.1
  | equiv parts ih =>
    obtain ⟨hall, -, hnone⟩ := holdAll_congr (v := v) ih hrun hagree
    exact or_congr hall hnone
  | implies premise conclusion ihp ihc =>
    obtain ⟨⟨⟩, a1, h1, h2⟩ := bind_ok.1 hrun
    have htypes : a1.types = a.types := ((reads_readFormula store premise).of_ok h1).types
    have hsecond := ihc (v := v) h2 hagree
    rw [htypes] at hsecond
    exact imp_congr (ihp h1 (hagree.of_more ((more_readFormula store conclusion).of_ok h2))) hsecond
  | equal sets =>
    obtain ⟨l, a1, h1, h2⟩ := bind_ok.1 hrun
    cases pure_ok.1 h2
    exact exists_congr fun Xs =>
      and_congr_left' (ObjExpr.denoteAll_congr (fun e _ => ObjExpr.denotes_congr v e) h1 hagree Xs)
  | isIn set within =>
    obtain ⟨l, a1, h1, hrun⟩ := bind_ok.1 hrun
    obtain ⟨l', a2, h2, h3⟩ := bind_ok.1 hrun
    cases pure_ok.1 h3
    have htypes : a1.types = a.types := ((reads_readSet store true set).of_ok h1).types
    have hfirst := ObjExpr.denotes_congr v set h1 (hagree.of_more ((more_readSet store true within).of_ok h2))
    have hsecond := ObjExpr.denotes_congr v within h2 hagree
    rw [htypes] at hsecond
    exact exists_congr fun X => exists_congr fun Y => and_congr (hfirst X) (and_congr_left' (hsecond Y))
  | isEmpty set =>
    obtain ⟨l, a1, h1, h2⟩ := bind_ok.1 hrun
    cases pure_ok.1 h2
    exact ObjExpr.denotes_congr v set h1 hagree ∅
  | forAll qs body ih =>
    obtain ⟨a1, a2, h1, h2, rfl⟩ := readQuantifier_ok hrun
    have hagree2 : a2.AgreeOnReads store st st' := hagree
    exact (QuantVar.forAll_congr qs h1 (hagree2.of_more ((more_readFormula store body).of_ok h2)) fun _ => ih h2 hagree2).1
  | forSome qs body ih =>
    obtain ⟨a1, a2, h1, h2, rfl⟩ := readQuantifier_ok hrun
    have hagree2 : a2.AgreeOnReads store st st' := hagree
    exact (QuantVar.forAll_congr qs h1 (hagree2.of_more ((more_readFormula store body).of_ok h2)) fun _ => ih h2 hagree2).2

end Agreement

/-! ## Formulas without `unknown` make no predicate -/

/-- No symbol has been added. -/
def Session.SameSymbols (s t : Session) : Prop := t.symbols = s.symbols

instance : StepOrder Session.SameSymbols := ⟨fun _ => rfl, fun h h' => h'.trans h⟩

namespace Encode

theorem sameSymbols_member (v : ObjValue) (params : List Term) (object : Term) :
    Keeps Session.SameSymbols (member L v params object) := by
  intro s F t h
  unfold member at h
  obtain ⟨F', g, -, h⟩ := freshly_ok.1 h
  cases h
  rfl

theorem sameSymbols_binder (sort : SortId) : Keeps Session.SameSymbols (binder sort) := Keeps.modifyGet fun _ => rfl

theorem plain_sameSymbols (L : Layout) : Plain L (Keeps Session.SameSymbols) where
  toSequential := sequential_keeps
  binder := sameSymbols_binder
  member := sameSymbols_member
  objSet scope e _ _ _ h := congrArg Session.symbols ((still_objSet scope e).of_ok h).symm

end Encode

/-! ## The state that a model shows -/

namespace Structure

variable {M : Structure} {L : Layout}

/-- The states of two snapshots agree on a domain whose sort has the same slot in both. -/
theorem stateAt_agree {σ σ' : Snapshot} (h : ∀ sort, L.domainSort d = some sort → σ.slot sort = σ'.slot sort) :
    (M.stateAt L σ).Agree (M.stateAt L σ') d := by
  cases d with
  | ofClass c =>
    have hslot := h (L.classSort c) rfl
    ext e
    change (σ.slot (M.sort e)).At M [] e ∧ M.sort e = L.classSort c ∧ _ ↔ (σ'.slot (M.sort e)).At M [] e ∧ _ = _ ∧ _
    refine and_congr_left fun he => ?_
    rw [he.1, hslot]
  | ofRelation r =>
    intro x y
    refine exists_congr fun ts => exists_congr fun t => and_congr_right fun hts => and_congr_right fun _ => ?_
    have hslot := h ts.sort (by simp [Layout.domainSort, hts])
    rw [hslot]

end Structure

/-! ## Slots that are read -/

namespace Layout

variable {L : Layout}

/-- The sort of a domain of the store is one of the sorts. -/
theorem Laid.domainSort_mem (hlaid : L.Laid symbols) {d : Domain} (hd : d.Declared L.store)
    (hsort : L.domainSort d = some sort) : sort ∈ L.sorts := by
  rw [hlaid.mem_sorts]
  cases d with
  | ofClass c =>
    cases hsort
    exact hlaid.classSort_lt hd
  | ofRelation r =>
    obtain ⟨ts, hts, rfl⟩ := Option.map_eq_some_iff.1 hsort
    exact hlaid.tupleSort_lt hts

end Layout

/-! ## Both copies of an invariant -/

namespace Encode

variable {L : Layout}

/-- Among encoded formulas there is the encoding of each. -/
theorem formulas_mem : ∀ {fs : List FormulaExpr} {s t : Session}
    {Fs : List Formula}, formulas L params fs scope s = .ok (Fs, t) → f ∈ fs →
    ∃ F ∈ Fs, ∃ s1 s2, s.Quiet s1 ∧ formula L params f scope s1 = .ok (F, s2)
  | [], _, _, _, _, hf => by simp at hf
  | g :: rest, s, _, _, h, hf => by
    obtain ⟨G, s1, h1, h⟩ := bind_ok.1 h
    obtain ⟨Gs, s2, h2, h⟩ := bind_ok.1 h
    cases pure_ok.1 h
    rcases mem_cons.1 hf with rfl | hf
    · exact ⟨G, mem_cons_self, s, s1, .refl s, h1⟩
    · obtain ⟨F, hF, s3, s4, hq, hrun⟩ := formulas_mem h2 hf
      exact ⟨F, mem_cons_of_mem _ hF, s3, s4, ((quiet_formula L params g scope).of_ok h1).trans hq, hrun⟩

/-- The encoding of a closed formula without `unknown` says, in a model, that the formula is true in the state that the model
shows. -/
theorem holds_closed (hlaid : L.Laid symbols) {M : Structure} (hfits : M.Fits symbols) (hdef : f.isDefinite = true)
    (hrun : formula L [] f [] s = .ok (F, t)) (ρ : M.Env) :
    F.Holds M ρ ↔ f.Holds L.store (M.stateAt L s.snapshot) [] fun _ => ∅ := by
  obtain ⟨c, hmeans⟩ := (View.says_closed hlaid hrun).choice f (resolves_self hdef)
  have hsame : t.symbols = s.symbols := (plain_formula (plain_sameSymbols L) [] f [] (.inl hdef)).of_ok hrun
  refine hmeans M ρ hfits fun p hp hpt => ?_
  rw [hsame] at hpt
  exact absurd hpt (Nat.not_lt.2 hp)

end Encode

open Encode Analysis in
/-- A sort of the store that is not among the written ones has the same slot at the end of the action. -/
theorem Verifier.slot_of_unwritten {v : Verifier} {action : Action}
    (haligned : Flow.everywhereOf v.store (Flow.aligned v.store) action = true) (hwritten : v.writtenSorts action = some written)
    (hwalk : Encode.walk (Layout.ofStore v.store).1 action (Layout.ofStore v.store).2 = .ok ((), final))
    (hsort : sort ∈ (Layout.ofStore v.store).1.sorts) (hnot : sort ∉ written) :
    final.snapshot.slot sort = (Layout.ofStore v.store).1.initial.slot sort := by
  by_contra hchanged
  unfold writtenSorts at hwritten
  split at hwritten
  · rename_i effects heffects
    cases hwritten
    obtain ⟨⟨⟨⟩, after⟩, hafter, heq⟩ := exceptBind_ok.1 heffects
    cases heq
    obtain ⟨d, hd, hdomain⟩ := written_of_walk haligned hafter hwalk hchanged
    refine hnot (Layout.mem_sortsOf.2 ⟨hsort, d, ?_, hdomain⟩)
    exact (EffectMap.mem_domainsWith_normalize after.effects _ d).2 hd
  · cases hwritten

open Encode Analysis in
/-- A framed invariant is true in the state that a model shows finally if it is true in the one that it shows initially. -/
theorem Verifier.holds_of_framed {v : Verifier} (hspec : Store.ofSpec spec = .ok v.store) {action : Action}
    (haligned : Flow.everywhereOf v.store (Flow.aligned v.store) action = true) (hwritten : v.writtenSorts action = some written)
    {invariant : Invariant} (hframed : v.isFramed written invariant = true)
    (hwalk : Encode.walk (Layout.ofStore v.store).1 action (Layout.ofStore v.store).2 = .ok ((), final)) (M : Structure) :
    invariant.formula.Holds v.store (M.stateAt (Layout.ofStore v.store).1 (Layout.ofStore v.store).1.initial) [] (fun _ => ∅) ↔
      invariant.formula.Holds v.store (M.stateAt (Layout.ofStore v.store).1 final.snapshot) [] fun _ => ∅ := by
  unfold isFramed at hframed
  split at hframed
  · rename_i effects heffects
    obtain ⟨⟨⟨⟩, after⟩, hafter, heq⟩ := exceptBind_ok.1 heffects
    cases heq
    refine holds_congr (a := ⟨[], [], .empty⟩) invariant.formula hafter fun d hd hdeclared => ?_
    refine Structure.stateAt_agree fun sort hsort => ?_
    have hmem := (Layout.laid_ofStore (Store.wellFormed_ofSpec hspec)).domainSort_mem hdeclared hsort
    have hread := Layout.mem_sortsOf.2
      ⟨hmem, d, (EffectMap.mem_domainsWith_normalize after.effects _ d).2 hd, hsort⟩
    have hnot : sort ∉ written := by simpa using all_eq_true.1 hframed sort hread
    exact (slot_of_unwritten haligned hwritten hwalk hmem hnot).symm
  · cases hframed

open Encode in
/-- Whenever the preservation goal of an invariant without `unknown` is reported as trivial, its theory is valid: the
conjecture is true in every model of the axioms, if the analysis and the encoding of the action agree on the types
throughout. -/
theorem framed_goal_entailed (spec : Spec) (v : Verifier) (hspec : Store.ofSpec spec = .ok v.store) (action : Action)
    (haligned : Flow.everywhereOf v.store (Flow.aligned v.store) action = true) (invariant : Invariant)
    (hinvariant : invariant ∈ v.invariants) (hdefinite : invariant.formula.isDefinite = true) (written : List SortId)
    (hwritten : v.writtenSorts action = some written) (hframed : v.isFramed written invariant = true) (theory : Theory)
    (htheory : v.goalTheory action (.preserve invariant) = .ok theory) : theory.Entails := by
  obtain ⟨effects, F, final, -, hrun, rfl⟩ := preservationTheory_ok htheory
  obtain ⟨s1, s2, Fs, Gs, haction, hassumed, hchecked, rfl⟩ := preservation_ok hrun
  obtain ⟨s0, s0', hwalk, hdistinct, hfinal⟩ := action_ok haction
  have hq := (quiet.distinctAxioms.of_ok hdistinct).trans ((Keeps.forM (fun _ => quiet.finalSlot) _).of_ok hfinal)
  have hs := Store.wellFormed_ofSpec hspec
  have hlaid := Layout.laid_ofStore hs
  intro M hM G hG ρ
  -- functions are declared once and for all, so the model fits the symbols of the layout
  have hfits : M.Fits (Layout.ofStore v.store).2.symbols := by
    have hgrows := ((grows_walk _ action).of_ok hwalk).symbols.trans (hq.symbols.trans
      (((quiet_formulas _ _ _ _).of_ok hassumed).symbols.trans ((quiet_formulas _ _ _ _).of_ok hchecked).symbols))
    intro f symbol hsymbol
    exact hM.fits f symbol (by rw [hgrows.functions]; exact hsymbol)
  obtain ⟨F', hF', sF, tF, hqF, hrunF⟩ := formulas_mem hassumed (List.mem_map_of_mem hinvariant)
  have hinitial : sF.snapshot = (Layout.ofStore v.store).1.initial := hqF.snapshot
  rw [List.mem_singleton.mp hG, Formula.holds_mkImplies, Formula.holds_mkAnd, Formula.holds_mkAnd]
  intro hbefore G' hG'
  have hF := (holds_closed hlaid hfits hdefinite hrunF ρ).mp (hbefore F' hF')
  rw [hinitial] at hF
  have hafter := (v.holds_of_framed hspec haligned hwritten hframed hwalk M).mp hF
  obtain ⟨G1, t1, hrunG, hchecked⟩ := bind_ok.mp hchecked
  obtain ⟨_, _, hnil, hchecked⟩ := bind_ok.mp hchecked
  cases pure_ok.mp hnil
  cases pure_ok.mp hchecked
  rw [List.mem_singleton.mp hG']
  refine (holds_closed hlaid hfits hdefinite hrunG ρ).mpr ?_
  rw [← hq.snapshot] at hafter
  exact hafter

namespace Hotel

/-- There are rooms. -/
def openRooms : Invariant := ⟨"open rooms", .not (.isEmpty (.allOf "Room")), none⟩

/-- The hotel must have rooms. -/
def rules : Spec := { spec with invariants := [openRooms] }

/-- The verifier of the hotel. -/
def verifier : Verifier := ⟨(Store.ofSpec rules).toOption.get (by decide +kernel), .default, []⟩

/-- Whether there is a night watch is not known. -/
def nightWatch : Invariant := ⟨"night watch", .literal .unknown, none⟩

/-- A hotel without guests and rooms, of which nothing is known. -/
def closed : Verifier := ⟨(Store.ofSpec ⟨[], [], [], [nightWatch]⟩).toOption.get (by decide +kernel), .default, []⟩

/-- Nothing happens. -/
def quietDay : Action := ⟨"quiet day", [], []⟩

end Hotel

open Hotel

/-- Checking out writes guests and stays, but no rooms: that there are rooms is preserved trivially, and rightly so. -/
theorem framed_goal_entailed_checkout :
    Store.ofSpec Hotel.rules = .ok Hotel.verifier.store ∧
    Flow.everywhereOf Hotel.verifier.store (Flow.aligned Hotel.verifier.store) Hotel.checkout = true ∧
    Hotel.openRooms ∈ Hotel.verifier.invariants ∧ Hotel.openRooms.formula.isDefinite = true ∧
    ∃ written theory, Hotel.verifier.writtenSorts Hotel.checkout = some written ∧
      Hotel.verifier.isFramed written Hotel.openRooms = true ∧
      Hotel.verifier.goalTheory Hotel.checkout (.preserve Hotel.openRooms) = .ok theory ∧ theory.Entails := by
  have hspec : Store.ofSpec rules = .ok verifier.store := toOption_get_ok (by decide +kernel)
  have haligned : Flow.everywhereOf verifier.store (Flow.aligned verifier.store) checkout = true := by
    decide +kernel
  have hinvariants : verifier.invariants = [openRooms] := rfl
  have hinvariant : openRooms ∈ verifier.invariants := by rw [hinvariants]; exact List.mem_singleton.mpr rfl
  have hwritten : verifier.writtenSorts checkout = some [⟨0⟩, ⟨2⟩] := by decide +kernel
  have hframed : verifier.isFramed [⟨0⟩, ⟨2⟩] openRooms = true := by decide +kernel
  obtain ⟨theory, htheory, -⟩ := exists_ok_of_any
    (x := verifier.goalTheory checkout (.preserve openRooms)) (p := fun _ => true) (by decide +kernel)
  exact ⟨hspec, haligned, hinvariant, rfl, _, theory, hwritten, hframed, htheory,
    framed_goal_entailed rules verifier hspec checkout haligned openRooms hinvariant rfl _ hwritten
      hframed theory htheory⟩

/-- An `unknown` is not preserved, though it reads nothing: it may be true before and false after an action without effects. -/
theorem framed_unknown_not_entailed :
    ∃ theory, Hotel.closed.goalTheory Hotel.quietDay (.preserve Hotel.nightWatch) = .ok theory ∧
      Hotel.closed.isTrivial (Hotel.closed.writtenSorts Hotel.quietDay) (.preserve Hotel.nightWatch) = true ∧
      ¬ theory.Entails := by
  obtain ⟨theory, htheory, hparts⟩ := exists_ok_of_any
    (x := closed.goalTheory quietDay (.preserve nightWatch))
    (p := fun t => decide (t.symbols.functions = [] ∧ t.axioms = [] ∧ t.conjectures = [.implies (.atom ⟨0⟩ []) (.atom ⟨1⟩ [])]))
    (by decide +kernel)
  obtain ⟨hfunctions, haxioms, hconjectures⟩ := of_decide_eq_true hparts
  refine ⟨theory, htheory, by decide +kernel, fun hentails => ?_⟩
  -- only the first of the two unknown values is true
  let M : Structure := ⟨SortId, id, fun _ _ => ⟨0⟩, fun p _ => p = ⟨0⟩, fun s => ⟨s, rfl⟩⟩
  have hmodels : M.Models theory := {
    fits := by intro f symbol hsymbol; simp [hfunctions] at hsymbol
    axioms := by simp [haxioms] }
  have hconjecture := hentails M hmodels _ (by rw [hconjectures]; exact List.mem_singleton.mpr rfl) fun _ => ⟨0⟩
  simp [Formula.Holds, M] at hconjecture

end StoreCheck
