import StoreCheck.Proofs.Encoding.StateModel
import StoreCheck.Proofs.WriteSet

/-!
# Consistent formulas have a state

The theory of a consistency goal has a model exactly when some state of the store makes all formulas true, with some truth values
for the `unknown`s. A model shows a state (`Structure.view_shows`), which is sound because the model obeys the base axioms; and
the structure of a sound state (`State.model`) is a model, once the predicates of the `unknown`s have the truth values.
-/

namespace StoreCheck

open Encode FormulaExpr ClassGraph Structure

/-! ## Closed classes -/

/-- Objects belong to all ancestors of their classes if they belong to the parents. -/
theorem Universe.closed_iff {U : Universe} (h : ofDecls decls = .ok g) :
    U.Closed g ↔ ∀ c, ∀ p ∈ g.parentsOf c, ∀ o, U.isOf c o → U.isOf p o := by
  constructor
  · intro hclosed c p hp
    exact hclosed c p (parents_ofDecls h hp).2
  · intro hparents c d hd o ho
    exact ancestorsOf_induction h (P := fun d => U.isOf d o) (fun p hp => hparents c p hp o ho)
      (fun m hm p hp => hparents m p hp o hm) d hd

/-! ## The state of a model -/

namespace Structure

variable {M : Structure} {L : Layout}

/-- In a model of the base axioms objects belong to the parents of their classes. -/
theorem objects_parents (hlaid : L.Laid symbols) (h : L.Founds M) {c p : ClassId}
    (hc : c.index < L.graph.size) (hp : p ∈ L.graph.parentsOf c) (he : (M.objects L).isOf c e) : (M.objects L).isOf p e := by
  obtain ⟨hsort, hisOf⟩ := he
  obtain ⟨hplt, hcomponent⟩ := hlaid.store.graph.parents c p hp
  have hsame : L.classSort c = L.classSort p := by
    rw [hlaid.classSort_eq hc, hlaid.classSort_eq hplt]
    exact congrArg SortId.mk hcomponent.symm
  exact ⟨hsort.trans hsame, h.inherits c (mem_idsUpTo.2 hc) p hp e hsort hisOf⟩

/-- In a model of the base axioms related objects exist and belong to the classes of the relation. -/
theorem stateAt_sound (hlaid : L.Laid symbols) (hfits : M.Fits symbols) (h : L.Founds M) :
    (M.stateAt L L.initial).Sound L.store := by
  rintro r hr _ _ ⟨ts, t, hts, ht, hslot, rfl, rfl⟩
  obtain ⟨hleft, hright⟩ := (view_shows hlaid hfits .initial L.initial).ends r.id ts hts t ht
  obtain ⟨hsource, htarget⟩ := hlaid.ends_base hr hts
  have hjoins := h.joins r hr ts hts
  obtain ⟨hlive, hlive'⟩ := hjoins.ends t ht hslot
  obtain ⟨hof, hof'⟩ := hjoins.typed t ht
  refine ⟨⟨?_, hleft.trans hsource, hof⟩, ?_, hright.trans htarget, hof'⟩
  · change (L.initial.slot (M.sort _)).At M [] _
    rwa [show M.sort (ts.Left M t) = ts.source from hleft]
  · change (L.initial.slot (M.sort _)).At M [] _
    rwa [show M.sort (ts.Right M t) = ts.target from hright]

end Structure

/-! ## Asserted formulas -/

namespace View

variable {L : Layout}

/-- In the views of the initial state, to obey the axioms of asserted formulas is that the formulas are true. -/
theorem says_asserted (hlaid : L.Laid symbols) : ∀ (fs : List FormulaExpr) {s t : Session},
    s.snapshot = L.initial → fs.forM (assertInitially L) s = .ok ((), t) →
    s.Quiet t ∧ Matches (ResolveAll fs) fun c gs => ∀ (V : View) (ρ : V.M.Env), V.as = [] → V.cs = s.contexts →
      V.Shows L L.initial → V.Chosen s t c →
      (V.M.Obeys ρ t ↔ V.M.Obeys ρ s ∧ HoldAll L.store V.st gs [] fun _ => ∅)
  | [], s, t, _, hrun => by
    cases forM_nil_ok.1 hrun
    refine ⟨.refl s, .of_unique (a := []) (fun gs => by rw [ResolveAll]) fun c V ρ _ _ _ _ => ?_⟩
    simp [HoldAll]
  | f :: rest, s, t, hsnapshot, hrun => by
    obtain ⟨s1, h1, h2⟩ := forM_cons_ok.1 hrun
    obtain ⟨F, s2, h1, hemit⟩ := bind_ok.1 h1
    obtain ⟨Fs, hFs, rfl⟩ := closedFormulas_ok h1
    rw [show s.atSnapshot L.initial = s by rw [← hsnapshot]; rfl] at hFs
    have hq2 := (quiet_formulas L [] [f] []).of_ok hFs
    have hqe := (quiet_emit _).of_ok hemit
    have hq1 := hq2.trans hqe
    obtain ⟨hqt, hrest⟩ := says_asserted hlaid rest (hq1.snapshot.trans hsnapshot) h2
    obtain ⟨G, s3, hG, hFs⟩ := bind_ok.1 hFs
    obtain ⟨Gs, s4, hGs, hFs⟩ := bind_ok.1 hFs
    cases pure_ok.1 hGs
    cases pure_ok.1 hFs
    refine ⟨hq1.trans hqt, (says_formula hlaid f hG).pair (w := .cons) (k := s2.symbols.predicates.length) hrest
      (fun gs => by rw [ResolveAll]) fun c d g gs hg hgs V ρ has hcs hshows hch => ?_⟩
    have hready : V.Ready L s [] [] ρ fun _ => ∅ := {
      cs := hcs
      shows := hsnapshot ▸ hshows
      scope := ⟨fun _ _ hb => (by cases hb), fun _ _ hb => (by cases hb)⟩
      position := has.symm
      settled := by simp [Term.AllSettled] }
    have hsaid := hg V ρ _ hready (hch.left (hqe.trans hqt))
    rw [hgs V ρ has (hcs.trans hq1.table.symm) hshows ((hch.right hq2).later hqe), obeys_emit hemit, HoldAll,
      Formula.holds_mkAnd, obeys_congr (axioms_formula hG), and_assoc, List.forall_mem_singleton, hsaid]
    rfl

end View

/-! ## Models and states -/

/-- The theory of a consistency goal, with its goal negated, has a model exactly when there is a state of the store that makes all
formulas true, for some truth values of the `unknown`s. -/
theorem consistency_model_iff_state (spec : Spec) (store : Store) (fs : List FormulaExpr) (name : String) (theory : Theory)
    (hstore : Store.ofSpec spec = .ok store) (htheory : consistencyTheory store fs name = .ok theory) :
    (∃ M : Structure, M.Models theory ∧ M.Satisfies theory.negatedGoal) ↔
      ∃ (U : Universe) (st : State U) (gs : List FormulaExpr), U.Closed store.graph ∧ st.Sound store ∧
        FormulaExpr.ResolveAll fs gs ∧ FormulaExpr.HoldAll store st gs [] fun _ => ∅ := by
  obtain ⟨decls, hgraph⟩ := Store.graph_ofSpec hstore
  have hs := Store.wellFormed_ofSpec hstore
  have hlaid := Layout.laid_ofStore hs
  obtain ⟨final, hrun, rfl⟩ := consistencyTheory_ok htheory
  obtain ⟨hquiet, hmatches⟩ := View.says_asserted hlaid fs rfl hrun
  have hfunctions := hquiet.symbols.functions
  constructor
  · rintro ⟨M, hM, -⟩
    have hfits : M.Fits (Layout.ofStore store).2.symbols := fun f symbol hf => hM.fits f symbol (hfunctions ▸ hf)
    obtain ⟨ρ⟩ : Nonempty M.Env := (M.inhabited ⟨0⟩).elim fun e _ => ⟨fun _ => e⟩
    obtain ⟨gs, hgs, hmeans⟩ := hmatches.resolution fun p => M.pred p []
    have hobeys : M.Obeys ρ final := fun F hF => hM.axioms F hF ρ
    obtain ⟨hstart, hholds⟩ := (hmeans (M.view (Layout.ofStore store).1 _ _) ρ rfl rfl (view_shows hlaid hfits _ _)
      fun p _ _ => Iff.of_eq (congrArg (M.pred p) List.take_nil)).mp hobeys
    have hfounds := (Layout.obeys_start store).mp hstart
    refine ⟨_, _, gs, (Universe.closed_iff hgraph).mpr fun c p hp o ho => ?_, stateAt_sound hlaid hfits hfounds,
      hgs, hholds⟩
    exact objects_parents hlaid hfounds (parents_ofDecls hgraph hp).1 hp ho
  · rintro ⟨U, st, gs, hclosed, hsound, hgs, hholds⟩
    obtain ⟨c, hmeans⟩ := hmatches.choice gs hgs
    refine ⟨st.model store fun p _ => c p, ⟨?_, fun F hF ρ => ?_⟩, ?_⟩
    · exact fun f symbol hf => Universe.model_fits hlaid f symbol (hfunctions ▸ hf)
    · have hfounds := State.model_founds (I := fun p _ => c p) hlaid ((Universe.closed_iff hgraph).mp hclosed) hsound
      refine (hmeans (st.view store (fun p _ => c p) _) ρ rfl rfl (State.model_shows hlaid hsound _) fun p hp _ => ?_).mpr
        ⟨(Layout.obeys_start store).mpr hfounds, hholds⟩ F hF
      exact State.model_pred (hlaid.length_predicates ▸ hp) _
    · intro ρ
      simp [Theory.negatedGoal, Formula.Holds]

/-! ## A booked hotel -/

namespace Hotel

/-- Some regular guest stays in a room. Of two `unknown`s one is true and the other one is not. -/
def booked : List FormulaExpr :=
  [.not (.isEmpty (.deref (.allOf "Regular") "stays")), .literal .unknown, .not (.literal .unknown)]

/-- A regular guest and a room. -/
def guestAndRoom : Universe where
  Obj := Bool
  isOf c isRoom := if isRoom then c = ⟨2⟩ else c = ⟨0⟩ ∨ c = ⟨1⟩

/-- The guest stays in the room. -/
def stay : State guestAndRoom where
  alive _ := True
  linked id guest room := id = ⟨0⟩ ∧ guest = false ∧ room = true

/-- The theory that the hotel is booked. -/
def bookedTheory : Theory := (consistencyTheory store booked "booked").toOption.get (by decide +kernel)

/-- The ancestors of the classes, the ends of the relation, and both by name. -/
theorem stay_facts :
    store.graph.ancestors = [[], [⟨0⟩], []] ∧
    store.baseRelations.map (fun r => (r.id, r.source, r.target)) = [(⟨0⟩, ⟨0⟩, ⟨2⟩)] ∧
    store.graph.resolve "Regular" = .ok ⟨1⟩ ∧
    (store.relationOn (ObjType.ofClass ⟨1⟩).signature "stays").toOption.map (fun r => (r.base, r.flipped)) = some (⟨0⟩, false) := by
  decide +kernel

theorem guestAndRoom_closed : guestAndRoom.Closed store.graph := by
  rintro ⟨c⟩ d hd o ho
  rcases c with _ | _ | _ | c
  · cases hd
  · cases List.mem_singleton.1 hd
    cases o with
    | false => exact .inl rfl
    | true => cases ho
  · cases hd
  · cases hd

theorem stay_sound : stay.Sound store := by
  rintro r hr _ _ ⟨-, rfl, rfl⟩
  have hends := List.mem_map_of_mem (f := fun r : Relation => (r.id, r.source, r.target)) hr
  rw [stay_facts.2.1] at hends
  obtain ⟨-, hsource, htarget⟩ : r.id = ⟨0⟩ ∧ r.source = ⟨0⟩ ∧ r.target = ⟨2⟩ := by simpa using hends
  exact ⟨⟨trivial, .inl hsource⟩, trivial, htarget⟩

theorem booked_stay : HoldAll store stay
    [.not (.isEmpty (.deref (.allOf "Regular") "stays")), .literal .true, .not (.literal .false)] [] fun _ => ∅ := by
  obtain ⟨-, -, hclass, hrelation⟩ := stay_facts
  simp only [HoldAll, Holds, ObjExpr.Denotes]
  refine ⟨?_, trivial, by simp, trivial⟩
  rintro ⟨Y, t, r, ⟨c, hc, rfl⟩, ht, hr, hempty⟩
  cases hclass.symm.trans hc
  cases ht
  rw [hr] at hrelation
  obtain ⟨hbase, hflipped⟩ : r.base = ⟨0⟩ ∧ r.flipped = false := by simpa [Except.toOption] using hrelation
  have hroom : true ∈ stay.targets r (stay.ofClass ⟨1⟩) := by
    refine ⟨false, ⟨trivial, .inr rfl⟩, ?_⟩
    rw [hbase, hflipped]
    exact ⟨rfl, rfl, rfl⟩
  rw [← hempty] at hroom
  exact hroom

end Hotel

open Hotel

/-- The hotel can be booked: the theory of the formulas has a model. -/
theorem consistency_model_iff_state_booked :
    Store.ofSpec Hotel.spec = .ok Hotel.store ∧ consistencyTheory Hotel.store Hotel.booked "booked" = .ok Hotel.bookedTheory ∧
    ∃ M : Structure, M.Models Hotel.bookedTheory ∧ M.Satisfies Hotel.bookedTheory.negatedGoal := by
  have htheory : consistencyTheory store booked "booked" = .ok bookedTheory := toOption_get_ok _
  refine ⟨ofSpec_spec, htheory, ?_⟩
  refine (consistency_model_iff_state spec store booked "booked" _ ofSpec_spec htheory).mpr
    ⟨guestAndRoom, stay, _, guestAndRoom_closed, stay_sound, ?_, booked_stay⟩
  simp [booked, ResolveAll, Resolves]

end StoreCheck
