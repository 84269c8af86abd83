import StoreCheck.Proofs.Encoding.SortedGoal
import StoreCheck.Proofs.Frame

/-!
# The theories of goals are well-sorted

Sorts are not part of values, so a theory is well-sorted only if the types of variables stay in step with their values. Where
alternatives meet, they can part: types are joined there without a check, the join of unrelated types is the bottom, and the
bottom is dropped by the next join. `Flow.coherent` excludes this, and under it all theories are well-sorted
(`theories_well_sorted`). Without it there is a theory that is not (`mixed_theory_ill_sorted`).
-/

namespace StoreCheck

theorem Theory.wellSorted_of_wellFormed {theory : Theory}
    (h : ∀ F ∈ theory.axioms ++ theory.conjectures, F.WellFormed id theory.symbols .empty) : theory.wellSorted = true :=
  List.all_eq_true.2 fun F hF => Formula.wellSorted_of_wellFormed (h F hF)

/-- Every theory of a goal over a valid store is well-sorted: that of a preservation goal if the alternatives in its action bind
each variable to sets of one component, that of a consistency goal in any case. -/
theorem theories_well_sorted (spec : Spec) (store : Store) (hspec : Store.ofSpec spec = .ok store) :
    (∀ (action : Action) (assumed checked : List FormulaExpr) (name : String) (theory : Theory),
      Flow.everywhereOf store (Flow.coherent store) action = true →
      preservationTheory store action assumed checked name = .ok theory → theory.wellSorted = true) ∧
    ∀ (formulas : List FormulaExpr) (name : String) (theory : Theory),
      consistencyTheory store formulas name = .ok theory → theory.wellSorted = true := by
  have hwf := Store.wellFormed_ofSpec hspec
  refine ⟨fun action assumed checked name theory hcoherent htheory => ?_, fun formulas name theory htheory => ?_⟩
  · exact Theory.wellSorted_of_wellFormed (wellFormed_preservation hwf (.inl hcoherent) htheory)
  · exact Theory.wellSorted_of_wellFormed (wellFormed_consistency hwf htheory)

namespace Hotel

/-- Something is removed: all guests, all rooms, or all guests after all. -/
def mixup : Action where
  name := "mixup"
  params := []
  block := [
    .either [[.assign "x" (.allOf "Guest")], [.assign "x" (.allOf "Room")], [.assign "x" (.allOf "Guest")]],
    .delete (.var "x")]

end Hotel

/-- The theory that checking out keeps the hotel open is well-sorted, and so is the theory that the hotel can be open. -/
theorem theories_well_sorted_checkout :
    Store.ofSpec Hotel.spec = .ok Hotel.store ∧ Flow.everywhereOf Hotel.store (Flow.coherent Hotel.store) Hotel.checkout = true ∧
    (∃ theory, preservationTheory Hotel.store Hotel.checkout [Hotel.openRooms.formula] [Hotel.openRooms.formula] "checkout" =
      .ok theory ∧ theory.wellSorted = true) ∧
    ∃ theory, consistencyTheory Hotel.store [Hotel.openRooms.formula] "open" = .ok theory ∧ theory.wellSorted = true := by
  have hspec := Hotel.ofSpec_spec
  have hcoherent : Flow.everywhereOf Hotel.store (Flow.coherent Hotel.store) Hotel.checkout = true := by decide +kernel
  obtain ⟨theory, htheory, -⟩ := exists_ok_of_any (x := preservationTheory Hotel.store Hotel.checkout
    [Hotel.openRooms.formula] [Hotel.openRooms.formula] "checkout") (p := fun _ => true) (by decide +kernel)
  obtain ⟨theory', htheory', -⟩ := exists_ok_of_any (x := consistencyTheory Hotel.store [Hotel.openRooms.formula] "open")
    (p := fun _ => true) (by decide +kernel)
  obtain ⟨hpreservation, hconsistency⟩ := theories_well_sorted Hotel.spec Hotel.store hspec
  exact ⟨hspec, hcoherent, ⟨theory, htheory, hpreservation _ _ _ _ theory hcoherent htheory⟩,
    theory', htheory', hconsistency _ _ theory' htheory'⟩

/-- The mixed variable has the type of guests, and its value also holds rooms: the theory asks of guests whether they are rooms. -/
theorem mixed_theory_ill_sorted :
    ∃ theory, preservationTheory Hotel.store Hotel.mixup [] [] "mixup" = .ok theory ∧ theory.wellSorted = false := by
  obtain ⟨theory, htheory, hsorted⟩ := exists_ok_of_any (x := preservationTheory Hotel.store Hotel.mixup [] [] "mixup")
    (p := fun t => !t.wellSorted) (by decide +kernel)
  exact ⟨theory, htheory, by simpa using hsorted⟩

end StoreCheck
