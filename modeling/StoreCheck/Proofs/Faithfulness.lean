import StoreCheck.Proofs.Encoding.FormulaMeaning
import StoreCheck.Proofs.WriteSet

/-!
# Closed formulas are encoded faithfully

A structure shows a state of the store: its elements are the objects, the slots of a snapshot say which objects and tuples exist
(`Structure.stateAt`). The encoding of a closed formula at the snapshot is true in the structure exactly when the formula is true
of that state (`FormulaExpr.Holds`). An `unknown` may be true or false: it becomes a predicate of its own, so the truth values of
the new predicates and the ways to replace the `unknown`s by truth values match.
-/

namespace StoreCheck

/-- The encoding of a closed formula, made between two sessions, is true in every structure that gives the new predicates the
chosen truth values exactly when the second formula is true of the state that the structure shows by the snapshot. -/
def Encode.SaysOfStates (store : Store) (s t : Session) (F : Formula) (choice : PredId → Prop) (g : FormulaExpr) : Prop :=
  ∀ (M : Structure) (ρ : M.Env), M.Fits (Layout.ofStore store).2.symbols →
    (∀ p : PredId, s.symbols.predicates.length ≤ p.index → p.index < t.symbols.predicates.length → (M.pred p [] ↔ choice p)) →
    (F.Holds M ρ ↔ g.Holds store (M.stateAt (Layout.ofStore store).1 s.snapshot) [] fun _ => ∅)

/-- For every valid store, every closed formula and every session from which it is encoded: in every structure the encoding is
true exactly when the formula is true of the state that the structure shows by the session's snapshot, where truth values stand
in place of the `unknown`s. Any truth values will do: those that the new predicates have stand for some replacement, and every
replacement is what some truth values of the new predicates stand for. -/
theorem closed_formulas_faithful (spec : Spec) (store : Store) (hspec : Store.ofSpec spec = .ok store) (f : FormulaExpr)
    (s t : Session) (F : Formula) (hrun : Encode.formula (Layout.ofStore store).1 [] f [] s = .ok (F, t)) :
    (∀ choice, ∃ g, f.Resolves g ∧ Encode.SaysOfStates store s t F choice g) ∧
      ∀ g, f.Resolves g → ∃ choice, Encode.SaysOfStates store s t F choice g := by
  have hmatches := View.says_closed (Layout.laid_ofStore (Store.wellFormed_ofSpec hspec)) hrun
  exact ⟨hmatches.resolution, hmatches.choice⟩

namespace Hotel

/-- Every guest who has a room shares it with nobody, or the rules are not known. -/
def undisturbed : FormulaExpr :=
  .or [.literal .unknown,
    .forAll [⟨"g", .allOf "Guest"⟩, ⟨"r", .deref (.var "g") "stays"⟩] (.equal [.deref (.var "r") "guests", .var "g"])]

end Hotel

/-- That guests are undisturbed, if this is a rule, is said of the state that a structure shows. -/
theorem closed_formulas_faithful_undisturbed :
    Store.ofSpec Hotel.spec = .ok Hotel.store ∧
    ∃ F t, Encode.formula (Layout.ofStore Hotel.store).1 [] Hotel.undisturbed [] (Layout.ofStore Hotel.store).2 = .ok (F, t) ∧
      (∀ choice, ∃ g, Hotel.undisturbed.Resolves g ∧
        Encode.SaysOfStates Hotel.store (Layout.ofStore Hotel.store).2 t F choice g) ∧
      ∀ g, Hotel.undisturbed.Resolves g →
        ∃ choice, Encode.SaysOfStates Hotel.store (Layout.ofStore Hotel.store).2 t F choice g := by
  obtain ⟨⟨F, t⟩, hrun, -⟩ := exists_ok_of_any
    (x := Encode.formula (Layout.ofStore Hotel.store).1 [] Hotel.undisturbed [] (Layout.ofStore Hotel.store).2)
    (p := fun _ => true) (by decide +kernel)
  exact ⟨Hotel.ofSpec_spec, F, t, hrun, closed_formulas_faithful Hotel.spec Hotel.store Hotel.ofSpec_spec _ _ _ _ hrun⟩

end StoreCheck
