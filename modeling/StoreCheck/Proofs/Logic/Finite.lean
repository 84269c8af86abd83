import StoreCheck.Proofs.Logic.Transfer

/-!
# Finite structures

In a structure with finitely many elements of each sort the truth of a formula can be computed (`Formula.check_iff`). So a table
of what the symbols stand for can be checked to be a model of a theory (`FiniteModel.models_of_checks`).
-/

namespace StoreCheck

variable {s : SortId}

/-- A structure whose sorts are finite: its elements are numbered within each sort. -/
structure FiniteModel where
  /-- The number of elements of a sort besides the first one. -/
  extra : SortId → Nat
  /-- The sort of what a function gives. -/
  result : FuncId → SortId
  func : FuncId → List Nat → Nat
  pred : PredId → List Nat → Bool

namespace FiniteModel

/-- The elements of a finite structure, by sort and number. -/
abbrev Elem (N : FiniteModel) : Type := (s : SortId) × Fin (N.extra s + 1)

/-- The structure of the table; numbers that are too large are taken back into their sort. -/
def toStructure (N : FiniteModel) : Structure where
  Elem := N.Elem
  sort e := e.1
  func f args := ⟨N.result f, Fin.ofNat _ (N.func f (args.map (·.2.val)))⟩
  pred p args := N.pred p (args.map (·.2.val)) = true
  inhabited s := ⟨⟨s, 0⟩, rfl⟩

instance (N : FiniteModel) : DecidableEq N.toStructure.Elem := inferInstanceAs (DecidableEq N.Elem)

/-- The test succeeds for all values of the variables. -/
def all (N : FiniteModel) : List Binder → (N.toStructure.Env → Bool) → N.toStructure.Env → Bool
  | [], P, ρ => P ρ
  | b :: rest, P, ρ => (List.finRange (N.extra b.sort + 1)).all fun i => N.all rest P (ρ.set b.name ⟨b.sort, i⟩)

/-- The test succeeds for some values of the variables. -/
def any (N : FiniteModel) : List Binder → (N.toStructure.Env → Bool) → N.toStructure.Env → Bool
  | [], P, ρ => P ρ
  | b :: rest, P, ρ => (List.finRange (N.extra b.sort + 1)).any fun i => N.any rest P (ρ.set b.name ⟨b.sort, i⟩)

variable {N : FiniteModel}

theorem forall_elem {P : N.Elem → Prop} : (∀ e : N.Elem, e.1 = s → P e) ↔ ∀ i, P ⟨s, i⟩ := by
  constructor
  · intro h i
    exact h ⟨s, i⟩ rfl
  · rintro h ⟨s', i⟩ rfl
    exact h i

theorem exists_elem {P : N.Elem → Prop} : (∃ e : N.Elem, e.1 = s ∧ P e) ↔ ∃ i, P ⟨s, i⟩ := by
  constructor
  · rintro ⟨⟨s', i⟩, rfl, h⟩
    exact ⟨i, h⟩
  · rintro ⟨i, h⟩
    exact ⟨⟨s, i⟩, rfl, h⟩

theorem all_iff {Q : N.toStructure.Env → Prop} (h : ∀ ρ, P ρ = true ↔ Q ρ) :
    ∀ (bs : List Binder) (ρ : N.toStructure.Env), N.all bs P ρ = true ↔ N.toStructure.ForAll bs Q ρ
  | [], ρ => h ρ
  | b :: rest, ρ => by
    rw [all, List.all_eq_true, Structure.ForAll]
    refine Iff.trans ?_ forall_elem.symm
    simp only [List.mem_finRange, forall_true_left, all_iff h rest]

theorem any_iff {Q : N.toStructure.Env → Prop} (h : ∀ ρ, P ρ = true ↔ Q ρ) :
    ∀ (bs : List Binder) (ρ : N.toStructure.Env), N.any bs P ρ = true ↔ N.toStructure.ForSome bs Q ρ
  | [], ρ => h ρ
  | b :: rest, ρ => by
    rw [any, List.any_eq_true, Structure.ForSome]
    refine Iff.trans ?_ exists_elem.symm
    simp only [List.mem_finRange, true_and, any_iff h rest]

end FiniteModel

namespace Formula

variable {N : FiniteModel}

mutual

/-- The truth of a formula in a finite structure. -/
def check (N : FiniteModel) : Formula → N.toStructure.Env → Bool
  | .top, _ => true
  | .bot, _ => false
  | .atom p args, ρ => N.pred p ((args.map (Term.eval N.toStructure ρ)).map fun e : N.Elem => e.2.val)
  | .eq a b, ρ => a.eval N.toStructure ρ = b.eval N.toStructure ρ
  | .not f, ρ => !f.check N ρ
  | .and parts, ρ => checkAll N parts ρ
  | .or parts, ρ => checkSome N parts ρ
  | .implies a b, ρ => !a.check N ρ || b.check N ρ
  | .iff a b, ρ => a.check N ρ == b.check N ρ
  | .forAll vars body, ρ => N.all vars (fun ρ => body.check N ρ) ρ
  | .forSome vars body, ρ => N.any vars (fun ρ => body.check N ρ) ρ

/-- The truth of all formulas. -/
def checkAll (N : FiniteModel) : List Formula → N.toStructure.Env → Bool
  | [], _ => true
  | f :: rest, ρ => f.check N ρ && checkAll N rest ρ

/-- The truth of some formula. -/
def checkSome (N : FiniteModel) : List Formula → N.toStructure.Env → Bool
  | [], _ => false
  | f :: rest, ρ => f.check N ρ || checkSome N rest ρ

end

mutual

/-- Truth in a finite structure can be computed. -/
theorem check_iff : ∀ (F : Formula) (ρ : N.toStructure.Env), F.check N ρ = true ↔ F.Holds N.toStructure ρ
  | .top, _ => by simp [check, Holds]
  | .bot, _ => by simp [check, Holds]
  | .atom p args, _ => by
    rfl
  | .eq a b, _ => by
    exact decide_eq_true_iff
  | .not f, ρ => by simp [check, Holds, ← check_iff f ρ]
  | .and parts, ρ => by rw [check, Holds, checkAll_iff parts ρ]
  | .or parts, ρ => by rw [check, Holds, checkSome_iff parts ρ]
  | .implies a b, ρ => by
    rw [check, Holds, ← check_iff a ρ, ← check_iff b ρ]
    cases a.check N ρ <;> simp
  | .iff a b, ρ => by
    rw [check, Holds, ← check_iff a ρ, ← check_iff b ρ]
    cases a.check N ρ <;> cases b.check N ρ <;> simp
  | .forAll vars body, ρ => by
    exact FiniteModel.all_iff (fun ρ => check_iff body ρ) vars ρ
  | .forSome vars body, ρ => by
    exact FiniteModel.any_iff (fun ρ => check_iff body ρ) vars ρ

theorem checkAll_iff : ∀ (Fs : List Formula) (ρ : N.toStructure.Env), checkAll N Fs ρ = true ↔ HoldAll N.toStructure Fs ρ
  | [], _ => by simp [checkAll, HoldAll]
  | F :: rest, ρ => by rw [checkAll, HoldAll, Bool.and_eq_true, check_iff F ρ, checkAll_iff rest ρ]

theorem checkSome_iff : ∀ (Fs : List Formula) (ρ : N.toStructure.Env), checkSome N Fs ρ = true ↔ HoldSome N.toStructure Fs ρ
  | [], _ => by simp [checkSome, HoldSome]
  | F :: rest, ρ => by rw [checkSome, HoldSome, Bool.or_eq_true, check_iff F ρ, checkSome_iff rest ρ]

end

instance (F : Formula) (ρ : N.toStructure.Env) : Decidable (F.Holds N.toStructure ρ) :=
  decidable_of_iff _ (check_iff F ρ)

/-- A closed formula is true at all assignments if it is at one. -/
theorem satisfies_of_holds {M : Structure} {F : Formula} (hF : F.WellFormed (fun _ => ⟨0⟩) symbols .empty) {ρ : M.Env}
    (h : F.Holds M ρ) : M.Satisfies F := by
  intro ρ'
  exact (holds_agreeBelow (P := M.pred) (fun _ _ => rfl) (Structure.AgreeBelow.refl _ _) hF ρ ρ').2 h

end Formula

namespace FiniteModel

/-- The assignment of the first element of the first sort to all variables. -/
def zero (N : FiniteModel) : N.toStructure.Env := fun _ => (⟨⟨0⟩, 0⟩ : N.Elem)

/-- The table makes the axioms of the theory true, and its functions give elements of the declared sorts. -/
def checks (N : FiniteModel) (theory : Theory) : Bool :=
  (theory.symbols.functions.zipIdx.all fun (symbol, i) => N.result ⟨i⟩ = symbol.result) &&
    theory.axioms.all fun F => F.check N N.zero

/-- A table that passes is a model. -/
theorem models_of_checks {N : FiniteModel} {theory : Theory}
    (hwf : ∀ F ∈ theory.axioms, F.WellFormed (fun _ => ⟨0⟩) theory.symbols .empty) (h : N.checks theory = true) :
    N.toStructure.Models theory := by
  obtain ⟨hfunctions, haxioms⟩ := Bool.and_eq_true_iff.1 h
  constructor
  · intro f symbol hsymbol args _
    have := List.all_eq_true.1 hfunctions (symbol, f.index) (List.mem_zipIdx_iff_getElem?.2 hsymbol)
    exact of_decide_eq_true this
  · intro F hF
    exact Formula.satisfies_of_holds (hwf F hF) ((Formula.check_iff F _).1 (List.all_eq_true.1 haxioms F hF))

end FiniteModel

end StoreCheck
