import Mathlib.Data.List.Pairwise
import Mathlib.Logic.ExistsUnique
import Mathlib.Tactic.Tauto
import StoreCheck.Logic.Theory

/-!
# The meaning of formulas

A structure has elements, each of one sort, and no sort is empty. Formulas are true or false at an assignment of elements to
variables. The simplifying constructors keep the meaning: `holds_mkAnd` and its companions say so for each of them; for the
quantifiers this is where sorts must not be empty.
-/

namespace StoreCheck

open List Formula

variable {bs : List Binder}

theorem forall_mem_pairs {α : Type} {R : α → α → Prop} (l : List α) :
    (∀ x ∈ pairs l, R x.1 x.2) ↔ l.Pairwise R := by
  induction l with
  | nil => simp [pairs]
  | cons a rest ih =>
    simp only [pairs, mem_append, mem_map, or_imp, forall_and, ih, pairwise_cons,
      forall_exists_index, and_imp, forall_apply_eq_imp_iff₂]

/-- An assignment of values to variables. -/
abbrev Valuation (α : Type) := String → α

namespace Valuation

variable {α : Type}

/-- The assignment with one variable changed. -/
def set (ρ : Valuation α) (x : String) (e : α) : Valuation α := fun y => if y = x then e else ρ y

@[simp]
theorem set_same (ρ : Valuation α) (x : String) (e : α) : ρ.set x e x = e := by simp [set]

theorem set_other (ρ : Valuation α) (e : α) (h : y ≠ x) : ρ.set x e y = ρ y := by simp [set, h]

end Valuation

/-- An interpretation of sorts, functions and predicates. -/
structure Structure where
  Elem : Type
  sort : Elem → SortId
  func : FuncId → List Elem → Elem
  pred : PredId → List Elem → Prop
  /-- No sort is empty. -/
  inhabited : ∀ s, ∃ e, sort e = s

namespace Structure

/-- The functions give elements of the sorts they are declared with. -/
def Fits (M : Structure) (symbols : Symbols) : Prop :=
  ∀ f symbol, symbols.functions[f.index]? = some symbol → ∀ args, args.map M.sort = symbol.args →
    M.sort (M.func f args) = symbol.result

/-- An assignment of elements to variables. -/
abbrev Env (M : Structure) := Valuation M.Elem

/-- The property holds for all values of the variables. -/
def ForAll (M : Structure) : List Binder → (M.Env → Prop) → M.Env → Prop
  | [], P, ρ => P ρ
  | b :: rest, P, ρ => ∀ e, M.sort e = b.sort → M.ForAll rest P (ρ.set b.name e)

/-- The property holds for some values of the variables. -/
def ForSome (M : Structure) : List Binder → (M.Env → Prop) → M.Env → Prop
  | [], P, ρ => P ρ
  | b :: rest, P, ρ => ∃ e, M.sort e = b.sort ∧ M.ForSome rest P (ρ.set b.name e)

variable {M : Structure}

/-- The two quantifiers are dual, so what holds of one is carried over to the other. -/
theorem forSome_iff_not_forAll (bs : List Binder) (P : M.Env → Prop) (ρ : M.Env) :
    M.ForSome bs P ρ ↔ ¬ M.ForAll bs (fun ρ => ¬ P ρ) ρ := by
  induction bs generalizing ρ with
  | nil => exact not_not.symm
  | cons b rest ih => simp only [ForSome, ForAll, ih, not_forall, exists_prop]

theorem forAll_append (bs cs : List Binder) (P : M.Env → Prop) (ρ : M.Env) :
    M.ForAll (bs ++ cs) P ρ ↔ M.ForAll bs (M.ForAll cs P) ρ := by
  induction bs generalizing ρ with
  | nil => rfl
  | cons b rest ih => simp only [cons_append, ForAll, ih]

theorem forSome_append (bs cs : List Binder) (P : M.Env → Prop) (ρ : M.Env) :
    M.ForSome (bs ++ cs) P ρ ↔ M.ForSome bs (M.ForSome cs P) ρ := by
  simp only [forSome_iff_not_forAll, forAll_append, not_not]

/-- Sorts are not empty, so a quantifier over a constant is the constant. -/
theorem forAll_const (bs : List Binder) (p : Prop) (ρ : M.Env) : M.ForAll bs (fun _ => p) ρ ↔ p := by
  induction bs generalizing ρ with
  | nil => rfl
  | cons b rest ih =>
    simp only [ForAll, ih]
    obtain ⟨e, he⟩ := M.inhabited b.sort
    exact ⟨fun h => h e he, fun h _ _ => h⟩

theorem forSome_const (bs : List Binder) (p : Prop) (ρ : M.Env) : M.ForSome bs (fun _ => p) ρ ↔ p := by
  rw [forSome_iff_not_forAll, forAll_const, not_not]

theorem forAll_congr (h : ∀ ρ, P ρ ↔ Q ρ) (ρ : M.Env) : M.ForAll bs P ρ ↔ M.ForAll bs Q ρ := by
  have : P = Q := funext fun ρ => propext (h ρ)
  rw [this]

theorem forSome_congr (h : ∀ ρ, P ρ ↔ Q ρ) (ρ : M.Env) : M.ForSome bs P ρ ↔ M.ForSome bs Q ρ := by
  have : P = Q := funext fun ρ => propext (h ρ)
  rw [this]

end Structure

/-! ## Terms -/

mutual

/-- The element that a term denotes. -/
def Term.eval (M : Structure) (ρ : M.Env) : Term → M.Elem
  | .var x => ρ x
  | .app f args => M.func f (Term.evalAll M ρ args)

/-- The elements that terms denote. -/
def Term.evalAll (M : Structure) (ρ : M.Env) : List Term → List M.Elem
  | [] => []
  | t :: rest => t.eval M ρ :: Term.evalAll M ρ rest

end

theorem Term.evalAll_eq_map (M : Structure) (ρ : M.Env) (ts : List Term) : Term.evalAll M ρ ts = ts.map (Term.eval M ρ) := by
  induction ts with
  | nil => rfl
  | cons t rest ih => rw [Term.evalAll, ih, map_cons]

/-! ## Formulas -/

namespace Formula

mutual

/-- The formula is true at the assignment. -/
def Holds (M : Structure) : Formula → M.Env → Prop
  | .top, _ => True
  | .bot, _ => False
  | .atom p args, ρ => M.pred p (args.map (Term.eval M ρ))
  | .eq a b, ρ => a.eval M ρ = b.eval M ρ
  | .not f, ρ => ¬ f.Holds M ρ
  | .and parts, ρ => HoldAll M parts ρ
  | .or parts, ρ => HoldSome M parts ρ
  | .implies a b, ρ => a.Holds M ρ → b.Holds M ρ
  | .iff a b, ρ => a.Holds M ρ ↔ b.Holds M ρ
  | .forAll vars body, ρ => M.ForAll vars (fun ρ => body.Holds M ρ) ρ
  | .forSome vars body, ρ => M.ForSome vars (fun ρ => body.Holds M ρ) ρ

/-- All formulas are true at the assignment. -/
def HoldAll (M : Structure) : List Formula → M.Env → Prop
  | [], _ => True
  | f :: rest, ρ => f.Holds M ρ ∧ HoldAll M rest ρ

/-- Some formula is true at the assignment. -/
def HoldSome (M : Structure) : List Formula → M.Env → Prop
  | [], _ => False
  | f :: rest, ρ => f.Holds M ρ ∨ HoldSome M rest ρ

end

attribute [local simp] Holds HoldAll HoldSome

variable {M : Structure}

theorem holdAll_iff (fs : List Formula) : HoldAll M fs ρ ↔ ∀ f ∈ fs, f.Holds M ρ := by
  induction fs with
  | nil => simp
  | cons f rest ih => simp [ih]

theorem holdSome_iff (fs : List Formula) : HoldSome M fs ρ ↔ ∃ f ∈ fs, f.Holds M ρ := by
  induction fs with
  | nil => simp
  | cons f rest ih => simp [ih]

@[simp]
theorem holds_atom (p : PredId) (args : List Term) :
    (atom p args).Holds M ρ ↔ M.pred p (args.map (Term.eval M ρ)) := by
  rw [Holds]

@[simp]
theorem holds_mkEq (a b : Term) : (mkEq a b).Holds M ρ ↔ a.eval M ρ = b.eval M ρ := by
  unfold mkEq
  split
  · rename_i h
    simp [h]
  · rw [Holds]

@[simp]
theorem holds_mkNot (f : Formula) : (mkNot f).Holds M ρ ↔ ¬ f.Holds M ρ := by
  cases f <;> simp [mkNot]

theorem holds_conjuncts (fs : List Formula) :
    match conjuncts? fs with
    | some gs => (∀ g ∈ gs, g.Holds M ρ) ↔ ∀ f ∈ fs, f.Holds M ρ
    | none => ¬ ∀ f ∈ fs, f.Holds M ρ := by
  induction fs with
  | nil => simp [conjuncts?]
  | cons f rest ih =>
    cases f <;> cases h : conjuncts? rest <;> simp_all [conjuncts?, holdAll_iff]
    grind

@[simp]
theorem holds_mkAnd (fs : List Formula) : (mkAnd fs).Holds M ρ ↔ ∀ f ∈ fs, f.Holds M ρ := by
  have h := holds_conjuncts (ρ := ρ) fs
  unfold mkAnd
  split <;> simp_all [holdAll_iff]

theorem holds_disjuncts (fs : List Formula) :
    match disjuncts? fs with
    | some gs => (∃ g ∈ gs, g.Holds M ρ) ↔ ∃ f ∈ fs, f.Holds M ρ
    | none => ∃ f ∈ fs, f.Holds M ρ := by
  induction fs with
  | nil => simp [disjuncts?]
  | cons f rest ih =>
    cases f <;> cases h : disjuncts? rest <;> simp_all [disjuncts?, holdSome_iff]
    grind

@[simp]
theorem holds_mkOr (fs : List Formula) : (mkOr fs).Holds M ρ ↔ ∃ f ∈ fs, f.Holds M ρ := by
  have h := holds_disjuncts (ρ := ρ) fs
  unfold mkOr
  split <;> simp_all [holdSome_iff]

@[simp]
theorem holds_mkImplies (a b : Formula) : (mkImplies a b).Holds M ρ ↔ (a.Holds M ρ → b.Holds M ρ) := by
  unfold mkImplies
  split <;> simp

@[simp]
theorem holds_mkIff (a b : Formula) : (mkIff a b).Holds M ρ ↔ (a.Holds M ρ ↔ b.Holds M ρ) := by
  unfold mkIff
  split
  · simp
  · simp
  · simp
  · simp
  · split
    · rename_i h
      simp [h]
    · rw [Holds]

@[simp]
theorem holds_mkForAll (vars : List Binder) (f : Formula) :
    (mkForAll vars f).Holds M ρ ↔ M.ForAll vars (f.Holds M) ρ := by
  unfold mkForAll
  split
  · exact (Structure.forAll_const vars True ρ).symm
  · exact (Structure.forAll_const vars False ρ).symm
  · split
    · rename_i h
      rw [List.isEmpty_iff.1 h]
      rfl
    · rw [Holds, Structure.forAll_append]
      rfl
  · split
    · rename_i h
      rw [List.isEmpty_iff.1 h]
      rfl
    · rw [Holds]

@[simp]
theorem holds_mkForSome (vars : List Binder) (f : Formula) :
    (mkForSome vars f).Holds M ρ ↔ M.ForSome vars (f.Holds M) ρ := by
  unfold mkForSome
  split
  · exact (Structure.forSome_const vars True ρ).symm
  · exact (Structure.forSome_const vars False ρ).symm
  · split
    · rename_i h
      rw [List.isEmpty_iff.1 h]
      rfl
    · rw [Holds, Structure.forSome_append]
      rfl
  · split
    · rename_i h
      rw [List.isEmpty_iff.1 h]
      rfl
    · rw [Holds]

theorem holds_exactlyOne (parts : List Formula) :
    (exactlyOne parts).Holds M ρ ↔
      (∃ f ∈ parts, f.Holds M ρ) ∧ parts.Pairwise fun f g => ¬ (f.Holds M ρ ∧ g.Holds M ρ) := by
  rw [exactlyOne, holds_mkAnd, ← forall_mem_pairs, forall_mem_cons, forall_mem_map]
  simp

theorem isTop_iff (f : Formula) : f.isTop = true ↔ f = .top := by
  cases f <;> simp [isTop]

end Formula

/-- Exactly one position of a list has a property iff some element has it, and no two at different positions do. -/
theorem existsUnique_get_iff {α : Type} {P : α → Prop} (l : List α) :
    (∃! i : Fin l.length, P (l.get i)) ↔ (∃ a ∈ l, P a) ∧ l.Pairwise fun a b => ¬ (P a ∧ P b) := by
  rw [pairwise_iff_get]
  constructor
  · rintro ⟨i, hi, hunique⟩
    refine ⟨⟨_, get_mem l i, hi⟩, fun j k hlt hjk => Fin.ne_of_lt hlt ?_⟩
    rw [hunique j hjk.1, hunique k hjk.2]
  · rintro ⟨⟨a, ha, hPa⟩, hpairs⟩
    obtain ⟨i, rfl⟩ := mem_iff_get.1 ha
    refine ⟨i, hPa, fun j hj => ?_⟩
    rcases Nat.lt_trichotomy j i with hlt | heq | hlt
    · exact absurd ⟨hj, hPa⟩ (hpairs j i hlt)
    · exact Fin.ext heq
    · exact absurd ⟨hPa, hj⟩ (hpairs i j hlt)

/-- In every structure, at every assignment and for all arguments, simplified or not, each simplifying constructor gives a formula
that is true exactly if the operation it stands for is. The variables of a quantifier are bound one after the other, so that a
later one hides an earlier one of its name; and one of some formulas is a matter of their positions, not of what they are. -/
theorem constructors_keep_meaning (M : Structure) (ρ : M.Env) :
    (∀ a b, (mkEq a b).Holds M ρ ↔ a.eval M ρ = b.eval M ρ) ∧
      (∀ f, (mkNot f).Holds M ρ ↔ ¬ f.Holds M ρ) ∧
      (∀ fs, (mkAnd fs).Holds M ρ ↔ ∀ f ∈ fs, f.Holds M ρ) ∧
      (∀ fs, (mkOr fs).Holds M ρ ↔ ∃ f ∈ fs, f.Holds M ρ) ∧
      (∀ f g, (mkImplies f g).Holds M ρ ↔ (f.Holds M ρ → g.Holds M ρ)) ∧
      (∀ f g, (mkIff f g).Holds M ρ ↔ (f.Holds M ρ ↔ g.Holds M ρ)) ∧
      (∀ vars f, (mkForAll vars f).Holds M ρ ↔ M.ForAll vars (f.Holds M) ρ) ∧
      (∀ vars f, (mkForSome vars f).Holds M ρ ↔ M.ForSome vars (f.Holds M) ρ) ∧
      ∀ fs, (exactlyOne fs).Holds M ρ ↔ ∃! i : Fin fs.length, (fs.get i).Holds M ρ := by
  refine ⟨holds_mkEq, holds_mkNot, holds_mkAnd, holds_mkOr, holds_mkImplies,
    holds_mkIff, holds_mkForAll, holds_mkForSome, fun fs => ?_⟩
  rw [holds_exactlyOne]
  exact (existsUnique_get_iff fs).symm

/-! ## Theories -/

namespace Structure

/-- The formula is true in the structure, whatever its free variables stand for. -/
def Satisfies (M : Structure) (f : Formula) : Prop := ∀ ρ : M.Env, f.Holds M ρ

/-- The structure is a model of the theory's axioms. -/
structure Models (M : Structure) (t : Theory) : Prop where
  fits : M.Fits t.symbols
  axioms : ∀ f ∈ t.axioms, M.Satisfies f

end Structure

/-- The conjectures are true in every model of the axioms. -/
def Theory.Entails (t : Theory) : Prop := ∀ M : Structure, M.Models t → ∀ f ∈ t.conjectures, M.Satisfies f

end StoreCheck
