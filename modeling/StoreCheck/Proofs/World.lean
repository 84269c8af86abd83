import Mathlib.Data.Set.Insert
import StoreCheck.Typing

/-!
# Concrete stores: what expressions and formulas mean

A universe has the objects that may exist, each with its classes. A state of the store says which objects exist and which are
related. An expression denotes a set of objects; where it chooses freely it may denote several sets. A formula is true or false
of a state. Which relation a name stands for depends on the static type of the set that it is applied to, so meanings depend on
the types of the variables as well as on their values.

An `unknown` inside a formula may be true or false: the formula stands for each formula in which every `unknown` is replaced by
a truth value (`FormulaExpr.Resolves`).
-/

namespace StoreCheck

variable {fs : List FormulaExpr}

/-- The objects that may exist, and the classes each belongs to. -/
structure Universe where
  Obj : Type
  isOf : ClassId → Obj → Prop

/-- A state of the store: the objects that exist, and the pairs that each base relation relates. -/
@[ext]
structure State (U : Universe) where
  alive : U.Obj → Prop
  linked : RelationId → U.Obj → U.Obj → Prop

/-- The values of the variables. -/
abbrev Vars (U : Universe) := String → Set U.Obj

variable {U : Universe}

/-- The values with one variable changed. -/
def Vars.set (vars : Vars U) (x : String) (X : Set U.Obj) : Vars U := fun y => if y = x then X else vars y

theorem Vars.set_same (vars : Vars U) (x : String) (X : Set U.Obj) : vars.set x X x = X := by simp [Vars.set]

theorem Vars.set_other (vars : Vars U) (X : Set U.Obj) (h : y ≠ x) : vars.set x X y = vars y := by
  simp [Vars.set, h]

namespace State

/-- The existing objects of a class. -/
def ofClass (st : State U) (c : ClassId) : Set U.Obj := {o | st.alive o ∧ U.isOf c o}

/-- The relation leads from the first object to the second one. -/
def Leads (st : State U) (base : RelationId) (flipped : Bool) (a b : U.Obj) : Prop :=
  if flipped then st.linked base b a else st.linked base a b

/-- The objects that the relation leads to from the objects of a set. -/
def targets (st : State U) (r : Relation) (X : Set U.Obj) : Set U.Obj := {b | ∃ a ∈ X, st.Leads r.base r.flipped a b}

end State

/-! ## States of a store -/

/-- Objects belong to the ancestors of their classes. -/
def Universe.Closed (U : Universe) (g : ClassGraph) : Prop := ∀ c, ∀ d ∈ g.ancestorsOf c, ∀ o, U.isOf c o → U.isOf d o

/-- Related objects exist and belong to the classes of the relation. -/
def State.Sound (st : State U) (store : Store) : Prop := ∀ r ∈ store.baseRelations, ∀ a b, st.linked r.id a b →
  a ∈ st.ofClass r.source ∧ b ∈ st.ofClass r.target

/-! ## Expressions -/

namespace ObjExpr

/-- The set holds one of the objects, or nothing when there are none. -/
def Picks (X Y : Set U.Obj) : Prop := Y ⊆ X ∧ (X.Nonempty → Y.Nonempty) ∧ ∀ a ∈ Y, ∀ b ∈ Y, a = b

mutual

/-- The expression may denote the set. -/
def Denotes (store : Store) (types : TypeEnv) (st : State U) (vars : Vars U) : ObjExpr → Set U.Obj → Prop
  | .allOf className, X => ∃ c, store.graph.resolve className = .ok c ∧ X = st.ofClass c
  | .var name, X => X = vars name
  | .iterator name, X => X = vars name
  | .subset source, X => ∃ Y, source.Denotes store types st vars Y ∧ X ⊆ Y
  | .oneOf source, X => ∃ Y, source.Denotes store types st vars Y ∧ Picks Y X
  | .union parts, X => ∃ Xs, DenoteAll store types st vars parts Xs ∧ X = {o | ∃ Y ∈ Xs, o ∈ Y}
  | .deref source relation, X => ∃ Y t r, source.Denotes store types st vars Y ∧ infer store types source = .ok t ∧
      store.relationOn t.signature relation = .ok r ∧ X = st.targets r Y

/-- The expressions may denote the sets, one each. -/
def DenoteAll (store : Store) (types : TypeEnv) (st : State U) (vars : Vars U) : List ObjExpr → List (Set U.Obj) → Prop
  | [], Xs => Xs = []
  | e :: rest, Xs => ∃ X Ys, Xs = X :: Ys ∧ e.Denotes store types st vars X ∧ DenoteAll store types st vars rest Ys

end

end ObjExpr

/-! ## Formulas -/

namespace QuantVar

/-- The property holds for all objects of the domains, one after another. -/
def ForAll (store : Store) (st : State U) (P : TypeEnv → Vars U → Prop) : List QuantVar → TypeEnv → Vars U → Prop
  | [], types, vars => P types vars
  | v :: rest, types, vars => ∃ t X, infer store types v.domain = .ok t ∧ v.domain.Denotes store types st vars X ∧
      ∀ o ∈ X, ForAll store st P rest (types.insert v.name t.single) (vars.set v.name {o})

/-- The property holds for some objects of the domains, one after another. -/
def ForSome (store : Store) (st : State U) (P : TypeEnv → Vars U → Prop) : List QuantVar → TypeEnv → Vars U → Prop
  | [], types, vars => P types vars
  | v :: rest, types, vars => ∃ t X, infer store types v.domain = .ok t ∧ v.domain.Denotes store types st vars X ∧
      ∃ o ∈ X, ForSome store st P rest (types.insert v.name t.single) (vars.set v.name {o})

end QuantVar

namespace FormulaExpr

mutual

/-- The formula is true of the state. -/
def Holds (store : Store) (st : State U) : FormulaExpr → TypeEnv → Vars U → Prop
  | .literal value, _, _ => value = .true
  | .not f, types, vars => ¬ f.Holds store st types vars
  | .and parts, types, vars => HoldAll store st parts types vars
  | .or parts, types, vars => HoldSome store st parts types vars
  | .implies premise conclusion, types, vars => premise.Holds store st types vars → conclusion.Holds store st types vars
  | .equiv parts, types, vars => HoldAll store st parts types vars ∨ HoldNone store st parts types vars
  | .equal sets, types, vars => ∃ Xs, ObjExpr.DenoteAll store types st vars sets Xs ∧ ∀ X ∈ Xs, ∀ Y ∈ Xs, X = Y
  | .isIn set within, types, vars => ∃ X Y, set.Denotes store types st vars X ∧ within.Denotes store types st vars Y ∧ X ⊆ Y
  | .isEmpty set, types, vars => set.Denotes store types st vars ∅
  | .forAll qs body, types, vars => QuantVar.ForAll store st (fun types vars => body.Holds store st types vars) qs types vars
  | .forSome qs body, types, vars => QuantVar.ForSome store st (fun types vars => body.Holds store st types vars) qs types vars

/-- All formulas are true of the state. -/
def HoldAll (store : Store) (st : State U) : List FormulaExpr → TypeEnv → Vars U → Prop
  | [], _, _ => True
  | f :: rest, types, vars => f.Holds store st types vars ∧ HoldAll store st rest types vars

/-- Some formula is true of the state. -/
def HoldSome (store : Store) (st : State U) : List FormulaExpr → TypeEnv → Vars U → Prop
  | [], _, _ => False
  | f :: rest, types, vars => f.Holds store st types vars ∨ HoldSome store st rest types vars

/-- No formula is true of the state. -/
def HoldNone (store : Store) (st : State U) : List FormulaExpr → TypeEnv → Vars U → Prop
  | [], _, _ => True
  | f :: rest, types, vars => ¬ f.Holds store st types vars ∧ HoldNone store st rest types vars

end

theorem holdAll_iff {store : Store} {st : State U} {types : TypeEnv} {vars : Vars U} :
    HoldAll store st fs types vars ↔ ∀ f ∈ fs, f.Holds store st types vars := by
  induction fs with
  | nil => simp [HoldAll]
  | cons f rest ih => simp [HoldAll, ih]

theorem holdSome_iff {store : Store} {st : State U} {types : TypeEnv} {vars : Vars U} :
    HoldSome store st fs types vars ↔ ∃ f ∈ fs, f.Holds store st types vars := by
  induction fs with
  | nil => simp [HoldSome]
  | cons f rest ih => simp [HoldSome, ih]

/-! ## Unknown truth values -/

mutual

/-- The second formula is the first one with a truth value in place of every `unknown`. -/
def Resolves : FormulaExpr → FormulaExpr → Prop
  | .literal .unknown, g => g = .literal .true ∨ g = .literal .false
  | .literal value, g => g = .literal value
  | .not f, g => ∃ f', g = .not f' ∧ f.Resolves f'
  | .and parts, g => ∃ parts', g = .and parts' ∧ ResolveAll parts parts'
  | .or parts, g => ∃ parts', g = .or parts' ∧ ResolveAll parts parts'
  | .implies p c, g => ∃ p' c', g = .implies p' c' ∧ p.Resolves p' ∧ c.Resolves c'
  | .equiv parts, g => ∃ parts', g = .equiv parts' ∧ ResolveAll parts parts'
  | .equal sets, g => g = .equal sets
  | .isIn set within, g => g = .isIn set within
  | .isEmpty set, g => g = .isEmpty set
  | .forAll qs body, g => ∃ body', g = .forAll qs body' ∧ body.Resolves body'
  | .forSome qs body, g => ∃ body', g = .forSome qs body' ∧ body.Resolves body'

/-- The formulas are resolved one by one. -/
def ResolveAll : List FormulaExpr → List FormulaExpr → Prop
  | [], gs => gs = []
  | f :: rest, gs => ∃ f' rest', gs = f' :: rest' ∧ f.Resolves f' ∧ ResolveAll rest rest'

end

end FormulaExpr

end StoreCheck
