import StoreCheck.Logic.Symbols

/-!
# Sorted first-order formulas

Formulas are built by constructors that simplify as they go (`mkAnd`, `mkForAll`, …): they fold constants, flatten nested
junctions and merge nested quantifiers of one kind. Sorts are never empty, so a quantifier over a constant is that constant.
-/

namespace StoreCheck

/-! ## Terms -/

/-- A variable, or a function applied to terms. -/
inductive Term where
  | var (name : String)
  | app (func : FuncId) (args : List Term)

namespace Term

mutual

def beq : Term → Term → Bool
  | .var x, .var y => x == y
  | .app f xs, .app g ys => decide (f = g) && beqAll xs ys
  | _, _ => false

def beqAll : List Term → List Term → Bool
  | [], [] => true
  | x :: xs, y :: ys => x.beq y && beqAll xs ys
  | _, _ => false

end

mutual

theorem beq_iff : ∀ a b : Term, a.beq b = true ↔ a = b
  | .var x, b => by cases b <;> simp [beq]
  | .app f xs, b => by
    cases b with
    | var y => simp [beq]
    | app g ys => simp [beq, beqAll_iff xs ys]

theorem beqAll_iff : ∀ xs ys : List Term, beqAll xs ys = true ↔ xs = ys
  | [], ys => by cases ys <;> simp [beqAll]
  | x :: xs, ys => by
    cases ys with
    | nil => simp [beqAll]
    | cons y ys => simp [beqAll, beq_iff x y, beqAll_iff xs ys]

end

instance : DecidableEq Term := fun a b => decidable_of_iff _ (beq_iff a b)

end Term

/-- A bound variable with its sort. -/
structure Binder where
  name : String
  sort : SortId
  deriving DecidableEq, Repr

/-! ## Fresh variables -/

/-- The number of variables given so far; they are called `V1`, `V2`, … A symbol never starts with a capital letter. -/
structure VarGen where
  count : Nat
  deriving DecidableEq, Repr

abbrev Fresh := StateM VarGen

namespace VarGen

/-- The name of the variable with a number. -/
def nameOf (n : Nat) : String := "V" ++ toString n

def fresh : Fresh String := fun g => (nameOf (g.count + 1), ⟨g.count + 1⟩)

/-- Take a variable of a sort: the binder of the variable, and the variable as a term. -/
def binder (sort : SortId) : Fresh (Binder × Term) := do
  let name ← fresh
  return (⟨name, sort⟩, .var name)

/-- Take a variable of each sort. -/
def binders : List SortId → Fresh (List Binder × List Term)
  | [] => return ([], [])
  | s :: rest => do
    let (b, t) ← binder s
    let (bs, ts) ← binders rest
    return (b :: bs, t :: ts)

end VarGen

/-! ## Formulas -/

/-- A formula of sorted first-order logic with equality. -/
inductive Formula where
  | top
  | bot
  | atom (pred : PredId) (args : List Term)
  | eq (left right : Term)
  | not (inner : Formula)
  | and (parts : List Formula)
  | or (parts : List Formula)
  | implies (premise conclusion : Formula)
  | iff (left right : Formula)
  | forAll (vars : List Binder) (body : Formula)
  | forSome (vars : List Binder) (body : Formula)

namespace Formula

mutual

def beq : Formula → Formula → Bool
  | .top, .top => true
  | .bot, .bot => true
  | .atom p xs, .atom q ys => decide (p = q) && decide (xs = ys)
  | .eq a b, .eq c d => decide (a = c) && decide (b = d)
  | .not f, .not g => f.beq g
  | .and fs, .and gs => beqAll fs gs
  | .or fs, .or gs => beqAll fs gs
  | .implies a b, .implies c d => a.beq c && b.beq d
  | .iff a b, .iff c d => a.beq c && b.beq d
  | .forAll vs f, .forAll ws g => decide (vs = ws) && f.beq g
  | .forSome vs f, .forSome ws g => decide (vs = ws) && f.beq g
  | _, _ => false

def beqAll : List Formula → List Formula → Bool
  | [], [] => true
  | f :: fs, g :: gs => f.beq g && beqAll fs gs
  | _, _ => false

end

mutual

theorem beq_iff : ∀ a b : Formula, a.beq b = true ↔ a = b
  | .top, b => by cases b <;> simp [beq]
  | .bot, b => by cases b <;> simp [beq]
  | .atom p xs, b => by cases b <;> simp [beq]
  | .eq x y, b => by cases b <;> simp [beq]
  | .not f, b => by
    cases b with
    | not g => simp [beq, beq_iff f g]
    | _ => simp [beq]
  | .and fs, b => by
    cases b with
    | and gs => simp [beq, beqAll_iff fs gs]
    | _ => simp [beq]
  | .or fs, b => by
    cases b with
    | or gs => simp [beq, beqAll_iff fs gs]
    | _ => simp [beq]
  | .implies f g, b => by
    cases b with
    | implies h k => simp [beq, beq_iff f h, beq_iff g k]
    | _ => simp [beq]
  | .iff f g, b => by
    cases b with
    | iff h k => simp [beq, beq_iff f h, beq_iff g k]
    | _ => simp [beq]
  | .forAll vs f, b => by
    cases b with
    | forAll ws g => simp [beq, beq_iff f g]
    | _ => simp [beq]
  | .forSome vs f, b => by
    cases b with
    | forSome ws g => simp [beq, beq_iff f g]
    | _ => simp [beq]

theorem beqAll_iff : ∀ fs gs : List Formula, beqAll fs gs = true ↔ fs = gs
  | [], gs => by cases gs <;> simp [beqAll]
  | f :: fs, gs => by
    cases gs with
    | nil => simp [beqAll]
    | cons g gs => simp [beqAll, beq_iff f g, beqAll_iff fs gs]

end

instance : DecidableEq Formula := fun a b => decidable_of_iff _ (beq_iff a b)

/-! ## Simplifying constructors -/

def isTop : Formula → Bool
  | .top => true
  | _ => false

/-- Equality; a term is equal to itself. -/
def mkEq (left right : Term) : Formula := if left = right then .top else .eq left right

/-- Negation; constants are folded and two negations cancel. -/
def mkNot : Formula → Formula
  | .top => .bot
  | .bot => .top
  | .not f => f
  | f => .not f

/-- The parts of a conjunction, nested conjunctions flattened: none if a part is false. -/
def conjuncts? : List Formula → Option (List Formula)
  | [] => some []
  | .top :: rest => conjuncts? rest
  | .bot :: _ => none
  | .and inner :: rest => (conjuncts? rest).map (inner ++ ·)
  | f :: rest => (conjuncts? rest).map (f :: ·)

/-- Conjunction; no part at all is true, a single part stands for itself. -/
def mkAnd (parts : List Formula) : Formula :=
  match conjuncts? parts with
  | none => .bot
  | some [] => .top
  | some [f] => f
  | some fs => .and fs

/-- The parts of a disjunction, nested disjunctions flattened: none if a part is true. -/
def disjuncts? : List Formula → Option (List Formula)
  | [] => some []
  | .bot :: rest => disjuncts? rest
  | .top :: _ => none
  | .or inner :: rest => (disjuncts? rest).map (inner ++ ·)
  | f :: rest => (disjuncts? rest).map (f :: ·)

/-- Disjunction; no part at all is false, a single part stands for itself. -/
def mkOr (parts : List Formula) : Formula :=
  match disjuncts? parts with
  | none => .top
  | some [] => .bot
  | some [f] => f
  | some fs => .or fs

/-- Implication; constants are folded. -/
def mkImplies : Formula → Formula → Formula
  | .top, c => c
  | .bot, _ => .top
  | _, .top => .top
  | p, .bot => mkNot p
  | p, c => .implies p c

/-- Equivalence; constants are folded and a formula is equivalent to itself. -/
def mkIff : Formula → Formula → Formula
  | .top, f => f
  | f, .top => f
  | .bot, f => mkNot f
  | f, .bot => mkNot f
  | l, r => if l = r then .top else .iff l r

/-- Universal quantification; constants absorb it and nested ones are merged. -/
def mkForAll (vars : List Binder) : Formula → Formula
  | .top => .top
  | .bot => .bot
  | .forAll inner body => if vars.isEmpty then .forAll inner body else .forAll (vars ++ inner) body
  | body => if vars.isEmpty then body else .forAll vars body

/-- Existential quantification; constants absorb it and nested ones are merged. -/
def mkForSome (vars : List Binder) : Formula → Formula
  | .top => .top
  | .bot => .bot
  | .forSome inner body => if vars.isEmpty then .forSome inner body else .forSome (vars ++ inner) body
  | body => if vars.isEmpty then body else .forSome vars body

/-- All pairs of an element and a later one. -/
def pairs {α : Type} : List α → List (α × α)
  | [] => []
  | a :: rest => rest.map (fun b => (a, b)) ++ pairs rest

/-- Some part holds, and no two parts do. -/
def exactlyOne (parts : List Formula) : Formula :=
  mkAnd (mkOr parts :: (pairs parts).map fun (f, g) => mkNot (mkAnd [f, g]))

/-! ## Measures -/

mutual

/-- The number of connectives, quantifiers and atomic formulas. -/
def size : Formula → Nat
  | .top => 1
  | .bot => 1
  | .atom _ _ => 1
  | .eq _ _ => 1
  | .not f => 1 + f.size
  | .and parts => 1 + sizeAll parts
  | .or parts => 1 + sizeAll parts
  | .implies a b => 1 + a.size + b.size
  | .iff a b => 1 + a.size + b.size
  | .forAll _ body => 1 + body.size
  | .forSome _ body => 1 + body.size

def sizeAll : List Formula → Nat
  | [] => 0
  | f :: rest => f.size + sizeAll rest

end

mutual

/-- The predicates of the formula, one for each occurrence. -/
def occurrences : Formula → List PredId
  | .top => []
  | .bot => []
  | .atom p _ => [p]
  | .eq _ _ => []
  | .not f => f.occurrences
  | .and parts => occurrencesAll parts
  | .or parts => occurrencesAll parts
  | .implies a b => a.occurrences ++ b.occurrences
  | .iff a b => a.occurrences ++ b.occurrences
  | .forAll _ body => body.occurrences
  | .forSome _ body => body.occurrences

def occurrencesAll : List Formula → List PredId
  | [] => []
  | f :: rest => f.occurrences ++ occurrencesAll rest

end

/-- The predicates of the formula, each once, in the order of the symbol table. -/
def predicates (f : Formula) : List PredId :=
  f.occurrences.eraseDups.mergeSort fun p q => decide (p.index ≤ q.index)

end Formula

end StoreCheck
