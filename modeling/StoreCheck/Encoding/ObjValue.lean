import StoreCheck.Encoding.Context
import StoreCheck.Encoding.Snapshot
import StoreCheck.Store

/-!
# Object values: recipes for membership

A value says, for the parameters of a context and an object, whether the object is in a set. It refers to predicates that
never change, so a value that was computed before a statement keeps denoting the same set after it.
-/

namespace StoreCheck

/-- A set of objects, as a recipe for the formula "this object is in the set". -/
inductive ObjValue where
  | empty
  /-- The objects of a class that exist by a slot. -/
  | ofClass (c : ClassId) (slot : Slot)
  /-- The objects that satisfy a predicate over the first `depth` parameters. -/
  | pred (p : PredId) (depth : Nat)
  /-- The object that the loop of a level is at. -/
  | param (level : Nat)
  /-- A single object. -/
  | bound (t : Term)
  | union (parts : List ObjValue)
  /-- The far ends of the existing tuples whose near end is in `source`; flipped, left and right change places. -/
  | deref (source : ObjValue) (relation : RelationId) (flipped : Bool) (slot : Slot)
  /-- The value of the branch that was taken: one indicator over `depth` parameters for each value. -/
  | merge (depth : Nat) (indicators : List PredId) (values : List ObjValue)
  /-- In the first iteration of a chained loop the value before the loop, in the others the value that the iteration just
  before ended with. -/
  | boundary (context : ContextId) (before inside : ObjValue)

namespace ObjValue

mutual

/-- The two values are the same recipe. -/
def beq : ObjValue → ObjValue → Bool
  | .empty, .empty => true
  | .ofClass c s, .ofClass d t => decide (c = d) && decide (s = t)
  | .pred p m, .pred q n => decide (p = q) && decide (m = n)
  | .param m, .param n => decide (m = n)
  | .bound s, .bound t => decide (s = t)
  | .union xs, .union ys => beqAll xs ys
  | .deref x r f s, .deref y q g t => x.beq y && decide (r = q) && decide (f = g) && decide (s = t)
  | .merge m ps xs, .merge n qs ys => decide (m = n) && decide (ps = qs) && beqAll xs ys
  | .boundary c x y, .boundary d z w => decide (c = d) && x.beq z && y.beq w
  | _, _ => false

def beqAll : List ObjValue → List ObjValue → Bool
  | [], [] => true
  | x :: xs, y :: ys => x.beq y && beqAll xs ys
  | _, _ => false

end

mutual

theorem beq_iff : ∀ a b : ObjValue, a.beq b = true ↔ a = b
  | .empty, b => by cases b <;> simp [beq]
  | .ofClass c s, b => by cases b <;> simp [beq]
  | .pred p m, b => by cases b <;> simp [beq]
  | .param m, b => by cases b <;> simp [beq]
  | .bound t, b => by cases b <;> simp [beq]
  | .union xs, b => by
    cases b with
    | union ys => simp [beq, beqAll_iff xs ys]
    | _ => simp [beq]
  | .deref x r f s, b => by
    cases b with
    | deref y q g t => simp [beq, beq_iff x y, and_assoc]
    | _ => simp [beq]
  | .merge m ps xs, b => by
    cases b with
    | merge n qs ys => simp [beq, beqAll_iff xs ys, and_assoc]
    | _ => simp [beq]
  | .boundary c x y, b => by
    cases b with
    | boundary d z w => simp [beq, beq_iff x z, beq_iff y w, and_assoc]
    | _ => simp [beq]

theorem beqAll_iff : ∀ xs ys : List ObjValue, beqAll xs ys = true ↔ xs = ys
  | [], ys => by cases ys <;> simp [beqAll]
  | x :: xs, ys => by
    cases ys with
    | nil => simp [beqAll]
    | cons y ys => simp [beqAll, beq_iff x y, beqAll_iff xs ys]

end

instance : DecidableEq ObjValue := fun a b => decidable_of_iff _ (beq_iff a b)

/-- The recipe of the empty set. -/
def isEmpty : ObjValue → Bool
  | .empty => true
  | _ => false

/-- Recipes that need no predicate of their own to be referred to. -/
def isAtomic : ObjValue → Bool
  | .empty => true
  | .pred _ _ => true
  | .param _ => true
  | .bound _ => true
  | _ => false

end ObjValue

end StoreCheck
