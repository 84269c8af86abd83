/-!
# Cardinality: bounds on how many objects a set holds

A cardinality is a lower bound and an upper bound, where the upper bound may be absent: the set then holds many objects.
Bounds are 32-bit words. Sums that leave the word range lose precision and stay sound: a lower sum stops at the largest
word, an upper sum becomes "many".
-/

namespace StoreCheck

/-- The number of objects of a set: at least `lower` and, unless `upper` is absent, at most `upper`. -/
structure Cardinality where
  lower : UInt32
  upper : Option UInt32
  deriving DecidableEq, Repr

namespace Cardinality

/-! ## Named bounds -/

def one : Cardinality := ⟨1, some 1⟩

def optional : Cardinality := ⟨0, some 1⟩

def any : Cardinality := ⟨0, none⟩

def empty : Cardinality := ⟨0, some 0⟩

/-! ## Tests -/

/-- The bounds admit some size: the lower one does not exceed the upper one. -/
def isValid (c : Cardinality) : Bool :=
  match c.upper with
  | some u => c.lower ≤ u
  | none => true

def isSingleton (c : Cardinality) : Bool := c.lower == 1 && c.upper == some 1

def atMostOne (c : Cardinality) : Bool :=
  match c.upper with
  | some u => u ≤ 1
  | none => false

/-- The bounds say nothing: zero to many. -/
def isTrivial (c : Cardinality) : Bool := c.lower == 0 && c.upper.isNone

/-! ## Bounds of combined sets -/

/-- The sum of two words, or the largest word when the sum is out of range. -/
def addSaturating (a b : UInt32) : UInt32 :=
  if a.toNat + b.toNat < UInt32.size then a + b else 4294967295

/-- The sum of two words when it is in range. -/
def addExact? (a b : UInt32) : Option UInt32 :=
  if a.toNat + b.toNat < UInt32.size then some (a + b) else none

/-- Bounds of any part of the set. -/
def subset (c : Cardinality) : Cardinality := ⟨0, c.upper⟩

/-- The tightest bounds that cover both: the set is bounded by one or by the other. -/
def cover (a b : Cardinality) : Cardinality where
  lower := min a.lower b.lower
  upper :=
    match a.upper, b.upper with
    | some x, some y => some (max x y)
    | _, _ => none

/-- Bounds of a set that obeys both. -/
def inter (a b : Cardinality) : Cardinality where
  lower := max a.lower b.lower
  upper :=
    match a.upper, b.upper with
    | some x, some y => some (min x y)
    | some x, none => some x
    | none, y => y

/-- Bounds of a union of disjoint sets. -/
def add (a b : Cardinality) : Cardinality where
  lower := addSaturating a.lower b.lower
  upper :=
    match a.upper, b.upper with
    | some x, some y => addExact? x y
    | _, _ => none

/-- Bounds of a union of sets that may overlap. -/
def union (a b : Cardinality) : Cardinality := ⟨max a.lower b.lower, (add a b).upper⟩

/-! ## Text -/

/-- The bounds as text: `[1, 2]`, or `[1, many]` without an upper bound. -/
def text (c : Cardinality) : String :=
  match c.upper with
  | some u => "[" ++ toString c.lower.toNat ++ ", " ++ toString u.toNat ++ "]"
  | none => "[" ++ toString c.lower.toNat ++ ", many]"

end Cardinality

end StoreCheck
