import StoreCheck.Encoding.EncodeError
import StoreCheck.Logic.Formula

/-!
# Counting formulas

Bounds on the size of a set are written out with one variable for each element, so only small bounds are encoded.
-/

namespace StoreCheck

/-- The largest bound that is written out. -/
def maxCount : UInt32 := 8

/-- The larger of the two bounds; without an upper bound the lower one. -/
def Cardinality.largest (c : Cardinality) : UInt32 := max (c.upper.getD c.lower) c.lower

/-- Refuse bounds that are too large to be written out. -/
def Cardinality.checkCount (place : String) (c : Cardinality) : Except EncodeError Unit :=
  if c.largest > maxCount then .error (.cardinalityTooLarge place c.largest) else .ok ()

namespace Counting

/-- At least `k` elements of the sort satisfy the test. -/
def atLeast (k : Nat) (sort : SortId) (member : Term → Formula) : Fresh Formula := do
  let (binders, terms) ← VarGen.binders (List.replicate k sort)
  let distinct := (Formula.pairs terms).map fun (s, t) => Formula.mkNot (.mkEq s t)
  return .mkForSome binders (.mkAnd (terms.map member ++ distinct))

/-- At most `k` elements of the sort satisfy the test: of `k + 1` that do, two are equal. -/
def atMost (k : Nat) (sort : SortId) (member : Term → Formula) : Fresh Formula := do
  let (binders, terms) ← VarGen.binders (List.replicate (k + 1) sort)
  let equal := (Formula.pairs terms).map fun (s, t) => Formula.mkEq s t
  return .mkForAll binders (.mkImplies (.mkAnd (terms.map member)) (.mkOr equal))

end Counting

end StoreCheck
