import StoreCheck.Encoding.Counting
import StoreCheck.Store

/-!
# Invariants from the bounds of relations

A relation with bounds gives an invariant: every object of the source class has at least the lower and at most the upper
number of targets. The bounds are written out with one variable for each target.
-/

namespace StoreCheck

namespace CardinalityInvariant

/-- The targets of the quantified object `x`. -/
def targets (r : Relation) : ObjExpr := .deref (.var "x") r.name

def witnesses (n : Nat) : List String := (List.range n).map fun i => "y" ++ toString (i + 1)

/-- Quantified variables that range over the targets. -/
def overTargets (r : Relation) (names : List String) : List QuantVar := names.map fun y => ⟨y, targets r⟩

/-- There are `n` different targets. -/
def atLeast (r : Relation) (n : Nat) : FormulaExpr :=
  let ys := witnesses n
  .forSome (overTargets r ys)
    (.and ((Formula.pairs ys).map fun (a, b) => .not (.equal [.var a, .var b])))

/-- Of `n + 1` targets two are equal; no target at all is said directly. -/
def atMost (r : Relation) (n : Nat) : FormulaExpr :=
  if n = 0 then .isEmpty (targets r)
  else
    let ys := witnesses (n + 1)
    .forAll (overTargets r ys) (.or ((Formula.pairs ys).map fun (a, b) => .equal [.var a, .var b]))

def ofRelation (store : Store) (r : Relation) : Invariant :=
  let c := r.cardinality
  let lower := if c.lower > 0 then [atLeast r c.lower.toNat] else []
  let upper :=
    match c.upper with
    | some u => [atMost r u.toNat]
    | none => []
  { name := store.label r ++ " cardinality"
    formula := .forAll [⟨"x", .allOf (store.graph.name r.source)⟩] (.and (lower ++ upper))
    description := some (store.label r ++ " has " ++ c.text ++ " targets") }

end CardinalityInvariant

/-- One invariant for each relation whose bounds say something, in the order of the relations. -/
def Store.cardinalityInvariants (store : Store) : Except EncodeError (List Invariant) :=
  (store.relations.filter fun r => !r.cardinality.isTrivial).mapM fun r => do
    r.cardinality.checkCount (store.label r)
    return CardinalityInvariant.ofRelation store r

end StoreCheck
