import StoreCheck.Expr.ObjExpr

/-!
# Formula expressions: what invariants and conditions say about a store

The free names of a formula leave out those that its quantifiers bind. The variables of one quantifier are bound in order:
a later domain may mention an earlier variable.
-/

namespace StoreCheck

/-- A truth value; `unknown` may be either one. -/
inductive Truth where
  | true
  | false
  | unknown
  deriving DecidableEq, Repr

/-- A quantified variable and the set it ranges over. -/
structure QuantVar where
  name : String
  domain : ObjExpr

/-- A formula over object-set expressions. -/
inductive FormulaExpr where
  | literal (value : Truth)
  | not (formula : FormulaExpr)
  | and (parts : List FormulaExpr)
  | or (parts : List FormulaExpr)
  | implies (premise conclusion : FormulaExpr)
  /-- All parts have the same truth value. -/
  | equiv (parts : List FormulaExpr)
  | equal (sets : List ObjExpr)
  /-- The first set is a part of the second one. -/
  | isIn (set within : ObjExpr)
  | isEmpty (set : ObjExpr)
  | forAll (vars : List QuantVar) (body : FormulaExpr)
  | forSome (vars : List QuantVar) (body : FormulaExpr)

/-- The names that the domains of quantified variables read, less the variables bound before each of them. -/
def domainReads : List String → List QuantVar → List String
  | _, [] => []
  | bound, v :: rest => v.domain.reads.filter (· ∉ bound) ++ domainReads (v.name :: bound) rest

/-- The names that a quantifier reads from outside, given those that its body reads. -/
def quantifierReads (vars : List QuantVar) (bodyReads : List String) : List String :=
  domainReads [] vars ++ bodyReads.filter (· ∉ vars.map (·.name))

namespace FormulaExpr

mutual

/-- The variables that the formula reads from outside. -/
def reads : FormulaExpr → List String
  | .literal _ => []
  | .not f => f.reads
  | .and parts => readsAll parts
  | .or parts => readsAll parts
  | .equiv parts => readsAll parts
  | .implies premise conclusion => premise.reads ++ conclusion.reads
  | .equal sets => ObjExpr.readsAll sets
  | .isIn set within => set.reads ++ within.reads
  | .isEmpty set => set.reads
  | .forAll vars body => quantifierReads vars body.reads
  | .forSome vars body => quantifierReads vars body.reads

def readsAll : List FormulaExpr → List String
  | [] => []
  | f :: rest => f.reads ++ readsAll rest

end

end FormulaExpr

end StoreCheck
