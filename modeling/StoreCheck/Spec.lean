import StoreCheck.Class.Graph
import StoreCheck.Expr.Statement

/-!
# Specifications: the declarations of a data store

A specification lists classes, relations between them, actions that change the store and invariants that the actions should
preserve. It is plain data: nothing is checked here.
-/

namespace StoreCheck

/-- A relation from a class to a class. -/
structure RelationDecl where
  /-- The class that the relation starts from. -/
  source : String
  name : String
  target : String
  /-- How many targets each source object has. -/
  cardinality : Cardinality
  /-- The relation of the target class whose tuples this one reads backwards. -/
  inverseOf : Option String
  deriving DecidableEq, Repr

/-- A parameter of an action: a set of existing objects, chosen freely within the bounds. -/
structure Param where
  name : String
  className : String
  cardinality : Cardinality
  deriving DecidableEq, Repr

/-- A named block with parameters. -/
structure Action where
  name : String
  params : List Param
  block : Block

/-- A named formula that every action should preserve. -/
structure Invariant where
  name : String
  formula : FormulaExpr
  description : Option String

structure Spec where
  classes : List ClassDecl
  relations : List RelationDecl
  actions : List Action
  invariants : List Invariant

end StoreCheck
