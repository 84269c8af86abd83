import StoreCheck.Text.Quoted

/-!
# Object-set expressions

An expression denotes a set of objects of the store: all objects of a class, the value of a variable or of a loop's
iterator, some part of a set, one element of a set, a union, or the objects that a relation leads to.
-/

namespace StoreCheck

/-- An expression for a set of objects. -/
inductive ObjExpr where
  /-- All existing objects of a class. -/
  | allOf (className : String)
  | var (name : String)
  /-- Some part of a set, chosen freely. -/
  | subset (source : ObjExpr)
  /-- One element of a set, chosen freely; nothing when the set is empty. -/
  | oneOf (source : ObjExpr)
  | union (parts : List ObjExpr)
  /-- The objects that a relation leads to from the objects of a set. -/
  | deref (source : ObjExpr) (relation : String)
  /-- The object of the current iteration of a loop. -/
  | iterator (name : String)

namespace ObjExpr

mutual

/-- The variables and iterators that the expression reads. -/
def reads : ObjExpr → List String
  | .allOf _ => []
  | .var name => [name]
  | .iterator name => [name]
  | .subset source => source.reads
  | .oneOf source => source.reads
  | .union parts => readsAll parts
  | .deref source _ => source.reads

def readsAll : List ObjExpr → List String
  | [] => []
  | e :: rest => e.reads ++ readsAll rest

end

mutual

/-- The expression as it is shown in messages: its form, and its parts by name. -/
def text : ObjExpr → String
  | .allOf className => "AllOf \x7b class: " ++ Text.quote className ++ " \x7d"
  | .var name => "Var \x7b name: " ++ Text.quote name ++ " \x7d"
  | .subset source => "Subset \x7b of: " ++ source.text ++ " \x7d"
  | .oneOf source => "OneOf \x7b of: " ++ source.text ++ " \x7d"
  | .union parts => "Union \x7b parts: [" ++ ", ".intercalate (textAll parts) ++ "] \x7d"
  | .deref source relation => "Deref \x7b from: " ++ source.text ++ ", relation: " ++ Text.quote relation ++ " \x7d"
  | .iterator name => "Iterator \x7b name: " ++ Text.quote name ++ " \x7d"

def textAll : List ObjExpr → List String
  | [] => []
  | e :: rest => e.text :: textAll rest

end

mutual

/-- The expression denotes only objects that the running action has created, given which variables do. -/
def isLocal (locals : String → Bool) : ObjExpr → Bool
  | .allOf _ => false
  | .var name => locals name
  | .iterator name => locals name
  | .subset source => source.isLocal locals
  | .oneOf source => source.isLocal locals
  | .union parts => allLocal locals parts
  | .deref source _ => source.isLocal locals

def allLocal (locals : String → Bool) : List ObjExpr → Bool
  | [] => true
  | e :: rest => e.isLocal locals && allLocal locals rest

end

end ObjExpr

end StoreCheck
