import StoreCheck.TypeError

/-!
# Encoding errors: why a goal has no theory

Besides type errors these are constructions that the encoding does not cover. The internal faults stand for states that no
specification leads to.
-/

namespace StoreCheck

/-- Why the result of a loop would hang on the order of its iterations. -/
inductive OrderFault where
  /-- An independent iteration would read variables that an earlier one assigned. -/
  | readsCarried (names : List String)
  /-- An independent iteration would see what other ones create. -/
  | readsCreated (sorts : List String)
  /-- A carried variable has no sort before the loop. -/
  | emptyBefore (name : String)
  deriving DecidableEq, Repr

def OrderFault.text : OrderFault → String
  | .readsCarried names => "reads " ++ ", ".intercalate names ++ " before reassigning it"
  | .readsCreated sorts => "reads and creates in " ++ ", ".intercalate sorts
  | .emptyBefore name => name ++ " is empty before the loop"

/-- States that no specification leads to. -/
inductive InternalFault where
  | noTupleSort (label : String)
  | noLivePredicate (var : String)
  | notOrdered (var : String)
  | boundaryOutsideChain
  | unplannedWrite (var sort : String)
  deriving DecidableEq, Repr

def InternalFault.text : InternalFault → String
  | .noTupleSort label => "relation " ++ label ++ " has no tuple sort"
  | .noLivePredicate var => "loop context for " ++ var ++ " has no type predicate"
  | .notOrdered var => "loop over " ++ var ++ " is not ordered"
  | .boundaryOutsideChain => "loop boundary outside a chained loop"
  | .unplannedWrite var sort => "loop over " ++ var ++ " changed " ++ sort ++ " outside its write set"

inductive EncodeError where
  | type (error : TypeError)
  | orderSensitiveLoop (var : String) (fault : OrderFault)
  /-- A free choice has no meaning inside a formula. -/
  | choiceInFormula
  | cardinalityTooLarge (place : String) (bound : UInt32)
  | internal (fault : InternalFault)
  deriving DecidableEq, Repr

def EncodeError.message : EncodeError → String
  | .type error => error.message
  | .orderSensitiveLoop var fault => "Order-sensitive loop over " ++ var ++ ": " ++ fault.text
  | .choiceInFormula => "Nondeterministic objset inside a formula"
  | .cardinalityTooLarge place bound =>
    "Cardinality bound " ++ toString bound.toNat ++ " in " ++ place ++ " is too large to encode"
  | .internal fault => "Internal translation error: " ++ fault.text

end StoreCheck
