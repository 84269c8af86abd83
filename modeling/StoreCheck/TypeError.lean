import StoreCheck.Cardinality

/-!
# Type errors: why a specification or an expression is refused

Each cause is a constructor with the names it is about; `TypeError.message` is the only place that words them.
-/

namespace StoreCheck

/-- The declarations that are addressed by name alone. -/
inductive DeclKind where
  | action
  | invariant
  deriving DecidableEq, Repr

def DeclKind.text : DeclKind → String
  | .action => "action"
  | .invariant => "invariant"

/-- Why a relation cannot be read as the inverse of another one. -/
inductive InverseFault where
  | itself
  /-- The base relation does not lead back to the class the inverse starts from. -/
  | notBack (base source : String)
  deriving DecidableEq, Repr

def InverseFault.text : InverseFault → String
  | .itself => "a relation cannot be its own inverse"
  | .notBack base source => base ++ " does not point back to " ++ source

/-- Why a specification, or an expression over it, is refused. -/
inductive TypeError where
  | unknownClass (name : String)
  | duplicateClass (name : String)
  | cyclicInheritance (name : String)
  | incompatibleTypes (left right : String)
  | relationNotFound (relation typeName : String)
  | duplicateRelation (className relation : String)
  | inverseOfInverse (relation inverse : String)
  | inverseMismatch (relation inverse : String) (fault : InverseFault)
  | invalidCardinality (place : String) (cardinality : Cardinality)
  | duplicateDeclaration (kind : DeclKind) (name : String)
  | undefinedVariable (name : String)
  | unknownAction (name : String)
  | unknownInvariant (name : String)
  deriving DecidableEq, Repr

def TypeError.message : TypeError → String
  | .unknownClass name => "Unknown class: " ++ name
  | .duplicateClass name => "Duplicate class: " ++ name
  | .cyclicInheritance name => "Cyclic inheritance through class " ++ name
  | .incompatibleTypes left right => "Incompatible types: " ++ left ++ " and " ++ right
  | .relationNotFound relation typeName => "Relation " ++ relation ++ " not found on " ++ typeName
  | .duplicateRelation className relation => "Duplicate relation " ++ className ++ "." ++ relation
  | .inverseOfInverse relation inverse =>
    "Relation " ++ relation ++ " is declared as the inverse of " ++ inverse ++ ", which is itself an inverse"
  | .inverseMismatch relation inverse fault =>
    "Relation " ++ relation ++ " cannot be the inverse of " ++ inverse ++ ": " ++ fault.text
  | .invalidCardinality place cardinality => "Invalid cardinality " ++ cardinality.text ++ " on " ++ place
  | .duplicateDeclaration kind name => "Duplicate " ++ kind.text ++ ": " ++ name
  | .undefinedVariable name => "Undefined variable: " ++ name
  | .unknownAction name => "Unknown action: " ++ name
  | .unknownInvariant name => "Unknown invariant: " ++ name

end StoreCheck
