import StoreCheck.ObjType
import StoreCheck.Store
import StoreCheck.VarMap

/-!
# Types of object-set expressions

`infer` computes the type of an expression from the types of the variables in scope.
-/

namespace StoreCheck

/-- The types of the variables in scope. -/
abbrev TypeEnv := VarMap ObjType

/-- The type of a variable, or the error that there is none. -/
def TypeEnv.typeOf (env : TypeEnv) (name : String) : Except TypeError ObjType :=
  match env.find? name with
  | some t => .ok t
  | none => .error (.undefinedVariable name)

/-- The type of a union: the signatures need a common supertype, and the sets may overlap. -/
def unionType (g : ClassGraph) (a b : ObjType) : Except TypeError ObjType := do
  return ⟨← g.joinStrict a.signature b.signature, a.cardinality.union b.cardinality⟩

/-- The type of the targets of a relation: at most one if that holds of the source and of the relation. -/
def targetType (source : ObjType) (relation : Relation) : ObjType :=
  ⟨.ofClass relation.target,
    if source.cardinality.atMostOne && relation.cardinality.atMostOne then .optional else .any⟩

mutual

/-- The type of an expression, or the first error in it. -/
def infer (store : Store) (env : TypeEnv) : ObjExpr → Except TypeError ObjType
  | .allOf className => do return .ofClass (← store.graph.resolve className)
  | .var name => env.typeOf name
  | .iterator name => env.typeOf name
  | .subset source => do
    let t ← infer store env source
    return t.withCardinality t.cardinality.subset
  | .oneOf source => do return (← infer store env source).single
  | .union [] => return .bottom
  | .union (e :: rest) => do inferUnion store env (← infer store env e) rest
  | .deref source relation => do
    let t ← infer store env source
    return targetType t (← store.relationOn t.signature relation)

/-- The type of the union of a set of a known type with the given sets. -/
def inferUnion (store : Store) (env : TypeEnv) (acc : ObjType) : List ObjExpr → Except TypeError ObjType
  | [] => return acc
  | e :: rest => do
    let t ← infer store env e
    inferUnion store env (← unionType store.graph acc t) rest

end

end StoreCheck
