import StoreCheck.Encoding.Member

/-!
# Encoding object-set expressions

An expression becomes a value at the current snapshot and context. Free choices become new predicates, bounded by axioms;
inside a formula they are refused.
-/

namespace StoreCheck.Encode

/-- The expression has a type; its value is known; and a value of the bottom type is the empty set. -/
def checked (L : Layout) (scope : Scope) (e : ObjExpr) (encode : Encode ObjValue) : Encode (ObjValue × ObjType) := do
  let type ← typed (infer L.store scope.types e)
  let value ← encode
  if type.signature.isBottom && !value.isEmpty then
    throw (.type (.incompatibleTypes e.text "<bottom>"))
  return (value, type)

def boundValue (scope : Scope) (name : String) : Encode ObjValue :=
  match scope.find? name with
  | some b => return b.value
  | none => throw (.type (.undefinedVariable name))

/-- The predicate holds of elements of the set only. -/
def someMembers (L : Layout) (sort : SortId) (p : PredId) (source : ObjValue) (ps : List Term) : Encode Formula := do
  let (b, o) ← binder sort
  let within ← member L source ps o
  return .mkForAll [b] (.mkImplies (.atom p (ps ++ [o])) within)

/-- Some part of a set: a new predicate that holds of elements of the set only. -/
def chooseSubset (L : Layout) (source : ObjValue) (type : ObjType) : Encode ObjValue := do
  match ← L.sortOf type with
  | none => return .empty
  | some sort =>
    let p ← freshPred "subset" [sort]
    let d ← depth
    axiomOver (someMembers L sort p source)
    return .pred p d

/-- The predicate holds of elements of the set only, of at most one, and of one if there are any. -/
def oneMember (L : Layout) (sort : SortId) (p : PredId) (source : ObjValue) (ps : List Term) : Encode Formula := do
  let chosen (o : Term) : Formula := .atom p (ps ++ [o])
  let (b, o) ← binder sort
  let within := Formula.mkForAll [b] (.mkImplies (chosen o) (← member L source ps o))
  let (b, o) ← binder sort
  let nonempty := Formula.mkForSome [b] (← member L source ps o)
  let (b, o) ← binder sort
  let picked := Formula.mkForSome [b] (chosen o)
  let (b1, o1) ← binder sort
  let (b2, o2) ← binder sort
  let single := Formula.mkForAll [b1, b2] (.mkImplies (.mkAnd [chosen o1, chosen o2]) (.mkEq o1 o2))
  return .mkAnd [within, .mkImplies nonempty picked, single]

/-- One element of a set: a new predicate that holds of elements of the set only, of at most one, and of one if there are
any. -/
def chooseOne (L : Layout) (source : ObjValue) (type : ObjType) : Encode ObjValue := do
  match ← L.sortOf type with
  | none => return .empty
  | some sort =>
    let p ← freshPred "one_of" [sort]
    let d ← depth
    axiomOver (oneMember L sort p source)
    return .pred p d

/-- The union of values: empty ones are left out, and a single one stands for itself. -/
def unionValue (values : List ObjValue) : ObjValue :=
  match values.filter (!·.isEmpty) with
  | [] => .empty
  | [v] => v
  | vs => .union vs

/-- The targets of a relation of the source expression, at the current snapshot. -/
def derefValue (L : Layout) (scope : Scope) (source : ObjExpr) (relation : String) (value : ObjValue) :
    Encode ObjValue := do
  let type ← typed (infer L.store scope.types source)
  let r ← typed (L.store.relationOn type.signature relation)
  let ts ← L.tupleSort r.base
  return .deref value r.base r.flipped ((← get).snapshot.slot ts.sort)

mutual

/-- The value of an expression. -/
def objValue (L : Layout) (inFormula : Bool) (scope : Scope) : ObjExpr → Encode ObjValue
  | .allOf className => do
    let c ← typed (L.graph.resolve className)
    return .ofClass c ((← get).snapshot.slot (L.classSort c))
  | .var name => boundValue scope name
  | .iterator name => boundValue scope name
  | .subset source => do
    if inFormula then throw .choiceInFormula
    let (value, type) ← checked L scope source (objValue L inFormula scope source)
    chooseSubset L value type
  | .oneOf source => do
    if inFormula then throw .choiceInFormula
    let (value, type) ← checked L scope source (objValue L inFormula scope source)
    chooseOne L value type
  | .union parts => do return unionValue (← objValues L inFormula scope parts)
  | .deref source relation => do
    derefValue L scope source relation (← objValue L inFormula scope source)

def objValues (L : Layout) (inFormula : Bool) (scope : Scope) : List ObjExpr → Encode (List ObjValue)
  | [] => return []
  | e :: rest => do
    let v ← objValue L inFormula scope e
    let vs ← objValues L inFormula scope rest
    return v :: vs

end

/-- The value and the type of an expression. -/
def objSet (L : Layout) (inFormula : Bool) (scope : Scope) (e : ObjExpr) : Encode (ObjValue × ObjType) :=
  checked L scope e (objValue L inFormula scope e)

end StoreCheck.Encode
