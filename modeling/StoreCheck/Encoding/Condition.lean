import StoreCheck.Encoding.ObjSet

/-!
# Encoding formulas

A formula expression becomes a first-order formula at the current snapshot and context. Sets are compared element by
element, quantified variables range over the elements of their domains, and each `unknown` is a new predicate.
-/

namespace StoreCheck.Encode

/-- A value that may be true or false at each position. -/
def unknown (params : List Term) : Encode Formula := do
  let p ← freshPred "unknown" []
  return .atom p (params.take (← depth))

/-- All parts have the truth value of the first one. -/
def equivalent : List Formula → Formula
  | [] => .top
  | f :: rest => .mkAnd (rest.map (Formula.mkIff f))

/-- The values of sets and the type that covers them all. -/
def comparable (L : Layout) (scope : Scope) : List ObjExpr → Option ObjType → Encode (List ObjValue × Option ObjType)
  | [], joined => return ([], joined)
  | e :: rest, joined => do
    let (value, type) ← objSet L true scope e
    let joined ←
      match joined with
      | some before => typed (before.join L.graph type)
      | none => pure type
    let (values, joined) ← comparable L scope rest (some joined)
    return (value :: values, joined)

/-- All sets have the same elements. -/
def equalSets (L : Layout) (scope : Scope) (params : List Term) (sets : List ObjExpr) : Encode Formula := do
  let (values, joined) ← comparable L scope sets none
  match joined, values with
  | some type, first :: rest =>
    match ← L.sortOf type with
    | none => return .top
    | some sort =>
      let (b, o) ← binder sort
      let head ← member L first params o
      let parts ← rest.mapM fun v => do return Formula.mkIff head (← member L v params o)
      return .mkForAll [b] (.mkAnd parts)
  | _, _ => return .top

/-- Every element of the first set is in the second one. -/
def includedSet (L : Layout) (scope : Scope) (params : List Term) (set within : ObjExpr) : Encode Formula := do
  let (inner, innerType) ← objSet L true scope set
  let (outer, outerType) ← objSet L true scope within
  if innerType.signature.isBottom then return .top
  let type ← typed (innerType.join L.graph outerType)
  match ← L.sortOf type with
  | none => return .top
  | some sort =>
    let (b, o) ← binder sort
    let inInner ← member L inner params o
    let inOuter ← member L outer params o
    return .mkForAll [b] (.mkImplies inInner inOuter)

/-- The set has no element. -/
def emptySet (L : Layout) (scope : Scope) (params : List Term) (set : ObjExpr) : Encode Formula := do
  let (value, type) ← objSet L true scope set
  match ← L.sortOf type with
  | none => return .top
  | some sort =>
    let (b, o) ← binder sort
    return .mkNot (.mkForSome [b] (← member L value params o))

/-- The variables of a quantifier: their binders, the formulas that each is in its domain, and the scope of the body. -/
structure Quantified where
  binders : List Binder
  members : List Formula
  scope : Scope

/-- Bind the variables of a quantifier in order; none when a domain is of the bottom type. -/
def quantified (L : Layout) (params : List Term) : List QuantVar → Scope → Encode (Option Quantified)
  | [], scope => return some ⟨[], [], scope⟩
  | v :: rest, scope => do
    let (value, type) ← objSet L true scope v.domain
    match ← L.sortOf type with
    | none => return none
    | some sort =>
      let (b, t) ← binder sort
      let inDomain ← member L value params t
      match ← quantified L params rest (scope.insert v.name ⟨.bound t, type.single, false⟩) with
      | none => return none
      | some q => return some { q with binders := b :: q.binders, members := inDomain :: q.members }

mutual

/-- The formula at the position with the given parameters. -/
def formula (L : Layout) (params : List Term) : FormulaExpr → Scope → Encode Formula
  | .literal .true, _ => return .top
  | .literal .false, _ => return .bot
  | .literal .unknown, _ => unknown params
  | .not f, scope => do return .mkNot (← formula L params f scope)
  | .and parts, scope => do return .mkAnd (← formulas L params parts scope)
  | .or parts, scope => do return .mkOr (← formulas L params parts scope)
  | .implies premise conclusion, scope => do
    let p ← formula L params premise scope
    let c ← formula L params conclusion scope
    return .mkImplies p c
  | .equiv parts, scope => do return equivalent (← formulas L params parts scope)
  | .equal sets, scope => equalSets L scope params sets
  | .isIn set within, scope => includedSet L scope params set within
  | .isEmpty set, scope => emptySet L scope params set
  | .forAll vars body, scope => do
    match ← quantified L params vars scope with
    | none => return .top
    | some q => return .mkForAll q.binders (.mkImplies (.mkAnd q.members) (← formula L params body q.scope))
  | .forSome vars body, scope => do
    match ← quantified L params vars scope with
    | none => return .bot
    | some q => return .mkForSome q.binders (.mkAnd [.mkAnd q.members, ← formula L params body q.scope])

def formulas (L : Layout) (params : List Term) : List FormulaExpr → Scope → Encode (List Formula)
  | [], _ => return []
  | f :: rest, scope => do
    let g ← formula L params f scope
    let gs ← formulas L params rest scope
    return g :: gs

end

end StoreCheck.Encode
