import StoreCheck.Encoding.Counting
import StoreCheck.Encoding.Setup
import StoreCheck.Encoding.Statement
import StoreCheck.Logic.Theory

/-!
# Goals as theories

The theory of a preservation goal says what an action does: its axioms relate the initial state to the final one, and its
conjecture is that the checked formulas hold finally if the assumed ones hold initially. The theory of a consistency goal
asserts the invariants of one state and conjectures falsehood: it has a proof exactly when the invariants contradict each
other.
-/

namespace StoreCheck

namespace Encode

/-- A new predicate over one sort, outside all contexts. -/
def rootPred (hint : String) (sort : SortId) : Encode PredId :=
  modifyGet fun s =>
    let (pred, symbols) := s.symbols.addPredicate hint [sort]
    (pred, { s with symbols })

/-- The axioms on a parameter: a set of initially existing objects of the class, within the bounds. -/
def paramAxioms (L : Layout) (c : ClassId) (bounds : Cardinality) (pred : PredId) : Encode Unit := do
  let sort := L.classSort c
  let isMember (o : Term) : Formula := .atom pred [o]
  let (b, o) ← binder sort
  emit (.mkForAll [b] (.mkImplies (isMember o) (.mkAnd [L.initial.holds sort [] o, L.isClass c o])))
  emit (← fresh (Counting.atLeast bounds.lower.toNat sort isMember))
  match bounds.upper with
  | some upper => emit (← fresh (Counting.atMost upper.toNat sort isMember))
  | none => return ()

/-- A parameter of an action: a set of initially existing objects of its class, within its bounds. -/
def param (L : Layout) (p : Param) : Encode Unit := do
  let c ← typed (L.graph.resolve p.className)
  let place := "parameter " ++ p.name
  if !p.cardinality.isValid then
    throw (.type (.invalidCardinality place p.cardinality))
  p.cardinality.checkCount place
  let pred ← rootPred ("param_" ++ p.name) (L.classSort c)
  paramAxioms L c p.cardinality pred
  bind p.name ⟨.pred pred 0, (ObjType.ofClass c).withCardinality p.cardinality, false⟩

/-- The object is the one that the creation makes at the position. -/
def createdAt (c : Creation) (params : List Term) (object : Term) : Formula := .atom c.pred (params ++ [object])

/-- A creation makes different objects at different positions. -/
def createdOnce (sort : SortId) (c : Creation) : Encode Unit := do
  if c.params.isEmpty then return ()
  let (b1, p1) ← fresh (VarGen.binders c.params)
  let (b2, p2) ← fresh (VarGen.binders c.params)
  let (bo, o) ← binder sort
  let same := (p1.zip p2).map fun (s, t) => Formula.mkEq s t
  emit (.mkForAll (b1 ++ b2 ++ [bo]) (.mkImplies (.mkAnd [createdAt c p1 o, createdAt c p2 o]) (.mkAnd same)))

/-- Two creations never make the same object. -/
def createdApart (sort : SortId) (c d : Creation) : Encode Unit := do
  let (b1, p1) ← fresh (VarGen.binders c.params)
  let (b2, p2) ← fresh (VarGen.binders d.params)
  let (bo, o) ← binder sort
  emit (.mkForAll (b1 ++ b2 ++ [bo]) (.mkNot (.mkAnd [createdAt c p1 o, createdAt d p2 o])))

/-- The creations of a sort make different objects, at all positions. -/
def distinctCreations (sort : SortId) : List Creation → Encode Unit
  | [] => return ()
  | c :: rest => do
    createdOnce sort c
    rest.forM (createdApart sort c)
    distinctCreations sort rest

/-- All created objects are different. -/
def distinctAxioms (L : Layout) : Encode Unit := do
  let creations := (← get).creations
  L.sorts.forM fun sort => distinctCreations sort (creations.filter (·.sort = sort))

/-- Name what exists finally of a sort. -/
def finalSlot (sort : SortId) : Encode Unit := do
  let pred ← rootPred ("exists_finally_" ++ (← get).symbols.sortName sort) sort
  let (b, o) ← binder sort
  emit (.mkForAll [b] (.mkIff (.atom pred [o]) ((← get).snapshot.holds sort [] o)))

/-- The conjunction of closed formulas at a snapshot. -/
def closedFormulas (L : Layout) (snapshot : Snapshot) (formulas : List FormulaExpr) : Encode Formula := do
  setSnapshot snapshot
  return .mkAnd (← Encode.formulas L [] formulas [])

/-- Walk over an action: its parameters, its block, and what can be said at its end. -/
def action (L : Layout) (a : Action) : Encode Unit := do
  a.params.forM (param L)
  block L a.block
  distinctAxioms L
  L.sorts.forM finalSlot

/-- Walk over an action, then over what is assumed before it and checked after it. -/
def preservation (L : Layout) (a : Action) (assumed checked : List FormulaExpr) : Encode Formula := do
  action L a
  let final := (← get).snapshot
  let before ← closedFormulas L L.initial assumed
  let after ← closedFormulas L final checked
  return .mkImplies before after

/-- Assert closed formulas, one after another, at the initial snapshot. -/
def consistency (L : Layout) (formulas : List FormulaExpr) : Encode Formula := do
  formulas.forM fun f => do emit (← closedFormulas L L.initial [f])
  return .bot

end Encode

/-- The theory of a walk over a store that ends with a conjecture. -/
def theoryOf (store : Store) (name : String) (walk : Layout → Encode Formula) : Except EncodeError Theory := do
  let (L, start) := Layout.ofStore store
  let (conjecture, s) ← (walk L).run start
  return { name, symbols := s.symbols, axioms := s.axioms, conjectures := [conjecture] }

/-- The theory whose conjecture is that the checked formulas hold after the action if the assumed ones hold before. The
action is analysed first, so that its type errors come before all others. -/
def preservationTheory (store : Store) (action : Action) (assumed checked : List FormulaExpr) (name : String) :
    Except EncodeError Theory := do
  match action.effects store with
  | .error e => throw (.type e)
  | .ok _ => theoryOf store name fun L => Encode.preservation L action assumed checked

/-- The theory that proves falsehood exactly when the formulas contradict each other. -/
def consistencyTheory (store : Store) (formulas : List FormulaExpr) (name : String) : Except EncodeError Theory :=
  theoryOf store name fun L => Encode.consistency L formulas

end StoreCheck
