import StoreCheck.Effect.Map
import StoreCheck.Encoding.EncodeError
import StoreCheck.Encoding.ObjValue
import StoreCheck.Typing

/-!
# Sessions: the state of the encoding of one goal

The layout of a store is fixed before an action is looked at:

- one sort for each component of the class graph, with a predicate for each class;
- one sort for each base relation, whose elements are tuples with a left and a right end;
- a slot for each sort that says what exists initially.

A session walks over an action. It holds the symbols, variables, contexts and axioms made so far, the context and snapshot
that the walk is at, the indicators of the branches it is in, and what the variables are bound to.
-/

namespace StoreCheck

/-! ## Layout -/

/-- The sort of the tuples of a base relation. -/
structure TupleSort where
  sort : SortId
  left : FuncId
  right : FuncId
  source : SortId
  target : SortId
  deriving DecidableEq, Repr

namespace TupleSort

def leftOf (ts : TupleSort) (t : Term) : Term := .app ts.left [t]

def rightOf (ts : TupleSort) (t : Term) : Term := .app ts.right [t]

end TupleSort

/-- The symbols that stand for the classes and relations of a store, and for its initial state. -/
structure Layout where
  store : Store
  /-- The sort of each component. -/
  componentSorts : List SortId
  /-- The predicate of each class. -/
  classPreds : List PredId
  tupleSorts : List (RelationId × TupleSort)
  initial : Snapshot

namespace Layout

def graph (L : Layout) : ClassGraph := L.store.graph

/-- The sort of the objects of a class. -/
def classSort (L : Layout) (c : ClassId) : SortId := L.componentSorts.getD (L.graph.componentOf c) ⟨0⟩

/-- The object belongs to the class. -/
def isClass (L : Layout) (c : ClassId) (object : Term) : Formula := .atom (L.classPreds.getD c.index ⟨0⟩) [object]

/-- The tuple sort of a base relation. -/
def tupleSort (L : Layout) (r : RelationId) : Except EncodeError TupleSort :=
  match List.lookup r L.tupleSorts with
  | some ts => .ok ts
  | none => .error (.internal (.noTupleSort (L.store.labelOf r)))

/-- The sort of the objects of a set; none for the bottom. -/
def sortOf (L : Layout) (t : ObjType) : Except EncodeError (Option SortId) :=
  if t.signature.isBottom then .ok none
  else
    match L.graph.componentOfSignature t.signature with
    | some component => .ok (some (L.componentSorts.getD component ⟨0⟩))
    | none => .error (.type (.incompatibleTypes (L.graph.describe t.signature) "a single class hierarchy"))

/-- The sort of an effect domain. -/
def domainSort (L : Layout) : Domain → Option SortId
  | .ofClass c => some (L.classSort c)
  | .ofRelation r => (List.lookup r L.tupleSorts).map (·.sort)

def sorts (L : Layout) : List SortId := L.initial.sorts

/-- The sorts of effect domains, each once, in order. -/
def sortsOf (L : Layout) (domains : List Domain) : List SortId :=
  L.sorts.filter fun s => domains.any fun d => L.domainSort d == some s

end Layout

/-! ## Scopes -/

/-- What a variable is bound to. -/
structure Binding where
  value : ObjValue
  type : ObjType
  /-- The value holds only objects that the action has created. -/
  isLocal : Bool

abbrev Scope := VarMap Binding

namespace Scope

def types (s : Scope) : TypeEnv := s.map fun (name, b) => (name, b.type)

def locals (s : Scope) : VarMap Bool := s.map fun (name, b) => (name, b.isLocal)

/-- The expression denotes only objects that the action has created. -/
def isLocal (s : Scope) (e : ObjExpr) : Bool := e.isLocal fun name => (s.locals.find? name).getD false

end Scope

/-! ## Sessions -/

/-- The objects that one create statement makes: at most one for each position of its context. -/
structure Creation where
  sort : SortId
  pred : PredId
  params : List SortId

/-- A branch that the walk is in: its indicator, over the first `depth` parameters. -/
structure Guard where
  indicator : PredId
  depth : Nat

/-- The state of the encoding of one goal. -/
structure Session where
  symbols : Symbols
  vars : VarGen
  contexts : Contexts
  axioms : List Formula
  /-- The branches that the walk is in, the outermost first. -/
  guards : List Guard
  context : ContextId
  snapshot : Snapshot
  creations : List Creation
  scope : Scope

abbrev Encode := StateT Session (Except EncodeError)

/-- A computation of a membership formula: it takes fresh variables and nothing else. -/
abbrev FreshEncode := StateT VarGen (Except EncodeError)

/-- Take a variable of a sort. -/
def FreshEncode.binder (sort : SortId) : FreshEncode (Binder × Term) := modifyGet (VarGen.binder sort)

namespace Encode

/-- A step that only types. -/
def typed {α : Type} (r : Except TypeError α) : Encode α :=
  match r with
  | .ok a => pure a
  | .error e => throw (.type e)

/-- A step that only takes fresh variables. -/
def fresh {α : Type} (f : Fresh α) : Encode α :=
  modifyGet fun s => let (a, vars) := f s.vars; (a, { s with vars })

/-- A step that only takes fresh variables and may fail. -/
def freshly {α : Type} (f : FreshEncode α) : Encode α := do
  let s ← get
  let (a, vars) ← (f s.vars : Except EncodeError (α × VarGen))
  set { s with vars }
  return a

def binder (sort : SortId) : Encode (Binder × Term) := fresh (VarGen.binder sort)

def depth : Encode Nat := do
  let s ← get
  return s.contexts.level s.context

/-- Add an axiom; the constant truth says nothing. -/
def emit (f : Formula) : Encode Unit := modify fun s => if f.isTop then s else { s with axioms := s.axioms ++ [f] }

/-- All branches that the walk is in are taken. -/
def guarded (guards : List Guard) (params : List Term) : Formula :=
  .mkAnd (guards.map fun g => .atom g.indicator (params.take g.depth))

/-- Take a variable for each parameter of the current context. -/
def contextBinders : Encode (List Binder × List Term) := do
  let s ← get
  fresh (VarGen.binders (s.contexts.get s.context).paramSorts)

/-- Add the axiom that a formula holds at every live position of the current context where all branches are taken. -/
def axiomOver (build : List Term → Encode Formula) : Encode Unit := do
  let (binders, params) ← contextBinders
  let body ← build params
  let s ← get
  let premise := Formula.mkAnd [s.contexts.membership s.context params, guarded s.guards params]
  emit (.mkForAll binders (.mkImplies premise body))

/-- A new predicate over the parameters of the current context and further sorts. -/
def freshPred (hint : String) (extra : List SortId) : Encode PredId :=
  modifyGet fun s =>
    let (p, symbols) := s.symbols.addPredicate hint ((s.contexts.get s.context).paramSorts ++ extra)
    (p, { s with symbols })

/-- A new slot of a sort in the current context. -/
def freshSlot (sort : SortId) : Encode Slot := do
  let s ← get
  let p ← freshPred ("state_" ++ s.symbols.sortName sort) [sort]
  return ⟨p, ← depth⟩

def bind (name : String) (b : Binding) : Encode Unit := modify fun s => { s with scope := s.scope.insert name b }

def setSnapshot (snapshot : Snapshot) : Encode Unit := modify fun s => { s with snapshot }

end Encode

end StoreCheck
