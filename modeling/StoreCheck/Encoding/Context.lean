import StoreCheck.Expr.Statement
import StoreCheck.Logic.Formula

/-!
# Loop contexts

A context is a place in the nesting of loops. A context of level `n` has `n` parameters, one for each enclosing loop: the
object that the loop is at. The contexts of a goal live in one table, where each refers to its parent; context 0 is the
root, outside all loops.

A chained loop orders its iterations: `before` is a strict total order on the live iterations of one parent iteration,
`justBefore` relates neighbours, `first` and `last` hold at the ends. These predicates take the parent's parameters first.
-/

namespace StoreCheck

/-- A context, by its place in the table. -/
structure ContextId where
  index : Nat
  deriving DecidableEq, Repr

/-- The order predicates of a chained loop. -/
structure ChainOrder where
  before : PredId
  justBefore : PredId
  first : PredId
  last : PredId
  deriving DecidableEq, Repr

inductive ContextKind where
  | root
  | flat
  | chained (order : ChainOrder)
  deriving DecidableEq, Repr

/-- A place in the nesting of loops. -/
structure Context where
  parent : Option ContextId
  level : Nat
  /-- The sorts of the parameters, the outermost loop first. -/
  paramSorts : List SortId
  /-- Which parameters denote a live iteration; the root has none and is always live. -/
  live : Option PredId
  kind : ContextKind
  deriving Repr

/-- The context outside all loops. -/
def Context.root : Context := ⟨none, 0, [], none, .root⟩

structure Contexts where
  table : List Context
  deriving Repr

/-- The parameter of a level. -/
def paramAt (params : List Term) (level : Nat) : Term := params.getD (level - 1) (.var "")

namespace Contexts

def rootId : ContextId := ⟨0⟩

def initial : Contexts := ⟨[.root]⟩

def get (cs : Contexts) (id : ContextId) : Context := cs.table.getD id.index .root

def level (cs : Contexts) (id : ContextId) : Nat := (cs.get id).level

/-- The order predicates of a loop over objects of a sort, below the given parameter sorts. -/
def addOrder (symbols : Symbols) (outer : List SortId) (sort : SortId) (hint : String) : ChainOrder × Symbols :=
  let pair := outer ++ [sort, sort]
  let one := outer ++ [sort]
  let (before, symbols) := symbols.addPredicate ("before_" ++ hint) pair
  let (justBefore, symbols) := symbols.addPredicate ("just_before_" ++ hint) pair
  let (first, symbols) := symbols.addPredicate ("first_" ++ hint) one
  let (last, symbols) := symbols.addPredicate ("last_" ++ hint) one
  (⟨before, justBefore, first, last⟩, symbols)

/-- Add a context for a loop over objects of a sort. -/
def add (cs : Contexts) (symbols : Symbols) (parent : ContextId) (sort : SortId) (order : LoopKind) (hint : String) :
    ContextId × Contexts × Symbols :=
  let outer := (cs.get parent).paramSorts
  let (live, symbols) := symbols.addPredicate ("iter_" ++ hint) (outer ++ [sort])
  let (kind, symbols) :=
    match order with
    | .flat => (ContextKind.flat, symbols)
    | .chained =>
      let (o, symbols) := addOrder symbols outer sort hint
      (.chained o, symbols)
  (⟨cs.table.length⟩, ⟨cs.table ++ [⟨some parent, cs.level parent + 1, outer ++ [sort], some live, kind⟩]⟩, symbols)

/-- The parameters denote a live iteration of the context. -/
def membership (cs : Contexts) (id : ContextId) (params : List Term) : Formula :=
  match (cs.get id).live with
  | some p => .atom p (params.take (cs.level id))
  | none => .top

/-! ## Ancestors -/

/-- The context and its ancestors, up to the given number of steps. -/
def pathUp (cs : Contexts) : Nat → ContextId → List ContextId
  | 0, id => [id]
  | n + 1, id =>
    match (cs.get id).parent with
    | some parent => id :: pathUp cs n parent
    | none => [id]

/-- The context and its ancestors, the root last. -/
def path (cs : Contexts) (id : ContextId) : List ContextId := cs.pathUp cs.table.length id

/-- The ancestor at a level; the context itself when it is not deeper. -/
def ancestorAt (cs : Contexts) (id : ContextId) (level : Nat) : ContextId :=
  ((cs.path id).find? fun c => decide (cs.level c ≤ level)).getD rootId

/-- The deepest context that both are, or lie inside. -/
def commonAncestor (cs : Contexts) (a b : ContextId) : ContextId :=
  ((cs.path a).find? fun c => (cs.path b).contains c).getD rootId

/-! ## The order of positions -/

/-- One level of the comparison of positions: the level's own order comes first, if it has one; for equal parameters the
deeper levels decide. -/
def beforeStep (cs : Contexts) (pa pb : List Term) (deeper : Formula) (id : ContextId) : Formula :=
  let l := cs.level id
  let x := paramAt pa l
  let y := paramAt pb l
  match (cs.get id).kind with
  | .root => deeper
  | .flat => .mkAnd [.mkEq x y, deeper]
  | .chained order =>
    .mkOr [.atom order.before (pa.take (l - 1) ++ [x, y]), .mkAnd [.mkEq x y, deeper]]

/-- The position `pa` in context `a` comes before the position `pb` in context `b`. The levels of the common ancestor are
compared, the outermost first; when the positions agree there, the result is `fallback`. -/
def before (cs : Contexts) (a b : ContextId) (pa pb : List Term) (fallback : Formula) : Formula :=
  (cs.path (cs.commonAncestor a b)).foldl (cs.beforeStep pa pb) fallback

/-! ## Axioms -/

/-- Every live iteration lies in a live iteration of the parent. -/
def nestingAxiom (cs : Contexts) (id : ContextId) : Fresh Formula := do
  match (cs.get id).parent with
  | none => return .top
  | some parent =>
    let (binders, params) ← VarGen.binders (cs.get id).paramSorts
    return .mkForAll binders (.mkImplies (cs.membership id params) (cs.membership parent params))

/-- The axioms of a chained order over the iterations of the parent iteration `outer`, for three variables `x`, `y`, `z`: -/
def orderAxiomsWith (cs : Contexts) (id : ContextId) (order : ChainOrder) (outer : List Binder × List Term)
    (x y z : Binder × Term) : List Formula :=
  let forAll (vars : List Binder) (body : Formula) : Formula := .mkForAll (outer.1 ++ vars) body
  let pred (p : PredId) (args : List Term) : Formula := .atom p (outer.2 ++ args)
  let member (t : Term) : Formula := cs.membership id (outer.2 ++ [t])
  let before (s t : Term) : Formula := pred order.before [s, t]
  let isFirst (t : Term) : Formula := pred order.first [t]
  let isLast (t : Term) : Formula := pred order.last [t]
  let next (s t : Term) : Formula := pred order.justBefore [s, t]
  [ -- only live iterations are ordered
    forAll [x.1, y.1] (.mkImplies (before x.2 y.2) (.mkAnd [member x.2, member y.2])),
    -- irreflexive, transitive, total, asymmetric
    forAll [x.1] (.mkNot (before x.2 x.2)),
    forAll [x.1, y.1, z.1] (.mkImplies (.mkAnd [before x.2 y.2, before y.2 z.2]) (before x.2 z.2)),
    forAll [x.1, y.1]
      (.mkImplies (.mkAnd [member x.2, member y.2, .mkNot (.mkEq x.2 y.2)]) (.mkOr [before x.2 y.2, before y.2 x.2])),
    forAll [x.1, y.1] (.mkImplies (before x.2 y.2) (.mkNot (before y.2 x.2))),
    -- neighbours and ends
    forAll [x.1, y.1]
      (.mkIff (next x.2 y.2)
        (.mkAnd [before x.2 y.2, .mkNot (.mkForSome [z.1] (.mkAnd [before x.2 z.2, before z.2 y.2]))])),
    forAll [x.1] (.mkIff (isFirst x.2) (.mkAnd [member x.2, .mkNot (.mkForSome [y.1] (before y.2 x.2))])),
    forAll [x.1] (.mkIff (isLast x.2) (.mkAnd [member x.2, .mkNot (.mkForSome [y.1] (before x.2 y.2))])),
    -- where there is an iteration there are ends, and all but the ends have neighbours
    forAll [x.1]
      (.mkImplies (member x.2) (.mkAnd [.mkForSome [y.1] (isFirst y.2), .mkForSome [z.1] (isLast z.2)])),
    forAll [x.1] (.mkImplies (.mkAnd [member x.2, .mkNot (isFirst x.2)]) (.mkForSome [y.1] (next y.2 x.2))),
    forAll [x.1] (.mkImplies (.mkAnd [member x.2, .mkNot (isLast x.2)]) (.mkForSome [y.1] (next x.2 y.2))) ]

/-- The axioms of the order of a chained context; other contexts have none. -/
def orderAxioms (cs : Contexts) (id : ContextId) : Fresh (List Formula) := do
  let c := cs.get id
  match c.kind with
  | .chained order =>
    let sort := c.paramSorts.getD (c.level - 1) ⟨0⟩
    let outer ← VarGen.binders (c.paramSorts.take (c.level - 1))
    let x ← VarGen.binder sort
    let y ← VarGen.binder sort
    let z ← VarGen.binder sort
    return cs.orderAxiomsWith id order outer x y z
  | _ => return []

end Contexts

end StoreCheck
