import StoreCheck.Encoding.Session

/-!
# The layout of a store and its axioms

`Layout.ofStore` makes the symbols of a store. The base axioms say that a class is a part of its parents, that tuples have
ends of the right classes and are determined by them, that there is a tuple for every two objects of the right classes, and
that a tuple exists initially only between objects that do.
-/

namespace StoreCheck

abbrev Alloc := StateM Symbols

namespace Alloc

def sort (hint : String) : Alloc SortId := fun s => s.addSort hint

def predicate (hint : String) (args : List SortId) : Alloc PredId := fun s => s.addPredicate hint args

def function (hint : String) (args : List SortId) (result : SortId) : Alloc FuncId :=
  fun s => s.addFunction hint args result

end Alloc

namespace Layout

/-- The sort of a component, called after its first class. -/
def componentSort (g : ClassGraph) (component : Nat) : Alloc SortId :=
  Alloc.sort (((g.members component).head?.map g.name).getD "object")

def classPred (g : ClassGraph) (sorts : List SortId) (c : ClassId) : Alloc PredId :=
  Alloc.predicate ("is_" ++ g.name c) [sorts.getD (g.componentOf c) ⟨0⟩]

/-- The tuple sort of a base relation with its two ends. -/
def relationSort (store : Store) (sorts : List SortId) (r : Relation) : Alloc (RelationId × TupleSort) := do
  let label := store.label r
  let source := sorts.getD (store.graph.componentOf r.source) ⟨0⟩
  let target := sorts.getD (store.graph.componentOf r.target) ⟨0⟩
  let sort ← Alloc.sort label
  let left ← Alloc.function (label ++ "_left") [sort] source
  let right ← Alloc.function (label ++ "_right") [sort] target
  return (r.id, { sort, left, right, source, target })

/-- The slot of a sort in the initial state. -/
def initialSlot (sort : SortId) : Alloc Slot := do
  let s ← get
  return ⟨← Alloc.predicate ("existed_initially_" ++ s.sortName sort) [sort], 0⟩

/-- Make the symbols of a store: sorts and predicates of classes, tuple sorts, then the slots of the initial state. -/
def alloc (store : Store) : Alloc Layout := do
  let g := store.graph
  let componentSorts ← (List.range g.componentCount).mapM (componentSort g)
  let classPreds ← g.ids.mapM (classPred g componentSorts)
  let tupleSorts ← store.baseRelations.mapM (relationSort store componentSorts)
  let slots ← (← get).sortIds.mapM initialSlot
  return { store, componentSorts, classPreds, tupleSorts, initial := ⟨slots⟩ }

/-! ## Base axioms -/

/-- The objects of a class belong to its parents. -/
def subclassAxioms (L : Layout) (c : ClassId) : Fresh (List Formula) :=
  (L.graph.parentsOf c).mapM fun parent => do
    let (b, o) ← VarGen.binder (L.classSort c)
    return .mkForAll [b] (.mkImplies (L.isClass c o) (L.isClass parent o))

/-- The axioms on the tuples of a base relation. -/
def tupleAxioms (L : Layout) (r : Relation) (ts : TupleSort) : Fresh (List Formula) := do
  let (b, t) ← VarGen.binder ts.sort
  let typing := Formula.mkForAll [b] (.mkAnd [L.isClass r.source (ts.leftOf t), L.isClass r.target (ts.rightOf t)])
  let (b1, t1) ← VarGen.binder ts.sort
  let (b2, t2) ← VarGen.binder ts.sort
  let determined := Formula.mkForAll [b1, b2]
    (.mkImplies (.mkAnd [.mkEq (ts.leftOf t1) (ts.leftOf t2), .mkEq (ts.rightOf t1) (ts.rightOf t2)]) (.mkEq t1 t2))
  let (bx, x) ← VarGen.binder ts.source
  let (by', y) ← VarGen.binder ts.target
  let (bt, t) ← VarGen.binder ts.sort
  let total := Formula.mkForAll [bx, by']
    (.mkImplies (.mkAnd [L.isClass r.source x, L.isClass r.target y])
      (.mkForSome [bt] (.mkAnd [.mkEq (ts.leftOf t) x, .mkEq (ts.rightOf t) y])))
  let (b, t) ← VarGen.binder ts.sort
  let ends := Formula.mkForAll [b]
    (.mkImplies (L.initial.holds ts.sort [] t)
      (.mkAnd [L.initial.holds ts.source [] (ts.leftOf t), L.initial.holds ts.target [] (ts.rightOf t)]))
  return [typing, determined, total, ends]

def baseAxioms (L : Layout) : Fresh (List Formula) := do
  let subclasses ← L.graph.ids.mapM (subclassAxioms L)
  let tuples ← L.store.baseRelations.mapM fun r => do
    match List.lookup r.id L.tupleSorts with
    | some ts => tupleAxioms L r ts
    | none => return []
  return (subclasses.flatten ++ tuples.flatten).filter (!·.isTop)

/-- The layout of a store, and the session that starts from its initial state. -/
def ofStore (store : Store) : Layout × Session :=
  let (L, symbols) := alloc store .empty
  let (axioms, vars) := L.baseAxioms ⟨0⟩
  (L, {
    symbols, vars, axioms
    contexts := .initial
    guards := []
    context := Contexts.rootId
    snapshot := L.initial
    creations := []
    scope := [] })

end Layout

end StoreCheck
