import StoreCheck.Effect.Analysis
import StoreCheck.Encoding.ObjSet

/-!
# Encoding of loops

The body of a loop is encoded once, in a context of its own whose last parameter is the object of the iteration. What the
body touches is planned before, by effect analysis.

The iterations of a flat loop are independent: each starts from the snapshot before the loop, and the results are merged. A
pre-existing element is kept if every iteration keeps it, and a new one is there if some iteration makes it. A body whose
result would hang on the order of the iterations is refused.

The iterations of a chained loop run in order: the slots and variables that an iteration starts from are those that the one
before ended with, and the loop ends with those of the last iteration.
-/

namespace StoreCheck.Encode

/-! ## Planning -/

/-- What the body of a loop touches. -/
structure LoopPlan where
  writes : List SortId
  /-- The sorts in which the body creates objects or tuples. -/
  creates : List SortId
  /-- The sorts that the body reads beyond its own objects. -/
  reads : List SortId
  /-- The variables from outside that the body assigns, in order. -/
  carried : List String
  /-- The carried variables that the body reads before it assigns them. -/
  boundary : List String

/-- Plan the loop over a set of the given type and locality. -/
def planLoop (L : Layout) (scope : Scope) (var : String) (type : ObjType) (isLocal : Bool) (body : Block) :
    Except TypeError LoopPlan := do
  let effects ← body.effects L.store (scope.types.insert var type.single) (scope.locals.insert var isLocal)
  let carried := sortNames ((Block.assigned body).filter fun name => name != var && scope.contains name)
  let readFirst := Block.readBeforeWrite body
  return {
    writes := L.sortsOf effects.writes
    creates := L.sortsOf effects.creates
    reads := L.sortsOf effects.globalReads
    carried
    boundary := carried.filter (readFirst.contains ·) }

/-! ## The body -/

/-- A loop whose body is to be encoded. -/
structure LoopFrame where
  var : String
  /-- The type and locality of the iterated object. -/
  iterator : ObjType × Bool
  child : ContextId
  sort : SortId
  plan : LoopPlan
  body : Encode Unit

/-- The encoded body: the snapshots at its start and end, and its variables at the end. -/
structure LoopBody where
  entry : Snapshot
  out : Snapshot
  scope : Scope

/-- Encode the body from a snapshot, in the context of the loop. -/
def loopBody (f : LoopFrame) (entry : Snapshot) : Encode LoopBody := do
  let outer ← get
  let level := outer.contexts.level f.child
  modify fun s => { s with
    context := f.child
    snapshot := entry
    scope := s.scope.insert f.var ⟨.param level, f.iterator.1, f.iterator.2⟩ }
  f.body
  let inner ← get
  modify fun s => { s with context := outer.context, snapshot := entry, scope := outer.scope }
  return ⟨entry, inner.snapshot, inner.scope⟩

/-- The sorts that the body has changed; all of them are planned. -/
def bodyChanges (f : LoopFrame) (body : LoopBody) : Encode (List SortId) := do
  let changed := body.entry.difference body.out
  match changed.find? fun sort => !f.plan.writes.contains sort with
  | some sort => throw (.internal (.unplannedWrite f.var ((← get).symbols.sortName sort)))
  | none => return changed

/-- Run a step in the context of the loop. -/
def inContext {α : Type} (child : ContextId) (run : Encode α) : Encode α := do
  let outer := (← get).context
  modify fun s => { s with context := child }
  let a ← run
  modify fun s => { s with context := outer }
  return a

/-! ## Flat loops -/

/-- The result of a flat loop must not hang on the order of its iterations. -/
def checkFlat (symbols : Symbols) (f : LoopFrame) : Except EncodeError Unit :=
  let overlap := f.plan.reads.filter (f.plan.creates.contains ·)
  if !f.plan.boundary.isEmpty then .error (.orderSensitiveLoop f.var (.readsCarried f.plan.boundary))
  else if !overlap.isEmpty then .error (.orderSensitiveLoop f.var (.readsCreated (overlap.map symbols.sortName)))
  else .ok ()

/-- The new slot holds what existed and every iteration keeps, and what did not and some iteration adds. -/
def keptOrAdded (f : LoopFrame) (written : SortId) (before after new : Slot) (ps : List Term) : Encode Formula := do
  let (b, o) ← binder written
  let (b1, it1) ← binder f.sort
  let (b2, it2) ← binder f.sort
  let contexts := (← get).contexts
  let kept := Formula.mkAnd [before.holds ps o,
    .mkForAll [b1] (.mkImplies (contexts.membership f.child (ps ++ [it1])) (after.holds (ps ++ [it1]) o))]
  let added := Formula.mkAnd [.mkNot (before.holds ps o),
    .mkForSome [b2] (.mkAnd [contexts.membership f.child (ps ++ [it2]), after.holds (ps ++ [it2]) o])]
  return .mkForAll [b] (.mkIff (new.holds ps o) (.mkOr [kept, added]))

/-- The slot of a sort after a flat loop. -/
def mergeIterations (f : LoopFrame) (body : LoopBody) (written : SortId) : Encode (SortId × Slot) := do
  let new ← freshSlot written
  axiomOver (keptOrAdded f written (body.entry.slot written) (body.out.slot written) new)
  return (written, new)

/-- A loop whose iterations are independent. -/
def flatLoop (f : LoopFrame) : Encode Unit := do
  let s ← get
  checkFlat s.symbols f
  let body ← loopBody f s.snapshot
  let changes ← (← bodyChanges f body).mapM (mergeIterations f body)
  setSnapshot (body.entry.withSlots changes)

/-! ## Chained loops -/

/-- A carried variable: its value at the end of the iteration just before, and its type before the loop. -/
structure Carry where
  name : String
  pred : PredId
  sort : SortId
  type : ObjType

/-- Give a carried variable its value at the start of an iteration. -/
def carryIn (L : Layout) (f : LoopFrame) (name : String) : Encode Carry := do
  let s ← get
  match s.scope.find? name with
  | none => throw (.type (.undefinedVariable name))
  | some before =>
    match ← L.sortOf before.type with
    | none => throw (.orderSensitiveLoop f.var (.emptyBefore name))
    | some sort =>
      let p ← freshPred ("carry_" ++ name) [sort]
      let value := ObjValue.boundary f.child before.value (.pred p (s.contexts.level f.child))
      bind name { before with value }
      return ⟨name, p, sort, before.type⟩

/-- What an iteration starts from: a slot for each written sort, and the carried variables that it reads. -/
def iterationInputs (L : Layout) (f : LoopFrame) : Encode (List (SortId × Slot) × List Carry) := do
  let inputs ← f.plan.writes.mapM fun sort => do return (sort, ← freshSlot sort)
  let carries ← f.plan.boundary.mapM (carryIn L f)
  return (inputs, carries)

/-- A carried variable holds, after each iteration, its value at the end of the body. -/
def threadCarry (L : Layout) (body : LoopBody) (carry : Carry) : Encode Unit := do
  match body.scope.find? carry.name with
  | none => return ()
  | some after =>
    let _ ← typed (carry.type.join L.graph after.type)
    axiomOver (sameMembers L carry.sort carry.pred after.value)

/-- The first iteration starts from the slot before the loop, every other one from the slot that the one before left. -/
def threadedSlot (f : LoopFrame) (order : ChainOrder) (written : SortId) (before after start : Slot) (ps : List Term) :
    Encode Formula := do
  let outer := ps.take (ps.length - 1)
  let current := ps.drop (ps.length - 1)
  let (b, o) ← binder written
  let first := Formula.mkImplies (.atom order.first ps) (.mkForAll [b] (.mkIff (start.holds ps o) (before.holds ps o)))
  let (bp, p) ← binder f.sort
  let (b, o) ← binder written
  let next := Formula.mkForAll [bp]
    (.mkImplies (.atom order.justBefore (outer ++ [p] ++ current))
      (.mkForAll [b] (.mkIff (start.holds ps o) (after.holds (outer ++ [p]) o))))
  return .mkAnd [first, next]

/-- Tie the slot that an iteration starts from to what came before. -/
def threadSlot (f : LoopFrame) (order : ChainOrder) (pre : Snapshot) (body : LoopBody) (input : SortId × Slot) :
    Encode Unit :=
  axiomOver (threadedSlot f order input.1 (pre.slot input.1) (body.out.slot input.1) input.2)

/-- The loop has no live iteration. -/
def nothingIterated (f : LoopFrame) (params : List Term) : Encode Formula := do
  let (b, it) ← binder f.sort
  return .mkNot (.mkForSome [b] ((← get).contexts.membership f.child (params ++ [it])))

/-- The new slot holds what the last iteration left, and what existed if there is none. -/
def lastSlot (f : LoopFrame) (order : ChainOrder) (written : SortId) (before after new : Slot) (ps : List Term) :
    Encode Formula := do
  let nothing ← nothingIterated f ps
  let (b, o) ← binder written
  let unchanged := Formula.mkForAll [b] (.mkIff (new.holds ps o) (before.holds ps o))
  let (bi, it) ← binder f.sort
  let (b, o) ← binder written
  let final := Formula.mkForAll [bi]
    (.mkImplies (.atom order.last (ps ++ [it]))
      (.mkForAll [b] (.mkIff (new.holds ps o) (after.holds (ps ++ [it]) o))))
  return .mkAnd [.mkImplies nothing unchanged, final]

/-- The slot of a sort after a chained loop. -/
def exitSlot (f : LoopFrame) (order : ChainOrder) (pre : Snapshot) (body : LoopBody) (written : SortId) :
    Encode (SortId × Slot) := do
  let new ← freshSlot written
  axiomOver (lastSlot f order written (pre.slot written) (body.out.slot written) new)
  return (written, new)

/-- The predicate holds of what the value at the end of the last iteration holds, and of the value before the loop if there is
none. -/
def lastValue (L : Layout) (f : LoopFrame) (order : ChainOrder) (sort : SortId) (p : PredId) (before after : ObjValue)
    (ps : List Term) : Encode Formula := do
  let nothing ← nothingIterated f ps
  let (b, o) ← binder sort
  let unchanged := Formula.mkForAll [b] (.mkIff (.atom p (ps ++ [o])) (← member L before ps o))
  let (bi, it) ← binder f.sort
  let (b, o) ← binder sort
  let final := Formula.mkForAll [b] (.mkIff (.atom p (ps ++ [o])) (← member L after (ps ++ [it]) o))
  return .mkAnd [.mkImplies nothing unchanged,
    .mkForAll [bi] (.mkImplies (.atom order.last (ps ++ [it])) final)]

/-- The value of a carried variable after a chained loop. -/
def exitValue (L : Layout) (f : LoopFrame) (order : ChainOrder) (pre : Scope) (body : LoopBody) (name : String) :
    Encode Unit := do
  match pre.find? name, body.scope.find? name with
  | some before, some after =>
    let type ← typed (before.type.join L.graph after.type)
    let isLocal := before.isLocal && after.isLocal
    match ← L.sortOf type with
    | none => bind name ⟨.empty, type, isLocal⟩
    | some sort =>
      let p ← freshPred ("after_" ++ name) [sort]
      let d ← depth
      axiomOver (lastValue L f order sort p before.value after.value)
      bind name ⟨.pred p d, type, isLocal⟩
  | _, _ => return ()

/-- A loop whose iterations run in order. -/
def chainedLoop (L : Layout) (f : LoopFrame) : Encode Unit := do
  let pre ← get
  match (pre.contexts.get f.child).kind with
  | .chained order =>
    let (inputs, carries) ← inContext f.child (iterationInputs L f)
    let body ← loopBody f (pre.snapshot.withSlots inputs)
    modify fun s => { s with scope := pre.scope }
    let _ ← bodyChanges f body
    inContext f.child do
      carries.forM (threadCarry L body)
      inputs.forM (threadSlot f order pre.snapshot body)
    let changes ← inputs.mapM fun input => exitSlot f order pre.snapshot body input.1
    setSnapshot (pre.snapshot.withSlots changes)
    f.plan.carried.forM (exitValue L f order pre.scope body)
  | _ => throw (.internal (.notOrdered f.var))

/-! ## Loops -/

def addContext (sort : SortId) (order : LoopKind) (var : String) : Encode ContextId :=
  modifyGet fun s =>
    let (child, contexts, symbols) := s.contexts.add s.symbols s.context sort order var
    (child, { s with contexts, symbols })

/-- The axioms of a loop's context: its live iterations are the elements of the domain, inside live parents and in order. -/
def contextAxioms (L : Layout) (child : ContextId) (var : String) (sort : SortId) (domain : ObjValue) : Encode Unit := do
  let contexts := (← get).contexts
  match (contexts.get child).live with
  | none => throw (.internal (.noLivePredicate var))
  | some live =>
    axiomOver (sameMembers L sort live domain)
    emit (← fresh (contexts.nestingAxiom child))
    (← fresh (contexts.orderAxioms child)).forM emit

/-- A loop over the elements of a set; over a set of the bottom type there is nothing to do. -/
def forEach (L : Layout) (var : String) (domain : ObjExpr) (body : Block) (order : LoopKind) (run : Encode Unit) :
    Encode Unit := do
  let scope := (← get).scope
  let (value, type) ← objSet L false scope domain
  match ← L.sortOf type with
  | none => return ()
  | some sort =>
    let isLocal := scope.isLocal domain
    let plan ← typed (planLoop L scope var type isLocal body)
    let child ← addContext sort order var
    contextAxioms L child var sort value
    let frame : LoopFrame := { var, iterator := (type.single, isLocal), child, sort, plan, body := run }
    match order with
    | .flat => flatLoop frame
    | .chained => chainedLoop L frame

end StoreCheck.Encode
