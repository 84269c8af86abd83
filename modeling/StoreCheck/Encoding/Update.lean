import StoreCheck.Encoding.ObjSet

/-!
# Encoding of assignments, creations, deletions and tuple updates

Each of these statements makes new slots for the sorts it changes, and axioms that relate them to the slots before.
-/

namespace StoreCheck.Encode

/-- Bind a variable to the value of an expression; a value that is not atomic is named first. -/
def assign (L : Layout) (var : String) (e : ObjExpr) : Encode Unit := do
  let scope := (← get).scope
  let (value, type) ← objSet L false scope e
  let isLocal := scope.isLocal e
  if value.isAtomic then
    bind var ⟨value, type, isLocal⟩
  else
    match ← L.sortOf type with
    | some sort =>
      let named ← define L ("assign_" ++ var) sort value
      bind var ⟨named, type, isLocal⟩
    | none => bind var ⟨.empty, type, isLocal⟩

/-- The classes of the component that an object created in the class does not belong to. -/
def foreignClasses (L : Layout) (c : ClassId) : List ClassId :=
  (L.graph.members (L.graph.componentOf c)).filter fun d => d ≠ c && d ∉ L.graph.ancestorsOf c

/-- The creation makes an object. -/
def someCreated (sort : SortId) (p : PredId) (ps : List Term) : Encode Formula := do
  let (b, o) ← binder sort
  return .mkForSome [b] (.atom p (ps ++ [o]))

/-- The axioms on the object that a creation makes: there is one where the statement runs; it is made nowhere else, is new
and belongs to exactly its class and the ancestors of it; and there is no second one. -/
def creationAxioms (L : Layout) (c : ClassId) (sort : SortId) (p : PredId) : Encode Unit := do
  let made (ps : List Term) (o : Term) : Formula := .atom p (ps ++ [o])
  axiomOver (someCreated sort p)
  let (binders, ps) ← contextBinders
  let (b, o) ← binder sort
  let s ← get
  let facts :=
    [s.contexts.membership s.context ps, guarded s.guards ps, .mkNot (L.initial.holds sort [] o), L.isClass c o] ++
    (foreignClasses L c).map fun d => .mkNot (L.isClass d o)
  emit (.mkForAll (binders ++ [b]) (.mkImplies (made ps o) (.mkAnd facts)))
  let (b1, o1) ← binder sort
  let (b2, o2) ← binder sort
  emit (.mkForAll (binders ++ [b1, b2]) (.mkImplies (.mkAnd [made ps o1, made ps o2]) (.mkEq o1 o2)))

/-- The slot after a creation holds what existed, and the new object. -/
def createdSlot (sort : SortId) (before after : Slot) (p : PredId) (ps : List Term) : Encode Formula := do
  let (b, o) ← binder sort
  return .mkForAll [b] (.mkIff (after.holds ps o) (.mkOr [before.holds ps o, .atom p (ps ++ [o])]))

/-- Create one object of a class, and bind a variable to it. -/
def create (L : Layout) (className : String) (var : Option String) : Encode Unit := do
  let c ← typed (L.graph.resolve className)
  let sort := L.classSort c
  let p ← freshPred ("created_" ++ className) [sort]
  let d ← depth
  creationAxioms L c sort p
  let before := (← get).snapshot.slot sort
  let after ← freshSlot sort
  axiomOver (createdSlot sort before after p)
  modify fun s => { s with
    snapshot := s.snapshot.link sort after
    creations := s.creations ++ [⟨sort, p, (s.contexts.get s.context).paramSorts⟩] }
  match var with
  | some name => bind name ⟨.pred p d, (ObjType.ofClass c).single, true⟩
  | none => return ()

/-- The end of a tuple is not in the value; an end of another sort is not looked at. -/
def endKept (L : Layout) (value : ObjValue) (ps : List Term) (isSort : Bool) (object : Term) : Encode (List Formula) := do
  if isSort then
    let gone ← member L value ps object
    return [.mkNot gone]
  else return []

/-- The slot after a deletion holds the tuples that existed, less those with an end in the value. -/
def prunedSlot (L : Layout) (sort : SortId) (value : ObjValue) (ts : TupleSort) (before after : Slot) (ps : List Term) :
    Encode Formula := do
  let (b, t) ← binder ts.sort
  let left ← endKept L value ps (ts.source = sort) (ts.leftOf t)
  let right ← endKept L value ps (ts.target = sort) (ts.rightOf t)
  return .mkForAll [b] (.mkIff (after.holds ps t) (.mkAnd (before.holds ps t :: left ++ right)))

/-- The slot of a tuple sort without the tuples that have an end in the value. -/
def pruneTuples (L : Layout) (sort : SortId) (value : ObjValue) (r : Relation) : Encode (SortId × Slot) := do
  let ts ← L.tupleSort r.id
  let before := (← get).snapshot.slot ts.sort
  let after ← freshSlot ts.sort
  axiomOver (prunedSlot L sort value ts before after)
  return (ts.sort, after)

/-- The slot after a deletion holds what existed, less the elements of the value. -/
def deletedSlot (L : Layout) (sort : SortId) (value : ObjValue) (before after : Slot) (ps : List Term) : Encode Formula := do
  let (b, o) ← binder sort
  let gone ← member L value ps o
  return .mkForAll [b] (.mkIff (after.holds ps o) (.mkAnd [before.holds ps o, .mkNot gone]))

/-- Delete the objects of a set, and the tuples that touch one. -/
def delete (L : Layout) (e : ObjExpr) : Encode Unit := do
  let (value, type) ← objSet L false (← get).scope e
  match ← L.sortOf type with
  | none => return ()
  | some sort =>
    let before := (← get).snapshot.slot sort
    let after ← freshSlot sort
    axiomOver (deletedSlot L sort value before after)
    let pruned ← (L.store.incidentRelations type.signature).mapM (pruneTuples L sort value)
    setSnapshot ((← get).snapshot.withSlots ((sort, after) :: pruned))

/-- The objects of the type may be targets of the relation. -/
def checkTarget (L : Layout) (type : ObjType) (r : Relation) : Except TypeError Unit :=
  if type.signature.isBottom then .ok ()
  else
    match L.graph.compare type.signature (.ofClass r.target) with
    | some .less => .ok ()
    | some .equal => .ok ()
    | _ => .error (.incompatibleTypes (L.graph.describe type.signature) (L.graph.describe (.ofClass r.target)))

inductive TupleUpdate where
  | add
  | remove
  deriving DecidableEq, Repr

/-- The slot after an update holds the tuples that existed, with or without those between the two values; a tuple is added
only between objects that exist. -/
def updatedSlot (L : Layout) (ts : TupleSort) (leftValue rightValue : ObjValue) (update : TupleUpdate) (snapshot : Snapshot)
    (after : Slot) (ps : List Term) : Encode Formula := do
  let before := snapshot.slot ts.sort
  let (b, t) ← binder ts.sort
  let left := ts.leftOf t
  let right := ts.rightOf t
  let inLeft ← member L leftValue ps left
  let inRight ← member L rightValue ps right
  let matched := Formula.mkAnd [inLeft, inRight]
  let updated :=
    match update with
    | .remove => Formula.mkAnd [before.holds ps t, .mkNot matched]
    | .add => .mkOr [before.holds ps t,
        .mkAnd [matched, snapshot.holds ts.source ps left, snapshot.holds ts.target ps right]]
  return .mkForAll [b] (.mkIff (after.holds ps t) updated)

/-- Relate, or cease to relate, the objects of two sets. Tuples are added only between existing objects. -/
def updateTuples (L : Layout) (source : ObjExpr) (relation : String) (target : ObjExpr) (update : TupleUpdate) :
    Encode Unit := do
  let scope := (← get).scope
  let (sourceValue, sourceType) ← objSet L false scope source
  let (targetValue, targetType) ← objSet L false scope target
  let r ← typed (L.store.relationOn sourceType.signature relation)
  typed (checkTarget L targetType r)
  let ts ← L.tupleSort r.base
  let leftValue := if r.flipped then targetValue else sourceValue
  let rightValue := if r.flipped then sourceValue else targetValue
  let snapshot := (← get).snapshot
  let after ← freshSlot ts.sort
  axiomOver (updatedSlot L ts leftValue rightValue update snapshot after)
  modify fun s => { s with snapshot := s.snapshot.link ts.sort after }

end StoreCheck.Encode
