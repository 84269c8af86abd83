import StoreCheck.Effect.Map
import StoreCheck.Typing

/-!
# Effect analysis

The analysis walks a block once and collects the effects of every statement. It keeps the types of the variables, and which
of them hold only objects that the action has created:

- a created object is local, all objects of a class and the parameters are not;
- the targets of a relation are as local as its sources;
- where the paths of a block meet, a variable is local if it is so on every path that binds it;
- deleting objects also deletes, not locally, tuples of every relation with an end in their component;
- whatever a formula reads through a relation counts as not local.
-/

namespace StoreCheck

/-- What the analysis knows at a point of an action. -/
structure Analysis where
  types : TypeEnv
  locals : VarMap Bool
  effects : EffectMap

abbrev Analyze := StateT Analysis (Except TypeError)

namespace Analysis

def note (d : Domain) (operation : Operation) (isLocal : Bool) : Analyze Unit :=
  modify fun a => { a with effects := a.effects.add d operation isLocal }

def bind (name : String) (type : ObjType) (isLocal : Bool) : Analyze Unit :=
  modify fun a => { a with types := a.types.insert name type, locals := a.locals.insert name isLocal }

/-- The type of an expression under the current types. -/
def typeOf (store : Store) (e : ObjExpr) : Analyze ObjType := do infer store (← get).types e

def localityOf (name : String) : Analyze Bool := do
  match (← get).locals.find? name with
  | some l => return l
  | none => throw (.undefinedVariable name)

/-! ## Expressions and formulas -/

mutual

/-- Collect the reads of an expression; tells whether it is local. -/
def readSet (store : Store) (inFormula : Bool) : ObjExpr → Analyze Bool
  | .allOf className => do
    let c ← store.graph.resolve className
    note (.ofClass c) .read false
    return false
  | .var name => localityOf name
  | .iterator name => localityOf name
  | .subset source => readSet store inFormula source
  | .oneOf source => readSet store inFormula source
  | .union parts => readSets store inFormula parts
  | .deref source relation => do
    let isLocal ← readSet store inFormula source
    let type ← typeOf store source
    let r ← store.relationOn type.signature relation
    note (.ofRelation r.base) .read (isLocal && !inFormula)
    return isLocal

/-- Collect the reads of expressions; tells whether all of them are local. -/
def readSets (store : Store) (inFormula : Bool) : List ObjExpr → Analyze Bool
  | [] => return true
  | e :: rest => do
    let first ← readSet store inFormula e
    let others ← readSets store inFormula rest
    return first && others

end

/-- Bind the variables of a quantifier in order. -/
def bindQuantified (store : Store) : List QuantVar → Analyze Unit
  | [] => return ()
  | v :: rest => do
    let _ ← readSet store true v.domain
    let type ← typeOf store v.domain
    bind v.name type.single false
    bindQuantified store rest

/-- Collect the reads of a quantifier; its variables are bound in the body only. -/
def readQuantifier (store : Store) (vars : List QuantVar) (readBody : Analyze Unit) : Analyze Unit := do
  let before ← get
  bindQuantified store vars
  readBody
  modify fun a => { a with types := before.types, locals := before.locals }

mutual

def readFormula (store : Store) : FormulaExpr → Analyze Unit
  | .literal _ => return ()
  | .not f => readFormula store f
  | .and parts => readFormulas store parts
  | .or parts => readFormulas store parts
  | .equiv parts => readFormulas store parts
  | .implies premise conclusion => do
    readFormula store premise
    readFormula store conclusion
  | .equal sets => do
    let _ ← readSets store true sets
    return ()
  | .isIn set within => do
    let _ ← readSet store true set
    let _ ← readSet store true within
    return ()
  | .isEmpty set => do
    let _ ← readSet store true set
    return ()
  | .forAll vars body => readQuantifier store vars (readFormula store body)
  | .forSome vars body => readQuantifier store vars (readFormula store body)

def readFormulas (store : Store) : List FormulaExpr → Analyze Unit
  | [] => return ()
  | f :: rest => do
    readFormula store f
    readFormulas store rest

end

/-! ## Where paths meet -/

/-- Merge the types at the end of one more path into those of the paths before it. -/
def mergeTypes (g : ClassGraph) (merged types : TypeEnv) : TypeEnv :=
  types.foldl
    (fun m (name, t) =>
      match VarMap.find? m name with
      | some before => VarMap.insert m name (before.merge g t)
      | none => VarMap.insert m name t)
    merged

/-- Merge the localities at the end of one more path into those of the paths before it. -/
def mergeLocals (merged locals : VarMap Bool) : VarMap Bool :=
  locals.foldl (fun m (name, l) => m.insert name ((m.find? name).getD true && l)) merged

/-- Run each path from the same bindings; gives the bindings at the end of each. -/
def runPaths (entry : Analysis) : List (Analyze Unit) → Analyze (List (TypeEnv × VarMap Bool))
  | [] => return []
  | path :: rest => do
    modify fun a => { a with types := entry.types, locals := entry.locals }
    path
    let after ← get
    let others ← runPaths entry rest
    return (after.types, after.locals) :: others

/-- Run alternative paths and merge their bindings. Without any path no variable is bound afterwards. -/
def alternatives (store : Store) (paths : List (Analyze Unit)) : Analyze Unit := do
  let exits ← runPaths (← get) paths
  modify fun a => { a with
    types := exits.foldl (fun m e => mergeTypes store.graph m e.1) []
    locals := exits.foldl (fun m e => mergeLocals m e.2) [] }

/-- After a chained loop a variable that the body binds may hold its value before the loop or one from an iteration. -/
def carryOut (store : Store) (inner : Analysis) (name : String) : Analyze Unit := do
  let outer ← get
  match outer.types.find? name, inner.types.find? name with
  | some before, some after =>
    bind name (before.merge store.graph after)
      ((outer.locals.find? name).getD true && (inner.locals.find? name).getD true)
  | _, _ => return ()

/-! ## Statements -/

def deleteObjects (store : Store) (objects : ObjExpr) : Analyze Unit := do
  let isLocal ← readSet store false objects
  let type ← typeOf store objects
  type.signature.classes.forM fun c => note (.ofClass c) .delete isLocal
  (store.incidentRelations type.signature).forM fun r => note (.ofRelation r.id) .delete false

def updateTuples (store : Store) (source : ObjExpr) (relation : String) (target : ObjExpr) (operation : Operation) :
    Analyze Unit := do
  let sourceLocal ← readSet store false source
  let targetLocal ← readSet store false target
  let type ← typeOf store source
  let r ← store.relationOn type.signature relation
  note (.ofRelation r.base) operation (sourceLocal && targetLocal)

/-- Collect the effects of a loop whose body assigns the given variables. -/
def loop (store : Store) (var : String) (domain : ObjExpr) (assigned : List String) (order : LoopKind)
    (body : Analyze Unit) : Analyze Unit := do
  let isLocal ← readSet store false domain
  let type ← typeOf store domain
  let before ← get
  bind var type.single isLocal
  body
  let inner ← get
  modify fun a => { a with types := before.types, locals := before.locals }
  match order with
  | .flat => return ()
  | .chained => assigned.eraseDups.forM (carryOut store inner)

mutual

def runStatement (store : Store) : Statement → Analyze Unit
  | .assign var value => do
    let isLocal ← readSet store false value
    let type ← typeOf store value
    bind var type isLocal
  | .create className var => do
    let c ← store.graph.resolve className
    note (.ofClass c) .create true
    match var with
    | some name => bind name (ObjType.ofClass c).single true
    | none => return ()
  | .delete objects => deleteObjects store objects
  | .createTuple source relation target => updateTuples store source relation target .create
  | .deleteTuple source relation target => updateTuples store source relation target .delete
  | .ifElse condition thenBlock elseBlock => do
    readFormula store condition
    alternatives store [runBlock store thenBlock, runBlock store elseBlock]
  | .either branches => alternatives store (runEach store branches)
  | .forEach var domain body order => loop store var domain (Block.assigned body) order (runBlock store body)

def runBlock (store : Store) : List Statement → Analyze Unit
  | [] => return ()
  | s :: rest => do
    runStatement store s
    runBlock store rest

/-- The runs of blocks, each on its own. -/
def runEach (store : Store) : List (List Statement) → List (Analyze Unit)
  | [] => []
  | b :: rest => runBlock store b :: runEach store rest

end

/-- The effects that a run collects from the given bindings. -/
def collect (types : TypeEnv) (locals : VarMap Bool) (run : Analyze Unit) : Except TypeError EffectMap := do
  let ((), after) ← run.run ⟨types, locals, .empty⟩
  return after.effects.normalize

/-- Bind the parameters of an action: sets of objects that exist already. -/
def bindParams (store : Store) : List Param → Analyze Unit
  | [] => return ()
  | p :: rest => do
    let c ← store.graph.resolve p.className
    bind p.name ((ObjType.ofClass c).withCardinality p.cardinality) false
    bindParams store rest

end Analysis

def Block.effects (store : Store) (types : TypeEnv) (locals : VarMap Bool) (block : Block) :
    Except TypeError EffectMap :=
  Analysis.collect types locals (Analysis.runBlock store block)

def Action.effects (store : Store) (action : Action) : Except TypeError EffectMap :=
  Analysis.collect [] [] do
    Analysis.bindParams store action.params
    Analysis.runBlock store action.block

/-- The reads of a closed formula. -/
def FormulaExpr.effects (store : Store) (formula : FormulaExpr) : Except TypeError EffectMap :=
  Analysis.collect [] [] (Analysis.readFormula store formula)

end StoreCheck
