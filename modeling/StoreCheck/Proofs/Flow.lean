import StoreCheck.Encoding.Branch
import StoreCheck.Proofs.Scope

/-!
# The static types of the variables along an action

Which relation a name stands for depends on the type of the set it is applied to, so the meaning of an action needs the types of
its variables at every point. `Flow.block` computes them without encoding anything: a loop's variable and the variables first
bound inside a loop end with it, a chained loop carries the reassigned outer variables out, and where alternatives meet a
variable has the join of its types.

`Flow.everywhere` checks a condition at every statement that the encoding walks over, with the types in front of it.
-/

namespace StoreCheck

namespace Flow

/-- The types after alternatives: every variable that one of them binds. -/
def mergeEnvs (g : ClassGraph) (exits : List TypeEnv) : TypeEnv :=
  (sortNames (exits.flatMap VarMap.names)).map fun name => (name, Encode.mergeTypes g (exits.map (·.find? name)))

/-- The outer variables that the body of a loop assigns. -/
def carried (types : TypeEnv) (var : String) (body : Block) : List String :=
  sortNames ((Block.assigned body).filter fun name => name != var && types.contains name)

/-- After a chained loop a carried variable has a type that covers its types before the loop and at the end of the body. -/
def carryOut (g : ClassGraph) (before inner types : TypeEnv) (name : String) : Except TypeError TypeEnv :=
  match before.find? name, inner.find? name with
  | some b, some a => do return types.insert name (← b.join g a)
  | _, _ => .ok types

mutual

/-- The types after a statement. -/
def statement (store : Store) (types : TypeEnv) : Statement → Except TypeError TypeEnv
  | .assign var value => do return types.insert var (← infer store types value)
  | .create className var => do
    let c ← store.graph.resolve className
    match var with
    | some name => return types.insert name (ObjType.ofClass c).single
    | none => return types
  | .delete _ => return types
  | .createTuple _ _ _ => return types
  | .deleteTuple _ _ _ => return types
  | .ifElse _ thenBlock elseBlock => do
    let first ← block store types thenBlock
    let second ← block store types elseBlock
    return mergeEnvs store.graph [first, second]
  | .either [] => return types
  | .either [only] => block store types only
  | .either branches => do return mergeEnvs store.graph (← blocks store types branches)
  | .forEach _ _ _ .flat => return types
  | .forEach var domain body .chained => do
    let type ← infer store types domain
    if type.signature.isBottom then return types
    else
      let inner ← block store (types.insert var type.single) body
      (carried types var body).foldlM (carryOut store.graph types inner) types

/-- The types after a block. -/
def block (store : Store) (types : TypeEnv) : List Statement → Except TypeError TypeEnv
  | [] => return types
  | s :: rest => do block store (← statement store types s) rest

/-- The types after each of the blocks. -/
def blocks (store : Store) (types : TypeEnv) : List (List Statement) → Except TypeError (List TypeEnv)
  | [] => return []
  | b :: rest => do return (← block store types b) :: (← blocks store types rest)

end

mutual

/-- The condition holds at the statement and everywhere inside it. -/
def everywhere (store : Store) (p : TypeEnv → Statement → Bool) (types : TypeEnv) : Statement → Bool
  | .assign var value => p types (.assign var value)
  | .create className var => p types (.create className var)
  | .delete objects => p types (.delete objects)
  | .createTuple source relation target => p types (.createTuple source relation target)
  | .deleteTuple source relation target => p types (.deleteTuple source relation target)
  | .ifElse condition thenBlock elseBlock =>
    p types (.ifElse condition thenBlock elseBlock) && everywhereIn store p types thenBlock
      && everywhereIn store p types elseBlock
  | .either branches => p types (.either branches) && everywhereInAll store p types branches
  | .forEach var domain body order =>
    p types (.forEach var domain body order) &&
      match infer store types domain with
      | .ok type => type.signature.isBottom || everywhereIn store p (types.insert var type.single) body
      | .error _ => true

/-- The condition holds at every statement of the block and everywhere inside it. -/
def everywhereIn (store : Store) (p : TypeEnv → Statement → Bool) (types : TypeEnv) : List Statement → Bool
  | [] => true
  | s :: rest =>
    everywhere store p types s &&
      match statement store types s with
      | .ok after => everywhereIn store p after rest
      | .error _ => true

/-- The condition holds everywhere in each of the blocks. -/
def everywhereInAll (store : Store) (p : TypeEnv → Statement → Bool) (types : TypeEnv) : List (List Statement) → Bool
  | [] => true
  | b :: rest => everywhereIn store p types b && everywhereInAll store p types rest

end

/-- The types of the parameters of an action. -/
def params (store : Store) (types : TypeEnv) : List Param → Except TypeError TypeEnv
  | [] => return types
  | p :: rest => do
    let c ← store.graph.resolve p.className
    params store (types.insert p.name ((ObjType.ofClass c).withCardinality p.cardinality)) rest

/-- The condition holds at every statement of the action. -/
def everywhereOf (store : Store) (p : TypeEnv → Statement → Bool) (action : Action) : Bool :=
  match params store [] action.params with
  | .ok types => everywhereIn store p types action.block
  | .error _ => true

/-! ## The scope of the encoding has the types of the flow -/

theorem types_mergeScopes (g : ClassGraph) (depth : Nat) (exits : List Encode.Exit) :
    Scope.types (Encode.mergeScopes g depth exits) = mergeEnvs g (exits.map fun e => e.scope.types) := by
  unfold Encode.mergeScopes mergeEnvs Scope.types
  rw [List.map_map, List.flatMap_map]
  have hnames := Scope.names_types
  unfold Scope.types at hnames
  simp only [hnames]
  apply List.map_congr_left
  intro name _
  simp only [Function.comp, Encode.mergeBinding, List.map_map]
  refine congrArg (fun l => (name, Encode.mergeTypes g l)) (List.map_congr_left fun e _ => ?_)
  exact (Scope.find?_types e.scope name).symm

end Flow

end StoreCheck
