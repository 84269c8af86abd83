import StoreCheck.Encoding.Condition

/-!
# Encoding of alternatives

Each alternative has an indicator: a predicate over the parameters of the context that says where it is taken. All
alternatives start from the same snapshot and scope. Afterwards a sort that one of them changed gets a new slot, which is the
slot of the alternative that was taken, and the same is done for variables.
-/

namespace StoreCheck.Encode

/-- The state at the end of an alternative. -/
structure Exit where
  indicator : PredId
  snapshot : Snapshot
  scope : Scope

/-- Run the alternatives, each from the entry state and under its indicator. -/
def runAlternatives (entry : Session) : List (PredId × Encode Unit) → Encode (List Exit)
  | [] => return []
  | (indicator, run) :: rest => do
    modify fun s => { s with
      snapshot := entry.snapshot
      scope := entry.scope
      guards := entry.guards ++ [⟨indicator, entry.contexts.level entry.context⟩] }
    run
    let after ← get
    let others ← runAlternatives entry rest
    return ⟨indicator, after.snapshot, after.scope⟩ :: others

/-- The sorts that some alternative has changed. -/
def changedSorts (entry : Snapshot) (exits : List Exit) : List SortId :=
  entry.sorts.filter fun sort => exits.any fun e => (entry.difference e.snapshot).contains sort

/-- The merged slot holds what the slot of the taken alternative holds; indicators take the first `d` parameters. -/
def takenSlot (exits : List Exit) (sort : SortId) (d : Nat) (merged : Slot) (ps : List Term) : Encode Formula := do
  let (b, o) ← binder sort
  let cases := exits.map fun e => Formula.mkAnd [.atom e.indicator (ps.take d), e.snapshot.holds sort ps o]
  return .mkForAll [b] (.mkIff (merged.holds ps o) (.mkOr cases))

/-- A slot that holds what the slot of the taken alternative holds. -/
def mergeSlot (exits : List Exit) (sort : SortId) : Encode (SortId × Slot) := do
  let d ← depth
  let merged ← freshSlot sort
  axiomOver (takenSlot exits sort d merged)
  return (sort, merged)

/-- The value of a variable after the alternatives: the common one, or that of the taken alternative; an alternative that
does not bind the variable leaves it empty. -/
def mergeValues (depth : Nat) (indicators : List PredId) (values : List (Option ObjValue)) : ObjValue :=
  let merged := ObjValue.merge depth indicators (values.map (·.getD .empty))
  match values with
  | some first :: rest => if rest.all (· = some first) then first else merged
  | _ => merged

/-- The type of a variable after the alternatives; an alternative that does not bind it counts as the empty set. -/
def mergeTypes (g : ClassGraph) : List (Option ObjType) → ObjType
  | [] => .bottom
  | first :: rest => rest.foldl (fun t u => t.merge g (u.getD .bottom)) (first.getD .bottom)

/-- What a variable is bound to after the alternatives. -/
def mergeBinding (g : ClassGraph) (depth : Nat) (exits : List Exit) (name : String) : Binding :=
  let bindings := exits.map fun e => e.scope.find? name
  { value := mergeValues depth (exits.map (·.indicator)) (bindings.map (·.map (·.value)))
    type := mergeTypes g (bindings.map (·.map (·.type)))
    isLocal := bindings.all fun b => (b.map (·.isLocal)).getD true }

/-- The scope after the alternatives: every variable that one of them binds. -/
def mergeScopes (g : ClassGraph) (depth : Nat) (exits : List Exit) : Scope :=
  (sortNames (exits.flatMap fun e => e.scope.names)).map fun name => (name, mergeBinding g depth exits name)

/-- Run alternatives and merge their results. -/
def branch (L : Layout) (alternatives : List (PredId × Encode Unit)) : Encode Unit := do
  let entry ← get
  let d ← depth
  let exits ← runAlternatives entry alternatives
  modify fun s => { s with snapshot := entry.snapshot, scope := [], guards := entry.guards }
  let changes ← (changedSorts entry.snapshot exits).mapM (mergeSlot exits)
  modify fun s => { s with
    snapshot := entry.snapshot.withSlots changes
    scope := mergeScopes L.graph d exits }

/-- The first indicator is the condition, the second one its negation. -/
def decided (L : Layout) (condition : FormulaExpr) (taken skipped : PredId) (ps : List Term) : Encode Formula := do
  let holds ← formula L ps condition (← get).scope
  return .mkAnd [.mkIff (.atom taken ps) holds, .mkIff (.atom skipped ps) (.mkNot holds)]

/-- A conditional: one indicator is the condition, the other one its negation. -/
def ifElse (L : Layout) (condition : FormulaExpr) (thenRun elseRun : Encode Unit) : Encode Unit := do
  let taken ← freshPred "then" []
  let skipped ← freshPred "else" []
  axiomOver (decided L condition taken skipped)
  branch L [(taken, thenRun), (skipped, elseRun)]

/-- The indicators of a free choice between `n` blocks. -/
def choiceIndicators (n : Nat) : Encode (List PredId) :=
  (List.range n).mapM fun i => freshPred ("either_" ++ toString (i + 1)) []

/-- Exactly one of the indicators holds. -/
def oneTaken (indicators : List PredId) (ps : List Term) : Encode Formula :=
  return .exactlyOne (indicators.map fun p => .atom p ps)

/-- A free choice between blocks: exactly one indicator holds. No block does nothing, and a single one runs as it is. -/
def either (L : Layout) (runs : List (Encode Unit)) : Encode Unit := do
  match runs with
  | [] => return ()
  | [only] => only
  | _ =>
    let indicators ← choiceIndicators runs.length
    axiomOver (oneTaken indicators)
    branch L (indicators.zip runs)

end StoreCheck.Encode
