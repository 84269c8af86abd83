import StoreCheck.CardinalityInvariant
import StoreCheck.Config
import StoreCheck.Encoding.Goal
import StoreCheck.Verification.Report

/-!
# Checking that actions preserve invariants

For each action there is a goal that the invariants are consistent, and one goal for each checked invariant: that the action
preserves it. An invariant that reads no sort which the action writes needs no proof. All other goals become theories and
are given to the provers; a goal without a theory is reported as an error and does not affect the others.
-/

namespace StoreCheck

/-! ## Goals -/

/-- What is to be shown about an action. -/
inductive Goal where
  | consistency
  | preserve (invariant : Invariant)

namespace Goal

/-- What stands for an invariant in the name of the consistency goal. -/
def consistencyLabel : String := "consistency"

def label : Goal → String
  | .consistency => consistencyLabel
  | .preserve invariant => invariant.name

def fileChar (c : Char) : Char := if c.isAlphanum || c = '_' then c else '_'

/-- The name of a goal, which is also the name of its files. -/
def name (action label : String) : String := String.ofList ((action ++ "__" ++ label).toList.map fileChar)

end Goal

/-! ## Verifiers -/

/-- A store whose actions are to be checked. -/
structure Verifier where
  store : Store
  config : Config
  /-- The invariants that come from the bounds of relations. -/
  cardinality : List Invariant

/-- A goal that has been checked: what is reported, and its theory if one was made. -/
structure CheckedGoal where
  report : GoalReport
  theory : Option Theory

/-- The goals of a run that have been checked, in order. -/
abbrev Run := List CheckedGoal

namespace Run

def report (run : Run) : Report := ⟨run.map (·.report)⟩

/-- The files of a run: each theory in each dialect. -/
def files (run : Run) : List (String × String) :=
  (run.filterMap (·.theory)).flatMap fun t => Dialect.all.map fun d => (t.name ++ "." ++ d.extension, d.render t)

/-- Run parts one after another, until one fails; if `halt` is set, the part with the first incorrect goal is the last one.
Returns the goals checked so far, and the error that broke off the run. -/
def sequence (halt : Bool) (run : String → Except TypeError Run) : List String → Run × Option TypeError
  | [] => ([], none)
  | name :: rest =>
    match run name with
    | .error e => ([], some e)
    | .ok part =>
      if halt && part.report.hasIncorrect then (part, none)
      else
        let (others, error) := sequence halt run rest
        (part ++ others, error)

/-- A run that was not broken off. -/
def complete : Run × Option TypeError → Except TypeError Run
  | (run, none) => .ok run
  | (_, some e) => .error e

end Run

namespace Verifier

def ofStore (store : Store) (config : Config) : Except EncodeError Verifier := do
  return ⟨store, config, ← store.cardinalityInvariants⟩

/-- All invariants: the declared ones, then those of the relations. -/
def invariants (v : Verifier) : List Invariant := v.store.invariants ++ v.cardinality

def invariant (v : Verifier) (name : String) : Except TypeError Invariant :=
  match v.invariants.find? fun i => i.name == name with
  | some i => .ok i
  | none => .error (.unknownInvariant name)

/-- The invariants with the names; all of them if there is no name. -/
def selected (v : Verifier) (names : List String) : Except TypeError (List Invariant) :=
  if names.isEmpty then .ok v.invariants else names.mapM v.invariant

/-- The theory of a goal. All invariants are assumed. -/
def goalTheory (v : Verifier) (action : Action) (goal : Goal) : Except EncodeError Theory :=
  let assumed := v.invariants.map (·.formula)
  let name := Goal.name action.name goal.label
  match goal with
  | .consistency => consistencyTheory v.store assumed name
  | .preserve invariant => preservationTheory v.store action assumed [invariant.formula] name

/-- The sorts that an action writes; none if it is ill-typed. -/
def writtenSorts (v : Verifier) (action : Action) : Option (List SortId) :=
  match action.effects v.store with
  | .ok effects => some ((Layout.ofStore v.store).1.sortsOf effects.writes)
  | .error _ => none

/-- The invariant reads none of the sorts. -/
def isFramed (v : Verifier) (written : List SortId) (invariant : Invariant) : Bool :=
  match invariant.formula.effects v.store with
  | .ok effects => ((Layout.ofStore v.store).1.sortsOf effects.reads).all fun sort => !written.contains sort
  | .error _ => false

/-- No proof is needed for the goal. -/
def isTrivial (v : Verifier) (written : Option (List SortId)) : Goal → Bool
  | .consistency => false
  | .preserve invariant =>
    match written with
    | some sorts => v.isFramed sorts invariant
    | none => false

/-- The provers' answer on a theory; without provers there is none. -/
def race (v : Verifier) (launch : Launch) (theory : Theory) : Solution :=
  match solve launch v.config.provers theory with
  | .ok solution => solution
  | .error _ => ⟨.inconclusive, none⟩

/-- The theory of a consistency goal conjectures falsehood, so a proof of it is a contradiction between invariants. -/
def verdictOn : Goal → Verdict → Verdict
  | .consistency, verdict => verdict.flipped
  | .preserve _, verdict => verdict

/-- Check a goal, given the sorts that the action writes. -/
def check (v : Verifier) (launch : Launch) (action : Action) (written : Option (List SortId)) (goal : Goal) :
    CheckedGoal :=
  let report (outcome : Outcome) (prover : Option String) (stats : Option TheoryStats) : GoalReport :=
    { action := action.name, invariant := goal.label, outcome, prover, stats, encodingMillis := 0, solvingMillis := 0 }
  if v.isTrivial written goal then ⟨report .trivial none none, none⟩
  else
    match v.goalTheory action goal with
    | .error e => ⟨report (.error e.message) none none, none⟩
    | .ok theory =>
      let solution := v.race launch theory
      ⟨report (.verdict (verdictOn goal solution.verdict)) solution.prover (some theory.stats), some theory⟩

/-- Check goals in order; if `halt` is set, the first incorrect one is the last. -/
def checkAll (halt : Bool) (check : Goal → CheckedGoal) : List Goal → Run
  | [] => []
  | goal :: rest =>
    let checked := check goal
    if halt && checked.report.outcome.isIncorrect then [checked] else checked :: checkAll halt check rest

/-- Check an action against the invariants with the names. -/
def verifyAction (v : Verifier) (launch : Launch) (filter : List String) (name : String) : Except TypeError Run := do
  let action ← v.store.action name
  let invariants ← v.selected filter
  let written := v.writtenSorts action
  return checkAll v.config.haltOnFirstError (v.check launch action written) (.consistency :: invariants.map .preserve)

def verifyActions (v : Verifier) (launch : Launch) (filter actions : List String) : Run × Option TypeError :=
  Run.sequence v.config.haltOnFirstError (v.verifyAction launch filter) actions

def verifyAll (v : Verifier) (launch : Launch) (filter : List String) : Except TypeError Run :=
  Run.complete (v.verifyActions launch filter (v.store.actions.map (·.name)))

end Verifier

end StoreCheck
