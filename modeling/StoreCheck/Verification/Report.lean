import StoreCheck.Prover.Verdict

/-!
# Reports on checked goals
-/

namespace StoreCheck

inductive Outcome where
  | verdict (verdict : Verdict)
  /-- The action changes nothing that the invariant reads. -/
  | trivial
  /-- The goal has no theory. -/
  | error (message : String)
  deriving DecidableEq, Repr

namespace Outcome

/-- A counter-model was found. -/
def isIncorrect (o : Outcome) : Bool := o = .verdict .incorrect

def text : Outcome → String
  | .verdict v => v.text
  | .trivial => "correct (frame)"
  | .error message => "error: " ++ message

end Outcome

structure GoalReport where
  action : String
  invariant : String
  outcome : Outcome
  prover : Option String
  /-- The size of the theory; none if there was no need for one, or none could be made. -/
  stats : Option TheoryStats
  /-- How long it took to make the theory; zero where nobody measures. -/
  encodingMillis : Nat
  /-- How long the provers took; zero where nobody measures. -/
  solvingMillis : Nat
  deriving DecidableEq, Repr

def GoalReport.line (g : GoalReport) : String :=
  g.action ++ " / " ++ g.invariant ++ ": " ++ g.outcome.text ++ " (" ++ toString g.encodingMillis ++ " ms translate, " ++
    toString g.solvingMillis ++ " ms solve)"

structure Report where
  goals : List GoalReport
  deriving DecidableEq, Repr

/-- How many goals had each kind of outcome. -/
structure Summary where
  correct : Nat
  incorrect : Nat
  inconclusive : Nat
  errors : Nat
  deriving DecidableEq, Repr

def Summary.text (s : Summary) : String :=
  toString s.correct ++ " correct, " ++ toString s.incorrect ++ " incorrect, " ++ toString s.inconclusive ++
    " inconclusive, " ++ toString s.errors ++ " errors"

namespace Report

/-- Some goal was found incorrect. -/
def hasIncorrect (r : Report) : Bool := r.goals.any (·.outcome.isIncorrect)

/-- Count one more outcome. -/
def countOutcome (s : Summary) : Outcome → Summary
  | .verdict .correct => { s with correct := s.correct + 1 }
  | .trivial => { s with correct := s.correct + 1 }
  | .verdict .incorrect => { s with incorrect := s.incorrect + 1 }
  | .verdict .inconclusive => { s with inconclusive := s.inconclusive + 1 }
  | .error _ => { s with errors := s.errors + 1 }

def summary (r : Report) : Summary := r.goals.foldl (fun s g => countOutcome s g.outcome) ⟨0, 0, 0, 0⟩

/-- The report as text: a line for each goal, then the summary. -/
def text (r : Report) : String := String.join (r.goals.map fun g => g.line ++ "\n") ++ r.summary.text

end Report

end StoreCheck
