import StoreCheck.Logic.Dfg
import StoreCheck.Logic.SmtLib
import StoreCheck.Text.Blank
import StoreCheck.Text.Search

/-!
# Dialects of provers and their verdicts

A prover reads a theory in one of two dialects and says in its output what it found. A proof makes the verdict correct, a
counter-model makes it incorrect, and anything else leaves it open.
-/

namespace StoreCheck

/-! ## Dialects -/

inductive Dialect where
  | dfg
  | smtLib
  deriving DecidableEq, Repr

namespace Dialect

def all : List Dialect := [.dfg, .smtLib]

def name : Dialect → String
  | .dfg => "dfg"
  | .smtLib => "smtlib"

def ofName? (name : String) : Option Dialect := all.find? fun d => d.name == name

def extension : Dialect → String
  | .dfg => "dfg"
  | .smtLib => "smt2"

def render : Dialect → Theory → String
  | .dfg, t => t.toDfg
  | .smtLib, t => t.toSmtLib

end Dialect

/-! ## Verdicts -/

inductive Verdict where
  /-- The conjecture follows from the axioms. -/
  | correct
  /-- There is a counter-model. -/
  | incorrect
  /-- Neither was found. -/
  | inconclusive
  deriving DecidableEq, Repr

namespace Verdict

/-- The verdict on the negation of a conjecture. -/
def flipped : Verdict → Verdict
  | .correct => .incorrect
  | .incorrect => .correct
  | .inconclusive => .inconclusive

def text : Verdict → String
  | .correct => "correct"
  | .incorrect => "incorrect"
  | .inconclusive => "inconclusive"

/-- The verdict settles the conjecture. -/
def isDecisive (v : Verdict) : Bool := v ≠ .inconclusive

/-- Read the verdict off the output of a prover: by a phrase anywhere in it, or by its first line that is not blank. -/
def ofOutput (dialect : Dialect) (output : String) : Verdict :=
  match dialect with
  | .dfg =>
    if Text.contains "Proof found".toList output.toList then .correct
    else if Text.contains "Completion found".toList output.toList then .incorrect
    else .inconclusive
  | .smtLib =>
    match Text.firstLine? output.toList with
    | some line =>
      if line = "unsat".toList then .correct else if line = "sat".toList then .incorrect else .inconclusive
    | none => .inconclusive

end Verdict

end StoreCheck
