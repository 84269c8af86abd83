import StoreCheck.Prover.Verdict

/-!
# Provers and races between them

A prover is a program with arguments. All provers are started on a theory, and the first decisive verdict wins. Programs run
outside: `Launch` says what each one prints.
-/

namespace StoreCheck

/-- A program that proves theories of one dialect. -/
structure Prover where
  name : String
  program : String
  /-- The arguments, with places for the file and the time limit. -/
  args : List String
  dialect : Dialect
  deriving DecidableEq, Repr

namespace Prover

def filePlace : String := "\x7bfile\x7d"

def timeoutPlace : String := "\x7btimeout\x7d"

def spass : Prover where
  name := "spass"
  program := "SPASS"
  args := ["-TimeLimit=" ++ timeoutPlace, "-PGiven=0", "-PProblem=0", filePlace]
  dialect := .dfg

def z3 : Prover where
  name := "z3"
  program := "z3"
  args := ["-smt2", "-T:" ++ timeoutPlace, filePlace]
  dialect := .smtLib

/-- The provers that are used unless others are configured. -/
def defaults : List Prover := [spass, z3]

/-- The arguments of one run: the file is filled in first, then the time limit in whole seconds, at least one. -/
def arguments (p : Prover) (file : String) (milliseconds : Nat) : List String :=
  let seconds := toString (max 1 (milliseconds / 1000))
  p.args.map fun arg => Text.replace timeoutPlace seconds (Text.replace filePlace file arg)

end Prover

/-! ## Races -/

/-- What a prover prints when it is run on a theory; none if it cannot be started. -/
abbrev Launch := Prover → Theory → Option String

/-- The result of a race. -/
structure Solution where
  verdict : Verdict
  prover : Option String
  deriving DecidableEq, Repr

/-- Why there is no race. -/
inductive RaceError where
  | noProver (programs : List String)
  deriving DecidableEq, Repr

def RaceError.message : RaceError → String
  | .noProver programs => "No prover could be started (tried: " ++ ", ".intercalate programs ++ ")"

/-- Run provers on a theory; the first one with a decisive verdict wins. -/
def solve (launch : Launch) (provers : List Prover) (theory : Theory) : Except RaceError Solution :=
  let runs := provers.filterMap fun p => (launch p theory).map fun output => (p, Verdict.ofOutput p.dialect output)
  if runs.isEmpty then .error (.noProver (provers.map (·.program)))
  else
    match runs.find? fun run => run.2.isDecisive with
    | some (p, verdict) => .ok ⟨verdict, some p.name⟩
    | none => .ok ⟨.inconclusive, none⟩

end StoreCheck
