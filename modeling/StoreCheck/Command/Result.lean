import StoreCheck.Command.Arguments
import StoreCheck.Json.ConfigForm
import StoreCheck.Json.ReportForm
import StoreCheck.Json.SpecForm
import StoreCheck.Json.Writer
import StoreCheck.Verification.Verifier

/-!
# What commands do

A command gets the texts of files and the outputs of provers from outside, and its result says what is to be printed and
written. So all of it but the reading, printing and writing is done here.
-/

namespace StoreCheck

/-- Why a command failed. -/
structure Failure where
  message : String
  cause : Option String
  deriving DecidableEq, Repr

/-- The failure as text; the lines of the cause are indented. -/
def Failure.text (f : Failure) : String :=
  match f.cause with
  | none => "Error: " ++ f.message ++ "\n"
  | some cause => "Error: " ++ f.message ++ "\n\nCaused by:\n    " ++ Text.replace "\n" "\n    " cause ++ "\n"

/-- What is outside of the program. -/
structure Outside where
  /-- The text of a file, or why it cannot be read. -/
  read : String → Except String String
  launch : Launch

structure CommandResult where
  exitCode : UInt32
  output : String
  failure : Option Failure
  /-- A directory and files for it; the directory is made if need be, and what cannot be written is left out. -/
  emitted : Option (String × List (String × String))
  /-- A file that has to be written. -/
  target : Option (String × String)

namespace CommandResult

def printed (output : String) : CommandResult := ⟨0, output, none, none, none⟩

def failed (failure : Failure) : CommandResult := ⟨1, "", some failure, none, none⟩

/-- A command whose target could not be written. -/
def unwritten (path cause : String) : CommandResult := failed ⟨"Failed to write " ++ path, some cause⟩

/-- The arguments do not ask for a command in the right way. -/
def misused : CommandResult := ⟨2, "", none, none, none⟩

/-- The result of a computation that may fail. -/
def ofExcept : Except Failure CommandResult → CommandResult
  | .ok r => r
  | .error f => failed f

end CommandResult

namespace Command

/-- Fail with a message and no further cause. -/
def direct {α ε : Type} (message : ε → String) : Except ε α → Except Failure α
  | .ok a => .ok a
  | .error e => .error ⟨message e, none⟩

/-- Fail with a message about what was done, and the error as its cause. -/
def within {α ε : Type} (doing : String) (message : ε → String) : Except ε α → Except Failure α
  | .ok a => .ok a
  | .error e => .error ⟨doing, some (message e)⟩

/-- A text that denotes no value of its form. -/
def decoded {α : Type} (doing : String) : Option α → Except Failure α
  | some a => .ok a
  | none => .error ⟨doing, some "malformed JSON"⟩

def loadStore (outside : Outside) (path : String) : Except Failure Store := do
  let text ← within ("Failed to read specification " ++ path) id (outside.read path)
  let invalid := "Invalid specification " ++ path
  let spec ← decoded invalid (Spec.parse? text)
  within invalid TypeError.message (Store.ofSpec spec)

def loadConfig (outside : Outside) (path : String) : Except Failure Config := do
  let text ← within ("Failed to read config " ++ path) id (outside.read path)
  decoded ("Failed to parse config " ++ path) (Config.parse? text)

/-- The configuration of a request: that of its file or the usual one, changed by the options. -/
def configOf (outside : Outside) (r : VerifyRequest) : Except Failure Config := do
  let config ←
    match r.config with
    | some path => loadConfig outside path
    | none => .ok .default
  return { config with
    timeoutSeconds := r.timeoutSeconds.getD config.timeoutSeconds
    haltOnFirstError := config.haltOnFirstError || r.haltOnFirstError
    parallel := config.parallel && !r.sequential
    emitDir := r.emitDir.or config.emitDir }

/-- Check actions against invariants. With halting set, an incorrect goal makes the exit code 1. -/
def runVerify (outside : Outside) (r : VerifyRequest) : Except Failure CommandResult := do
  let config ← configOf outside r
  let store ← loadStore outside r.spec
  let verifier ← within "Failed to prepare invariants" EncodeError.message (Verifier.ofStore store config)
  let actions := if r.actions.isEmpty then store.actions.map (·.name) else r.actions
  let (run, error) := verifier.verifyActions outside.launch r.invariants actions
  let emitted := config.emitDir.map fun dir => (dir, run.files)
  match error with
  | some e => return { CommandResult.failed ⟨e.message, none⟩ with emitted }
  | none =>
    let text := if r.json then run.report.toJson.pretty else run.report.text
    let exitCode := if config.haltOnFirstError && run.report.hasIncorrect then 1 else 0
    return { CommandResult.printed (text ++ "\n") with exitCode, emitted }

def runEffects (outside : Outside) (spec actionName : String) : Except Failure CommandResult := do
  let store ← loadStore outside spec
  let action ← direct TypeError.message (store.action actionName)
  let effects ← within ("Effect analysis of " ++ action.name ++ " failed") TypeError.message (action.effects store)
  return .printed (String.join ((effects.describe store).map (· ++ "\n")))

def runEmit (outside : Outside) (r : EmitRequest) : Except Failure CommandResult := do
  let store ← loadStore outside r.spec
  let verifier ← direct EncodeError.message (Verifier.ofStore store .default)
  let action ← direct TypeError.message (store.action r.action)
  let goal ←
    match r.invariant with
    | some name => (direct TypeError.message (verifier.invariant name)).map Goal.preserve
    | none => .ok .consistency
  let theory ← within ("Translation of " ++ action.name ++ " failed") EncodeError.message (verifier.goalTheory action goal)
  let text := r.dialect.render theory
  match r.output with
  | some path => return { CommandResult.printed "" with target := some (path, text) }
  | none => return .printed text

def run (outside : Outside) : Command → CommandResult
  | .version => .printed "dsverify 0.1.0\n"
  | .verify request => .ofExcept (runVerify outside request)
  | .effects spec action => .ofExcept (runEffects outside spec action)
  | .emit request => .ofExcept (runEmit outside request)

/-- The files that a command reads. -/
def inputs : Command → List String
  | .version => []
  | .verify request => request.config.toList ++ [request.spec]
  | .effects spec _ => [spec]
  | .emit request => [request.spec]

def runArguments (outside : Outside) (args : List String) : CommandResult :=
  match read? args with
  | some command => run outside command
  | none => .misused

end Command

end StoreCheck
