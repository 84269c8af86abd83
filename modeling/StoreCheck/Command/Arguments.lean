import StoreCheck.Prover.Verdict

/-!
# Commands and their arguments

The first argument that is no option names the command. An option has a long name and may have a short one. Its value
follows as the next argument, behind `=`, or for the short name at once; a value that starts with a dash cannot follow as
the next argument, unless it is a single dash. Short options can be joined. After `--` no argument is an option.
-/

namespace StoreCheck

/-! ## Options -/

/-- What an option takes. -/
inductive OptionKind where
  /-- Nothing, and it is given at most once. -/
  | flag
  /-- Nothing, and it may be given again. -/
  | counter
  /-- A value, and it is given at most once. -/
  | value
  /-- A value, and it may be given again. -/
  | values
  deriving DecidableEq, Repr

structure CommandOption where
  long : String
  short : Option Char
  kind : OptionKind
  deriving DecidableEq, Repr

namespace CommandOption

def takesValue (o : CommandOption) : Bool := o.kind = .value || o.kind = .values

def isRepeatable (o : CommandOption) : Bool := o.kind = .counter || o.kind = .values

end CommandOption

/-- The arguments of a command, taken apart. -/
structure Arguments where
  /-- The options given, with their values, in order; those that take no value have the empty one. -/
  options : List (CommandOption × String)
  positionals : List String

namespace Arguments

def empty : Arguments := ⟨[], []⟩

def addOption (a : Arguments) (o : CommandOption) (value : String) : Arguments :=
  { a with options := a.options ++ [(o, value)] }

def addPositional (a : Arguments) (value : String) : Arguments := { a with positionals := a.positionals ++ [value] }

/-- The values of an option, in order. -/
def valuesOf (a : Arguments) (long : String) : List String :=
  (a.options.filter fun o => o.1.long == long).map (·.2)

def has (a : Arguments) (long : String) : Bool := a.options.any fun o => o.1.long == long

/-- No option is given more often than it may be. -/
def isWithinCounts (a : Arguments) : Bool :=
  a.options.all fun o => o.1.isRepeatable || (a.valuesOf o.1.long).length ≤ 1

/-! ## Reading arguments -/

/-- Joined short options. The second part of the result is an option whose value is in the next argument. -/
def readShort (known : List CommandOption) (a : Arguments) : List Char → Option (Arguments × Option CommandOption)
  | [] => some (a, none)
  | c :: cs =>
    match known.find? fun o => o.short == some c with
    | none => none
    | some o =>
      if o.takesValue then
        match cs with
        | [] => some (a, some o)
        | '=' :: value => some (a.addOption o (String.ofList value), none)
        | value => some (a.addOption o (String.ofList value), none)
      else readShort known (a.addOption o "") cs

/-- A long option, given without its dashes. -/
def readLong (known : List CommandOption) (a : Arguments) (cs : List Char) :
    Option (Arguments × Option CommandOption) :=
  let long := String.ofList (cs.takeWhile (· ≠ '='))
  match known.find? fun o => o.long == long with
  | none => none
  | some o =>
    match cs.dropWhile (· ≠ '='), o.takesValue with
    | [], true => some (a, some o)
    | [], false => some (a.addOption o "", none)
    | _ :: value, true => some (a.addOption o (String.ofList value), none)
    | _ :: _, false => none

/-- Take arguments apart; none if an option is unknown, or its value is missing or not expected. `pending` is an option
that waits for its value. -/
def readAll (known : List CommandOption) : Option CommandOption → Arguments → List String → Option Arguments
  | none, a, [] => some a
  | some _, _, [] => none
  | pending, a, arg :: rest =>
    match arg.toList, pending with
    | ['-', '-'], none => some { a with positionals := a.positionals ++ rest }
    | '-' :: '-' :: cs, none => (readLong known a cs).bind fun r => readAll known r.2 r.1 rest
    | '-' :: c :: cs, none => (readShort known a (c :: cs)).bind fun r => readAll known r.2 r.1 rest
    | '-' :: _ :: _, some _ => none
    | _, none => readAll known none (a.addPositional arg) rest
    | _, some o => readAll known none (a.addOption o arg) rest

def read? (known : List CommandOption) (args : List String) : Option Arguments :=
  (readAll known none .empty args).filter (·.isWithinCounts)

/-! ## Values -/

def path? (s : String) : Option String := if s.isEmpty then none else some s

/-- A number of 64 bits in decimal digits, which a plus sign may precede. -/
def seconds? (s : String) : Option UInt64 :=
  let digits :=
    match s.toList with
    | '+' :: ds => ds
    | ds => ds
  let n := digits.foldl (fun n d => n * 10 + (d.toNat - '0'.toNat)) 0
  if !digits.isEmpty && digits.all Char.isDigit && n < UInt64.size then some n.toUInt64 else none

/-- The only argument that is no option, as a path. -/
def onlyPath? (a : Arguments) : Option String :=
  match a.positionals with
  | [p] => path? p
  | _ => none

/-- The value of an option that may be left out. -/
def optional? {α : Type} (a : Arguments) (long : String) (value? : String → Option α) : Option (Option α) :=
  match a.valuesOf long with
  | [] => some none
  | s :: _ => (value? s).map some

end Arguments

/-! ## Commands -/

structure VerifyRequest where
  spec : String
  /-- The actions to check; all of them if there is none. -/
  actions : List String
  /-- The invariants to check; all of them if there is none. -/
  invariants : List String
  config : Option String
  timeoutSeconds : Option UInt64
  haltOnFirstError : Bool
  sequential : Bool
  emitDir : Option String
  json : Bool
  deriving DecidableEq, Repr

structure EmitRequest where
  spec : String
  action : String
  /-- The invariant of the goal; without one it is the consistency goal. -/
  invariant : Option String
  dialect : Dialect
  output : Option String
  deriving DecidableEq, Repr

inductive Command where
  | version
  | verify (request : VerifyRequest)
  | effects (spec action : String)
  | emit (request : EmitRequest)
  deriving DecidableEq, Repr

namespace Command

/-- How much is logged; known everywhere. -/
def verboseOption : CommandOption := ⟨"verbose", some 'v', .counter⟩

def verifyOptions : List CommandOption :=
  [verboseOption, ⟨"action", some 'a', .values⟩, ⟨"invariant", some 'i', .values⟩, ⟨"config", some 'c', .value⟩,
   ⟨"timeout", some 't', .value⟩, ⟨"halt-on-first-error", none, .flag⟩, ⟨"sequential", none, .flag⟩,
   ⟨"emit-dir", none, .value⟩, ⟨"json", none, .flag⟩]

def effectsOptions : List CommandOption := [verboseOption, ⟨"action", some 'a', .value⟩]

def emitOptions : List CommandOption :=
  [verboseOption, ⟨"action", some 'a', .value⟩, ⟨"invariant", some 'i', .value⟩, ⟨"format", some 'f', .value⟩,
   ⟨"output", some 'o', .value⟩]

def readVerify? (args : List String) : Option Command := do
  let a ← Arguments.read? verifyOptions args
  let spec ← a.onlyPath?
  let config ← a.optional? "config" Arguments.path?
  let timeoutSeconds ← a.optional? "timeout" Arguments.seconds?
  let emitDir ← a.optional? "emit-dir" Arguments.path?
  return .verify {
    spec, config, timeoutSeconds, emitDir
    actions := a.valuesOf "action"
    invariants := a.valuesOf "invariant"
    haltOnFirstError := a.has "halt-on-first-error"
    sequential := a.has "sequential"
    json := a.has "json" }

def readEffects? (args : List String) : Option Command := do
  let a ← Arguments.read? effectsOptions args
  let spec ← a.onlyPath?
  let action ← (a.valuesOf "action").head?
  return .effects spec action

def readEmit? (args : List String) : Option Command := do
  let a ← Arguments.read? emitOptions args
  let spec ← a.onlyPath?
  let action ← (a.valuesOf "action").head?
  let invariant ← a.optional? "invariant" some
  let dialect ← a.optional? "format" Dialect.ofName?
  let output ← a.optional? "output" Arguments.path?
  return .emit { spec, action, invariant, dialect := dialect.getD .dfg, output }

/-- Joined short options in front of the command: whether the version is asked for; none if one is unknown. -/
def leadingShort? : List Char → Option Bool
  | [] => some false
  | 'V' :: _ => some true
  | 'v' :: cs => leadingShort? cs
  | _ :: _ => none

/-- The command that the arguments of the program ask for; none if they ask for no command in the right way. -/
def read? : List String → Option Command
  | [] => none
  | "verify" :: rest => readVerify? rest
  | "effects" :: rest => readEffects? rest
  | "emit" :: rest => readEmit? rest
  | "--version" :: _ => some .version
  | "--verbose" :: rest => read? rest
  | arg :: rest =>
    match arg.toList with
    | '-' :: c :: cs =>
      match leadingShort? (c :: cs) with
      | some true => some .version
      | some false => read? rest
      | none => none
    | _ => none

end Command

end StoreCheck
