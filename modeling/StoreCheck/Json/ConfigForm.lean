import StoreCheck.Config
import StoreCheck.Json.Reader
import StoreCheck.Json.Record

/-!
# Provers and configurations in JSON
-/

namespace StoreCheck

namespace Json

def dialect? (v : Json) : Option Dialect := (choice? (Dialect.all.map (·.name)) false v).bind Dialect.ofName?

def prover? (v : Json) : Option Prover := do
  let fs ← fields? ["name", "program", "args", "dialect"] v
  let name ← fs.required "name" text?
  let program ← fs.required "program" text?
  let args ← fs.withDefault "args" [] (list? text?)
  return ⟨name, program, args, ← fs.required "dialect" dialect?⟩

def config? (v : Json) : Option Config := do
  let fs ← fields? ["timeout_secs", "provers", "halt_on_first_error", "parallel", "emit_dir"] v
  let usual := Config.default
  let timeoutSeconds ← fs.withDefault "timeout_secs" usual.timeoutSeconds word64?
  let provers ← fs.withDefault "provers" usual.provers (list? prover?)
  let haltOnFirstError ← fs.withDefault "halt_on_first_error" usual.haltOnFirstError bool?
  let parallel ← fs.withDefault "parallel" usual.parallel bool?
  return ⟨timeoutSeconds, provers, haltOnFirstError, parallel, ← fs.nullable "emit_dir" text?⟩

end Json

/-- The configuration that a text denotes. -/
def Config.parse? (text : String) : Option Config := do Json.config? (← Json.parse? text)

def Prover.toJson (p : Prover) : Json :=
  .obj [("name", .str p.name), ("program", .str p.program), ("args", Json.ofTexts p.args),
    ("dialect", .str p.dialect.name)]

def Config.toJson (c : Config) : Json :=
  .obj [("timeout_secs", .nat c.timeoutSeconds.toNat), ("provers", .arr (c.provers.map (·.toJson))),
    ("halt_on_first_error", .bool c.haltOnFirstError), ("parallel", .bool c.parallel),
    ("emit_dir", Json.ofText? c.emitDir)]

end StoreCheck
