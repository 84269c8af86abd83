import StoreCheck.Command.Result

/-!
# The program

It reads the files of a command, prints and writes the command's result. It starts no prover itself: the theories of the
goals are written out for provers to be run on.
-/

namespace StoreCheck.Program

/-- Why a file could not be read or written, in the words of the system. -/
def causeOf : IO.Error → String
  | .noFileOrDirectory .. => "No such file or directory (os error 2)"
  | .permissionDenied .. => "Permission denied (os error 13)"
  | .inappropriateType .. => "Is a directory (os error 21)"
  | e => toString e

def readText (path : String) : IO (Except String String) := do
  try return .ok (← IO.FS.readFile path)
  catch e => return .error (causeOf e)

def readAll (paths : List String) : IO (List (String × Except String String)) :=
  paths.mapM fun path => do return (path, ← readText path)

/-- The texts that have been read, and no provers. -/
def outsideOf (texts : List (String × Except String String)) : Outside where
  read path := (List.lookup path texts).getD (.error "No such file or directory (os error 2)")
  launch _ _ := none

/-- Write the theories of goals; what cannot be written is left out. -/
def writeEmitted (dir : String) (files : List (String × String)) : IO Unit := do
  try
    IO.FS.createDirAll dir
    files.forM fun file => IO.FS.writeFile (dir ++ "/" ++ file.1) file.2
  catch _ => return ()

def finish (r : CommandResult) : IO UInt32 := do
  IO.print r.output
  IO.eprint ((r.failure.map (·.text)).getD "")
  return r.exitCode

def carryOut (r : CommandResult) : IO UInt32 := do
  match r.emitted with
  | some (dir, files) => writeEmitted dir files
  | none => pure ()
  match r.target with
  | none => finish r
  | some (path, text) =>
    try
      IO.FS.writeFile path text
    catch e => return ← finish (.unwritten path (causeOf e))
    finish r

end StoreCheck.Program

open StoreCheck in
def main (args : List String) : IO UInt32 := do
  match Command.read? args with
  | none =>
    IO.eprintln "usage: dsverify [-v] (verify | effects | emit) SPEC [options]"
    return 2
  | some command =>
    let texts ← Program.readAll command.inputs
    Program.carryOut (command.run (Program.outsideOf texts))
