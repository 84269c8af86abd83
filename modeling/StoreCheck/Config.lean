import StoreCheck.Prover.Basic

/-!
# Configuration
-/

namespace StoreCheck

structure Config where
  /-- The time limit of a prover on one goal. -/
  timeoutSeconds : UInt64
  provers : List Prover
  /-- Stop at the first goal that is found incorrect. -/
  haltOnFirstError : Bool
  /-- Goals may be checked at the same time; this does not change the results. -/
  parallel : Bool
  /-- The directory for the theories of the goals. -/
  emitDir : Option String
  deriving DecidableEq, Repr

def Config.default : Config where
  timeoutSeconds := 30
  provers := Prover.defaults
  haltOnFirstError := false
  parallel := true
  emitDir := none

end StoreCheck
