import StoreCheck.Logic.Formula

/-!
# Theories

A theory holds axioms over a symbol table and the conjectures that should follow from them.
-/

namespace StoreCheck

/-- Axioms, and the conjectures to be proved from them. -/
structure Theory where
  name : String
  symbols : Symbols
  axioms : List Formula
  conjectures : List Formula

structure TheoryStats where
  sorts : Nat
  predicates : Nat
  functions : Nat
  axioms : Nat
  conjectures : Nat
  formulaNodes : Nat
  deriving DecidableEq, Repr

namespace Theory

def stats (t : Theory) : TheoryStats where
  sorts := t.symbols.sorts.length
  predicates := t.symbols.predicates.length
  functions := t.symbols.functions.length
  axioms := t.axioms.length
  conjectures := t.conjectures.length
  formulaNodes := Formula.sizeAll t.axioms + Formula.sizeAll t.conjectures

/-- The formula that a refutation of the conjectures has to satisfy together with the axioms. -/
def negatedGoal (t : Theory) : Formula := .mkNot (.mkAnd t.conjectures)

end Theory

end StoreCheck
