import StoreCheck.Logic.Names

/-!
# Symbol tables

A theory is written over sorts, predicates and functions. Symbols are numbered in the order in which they were added, each
kind on its own, and share one table of names.
-/

namespace StoreCheck

/-- A sort, by its place in the symbol table. -/
structure SortId where
  index : Nat
  deriving DecidableEq, Repr

/-- A predicate, by its place in the symbol table. -/
structure PredId where
  index : Nat
  deriving DecidableEq, Repr

/-- A function, by its place in the symbol table. -/
structure FuncId where
  index : Nat
  deriving DecidableEq, Repr

/-- A predicate with the sorts of its arguments. -/
structure PredSymbol where
  name : String
  args : List SortId
  deriving Repr

/-- A function with the sorts of its arguments and of its result. -/
structure FuncSymbol where
  name : String
  args : List SortId
  result : SortId
  deriving Repr

structure Symbols where
  sorts : List String
  predicates : List PredSymbol
  functions : List FuncSymbol
  names : NameTable
  deriving Repr

namespace Symbols

def empty : Symbols := ⟨[], [], [], .empty⟩

def addSort (s : Symbols) (hint : String) : SortId × Symbols :=
  let (name, names) := s.names.fresh hint
  (⟨s.sorts.length⟩, { s with sorts := s.sorts ++ [name], names })

def addPredicate (s : Symbols) (hint : String) (args : List SortId) : PredId × Symbols :=
  let (name, names) := s.names.fresh hint
  (⟨s.predicates.length⟩, { s with predicates := s.predicates ++ [⟨name, args⟩], names })

def addFunction (s : Symbols) (hint : String) (args : List SortId) (result : SortId) : FuncId × Symbols :=
  let (name, names) := s.names.fresh hint
  (⟨s.functions.length⟩, { s with functions := s.functions ++ [⟨name, args, result⟩], names })

/-- All sorts, in the order in which they were added. -/
def sortIds (s : Symbols) : List SortId := (List.range s.sorts.length).map SortId.mk

def sortName (s : Symbols) (id : SortId) : String := s.sorts.getD id.index ""

def predName (s : Symbols) (id : PredId) : String :=
  match s.predicates[id.index]? with
  | some p => p.name
  | none => ""

def funcName (s : Symbols) (id : FuncId) : String :=
  match s.functions[id.index]? with
  | some f => f.name
  | none => ""

def findPredicate (s : Symbols) (name : String) : Option PredId :=
  (s.predicates.findIdx? fun p => p.name == name).map PredId.mk

end Symbols

end StoreCheck
