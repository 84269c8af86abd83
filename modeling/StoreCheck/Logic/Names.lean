/-!
# Names of symbols

Every symbol of a theory gets a name of its own: a lower-case letter followed by lower-case letters, digits and underscores,
which no dialect reserves. A name is made from a hint. When it is taken, the suffixes `_2`, `_3`, … are tried in order; among
as many candidates as there are taken names, and one more, some candidate is free.
-/

namespace StoreCheck

/-- The words that one of the dialects reserves. -/
def reservedWords : List String :=
  ["and", "or", "not", "implies", "implied", "equiv", "equal", "forall", "exists", "true", "false", "formula", "predicate",
    "predicates", "functions", "sorts", "sort", "subsort", "axioms", "conjectures", "end_of_list", "begin_problem",
    "end_problem", "name", "author", "status", "description", "satisfiable", "unsatisfiable", "unknown", "distinct", "ite",
    "let", "as", "par", "bool", "int", "real", "select", "store", "assert"]

/-- A letter of the basic alphabet, in lower case. -/
def isSmallLetter (c : Char) : Bool := 'a' ≤ c && c ≤ 'z'

/-- A character of a name: letters are put in lower case, digits stay, anything else becomes an underscore. -/
def nameChar (c : Char) : Char := if c.isAlphanum then c.toLower else '_'

/-- The name that a hint asks for; an `x` is put in front when it does not start with a letter. -/
def nameOfHint (hint : String) : String :=
  let cs := hint.toList.map nameChar
  match cs with
  | c :: _ => if isSmallLetter c then String.ofList cs else String.ofList ('x' :: cs)
  | [] => "x"

/-- The names given so far, the latest first. -/
structure NameTable where
  used : List String
  deriving Repr

namespace NameTable

def empty : NameTable := ⟨[]⟩

/-- The name was given before, or is reserved. -/
def isTaken (t : NameTable) (name : String) : Bool := t.used.contains name || reservedWords.contains name

/-- The candidates for a base name: the name itself, then the name with the suffixes `_2`, `_3`, … -/
def candidate (base : String) : Nat → String
  | 0 => base
  | n + 1 => base ++ "_" ++ toString (n + 2)

/-- The first free candidate from the given one on. -/
def firstFree (t : NameTable) (base : String) : Nat → Nat → String
  | 0, i => candidate base i
  | fuel + 1, i => if t.isTaken (candidate base i) then firstFree t base fuel (i + 1) else candidate base i

/-- A name for a hint that is not taken. -/
def pick (t : NameTable) (hint : String) : String :=
  t.firstFree (nameOfHint hint) (t.used.length + reservedWords.length) 0

/-- Give out a name for a hint. -/
def fresh (t : NameTable) (hint : String) : String × NameTable :=
  let name := t.pick hint
  (name, ⟨name :: t.used⟩)

end NameTable

end StoreCheck
