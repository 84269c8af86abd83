/-!
# JSON values

An object keeps its members in the order of the text, repeated keys included. Only natural numbers below 2^64 are kept as
numbers that can be computed with: no form read here has any other ones, so all others keep their literal.

Some texts follow the grammar and still denote no value: a number beyond the range of a double, a string with half of a
surrogate pair, an object with such a key, an array or object nested too deep. `ill` stands for them. A reader that skips a
member does not mind it; a reader that looks at it refuses.
-/

namespace StoreCheck

inductive Json where
  | null
  | bool (b : Bool)
  /-- A natural number below 2^64, written without sign, fraction or exponent. -/
  | nat (n : Nat)
  /-- Any other number, by its literal. -/
  | decimal (literal : String)
  | str (s : String)
  | arr (items : List Json)
  | obj (members : List (String × Json))
  /-- A text that follows the grammar and denotes no value. -/
  | ill

namespace Json

mutual

/-- The value and all its parts denote something. -/
def isSound : Json → Bool
  | .null => true
  | .bool _ => true
  | .nat _ => true
  | .decimal _ => true
  | .str _ => true
  | .arr items => allSound items
  | .obj members => membersSound members
  | .ill => false

def allSound : List Json → Bool
  | [] => true
  | v :: rest => v.isSound && allSound rest

def membersSound : List (String × Json) → Bool
  | [] => true
  | (_, v) :: rest => v.isSound && membersSound rest

end

end Json

end StoreCheck
