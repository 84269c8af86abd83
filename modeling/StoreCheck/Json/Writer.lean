import StoreCheck.Json.Basic

/-!
# Writing JSON text

`compact` writes a value without blanks. `pretty` writes every item and member on a line of its own, indented by two spaces
for each level; empty arrays and objects stay on one line.
-/

namespace StoreCheck.Json

def hexDigit (n : Nat) : Char := Nat.digitChar n

def escapeChar (c : Char) : List Char :=
  if c = '"' then ['\\', '"']
  else if c = '\\' then ['\\', '\\']
  else if c = '\n' then ['\\', 'n']
  else if c = '\r' then ['\\', 'r']
  else if c = '\t' then ['\\', 't']
  else if c = '\x08' then ['\\', 'b']
  else if c = '\x0c' then ['\\', 'f']
  else if c.toNat < 32 then ['\\', 'u', '0', '0', hexDigit (c.toNat / 16), hexDigit (c.toNat % 16)]
  else [c]

def literal (s : String) : List Char := '"' :: s.toList.flatMap escapeChar ++ ['"']

mutual

/-- The characters of a value, without blanks. -/
def compactChars : Json → List Char
  | .null => ['n', 'u', 'l', 'l']
  | .bool true => ['t', 'r', 'u', 'e']
  | .bool false => ['f', 'a', 'l', 's', 'e']
  | .nat n => Nat.toDigits 10 n
  | .decimal l => l.toList
  | .str s => literal s
  | .arr items => '[' :: compactItems items
  | .obj members => '\x7b' :: compactMembers members
  | .ill => ['n', 'u', 'l', 'l']

def compactItems : List Json → List Char
  | [] => [']']
  | [v] => v.compactChars ++ [']']
  | v :: rest => v.compactChars ++ ',' :: compactItems rest

def compactMembers : List (String × Json) → List Char
  | [] => ['\x7d']
  | [(k, v)] => literal k ++ ':' :: v.compactChars ++ ['\x7d']
  | (k, v) :: rest => literal k ++ ':' :: v.compactChars ++ ',' :: compactMembers rest

end

def compact (v : Json) : String := String.ofList v.compactChars

/-- A new line with the indentation of a level. -/
def newLine (level : Nat) : List Char := '\n' :: List.replicate (2 * level) ' '

mutual

/-- The characters of a value whose first line stands at the given level. -/
def prettyChars (level : Nat) : Json → List Char
  | .null => ['n', 'u', 'l', 'l']
  | .bool true => ['t', 'r', 'u', 'e']
  | .bool false => ['f', 'a', 'l', 's', 'e']
  | .nat n => Nat.toDigits 10 n
  | .decimal l => l.toList
  | .str s => literal s
  | .arr [] => ['[', ']']
  | .arr (v :: rest) =>
    '[' :: newLine (level + 1) ++ v.prettyChars (level + 1) ++ prettyItems (level + 1) rest ++ newLine level ++ [']']
  | .obj [] => ['\x7b', '\x7d']
  | .obj ((k, v) :: rest) =>
    '\x7b' :: newLine (level + 1) ++ literal k ++ ':' :: ' ' :: v.prettyChars (level + 1) ++
      prettyMembers (level + 1) rest ++ newLine level ++ ['\x7d']
  | .ill => ['n', 'u', 'l', 'l']

/-- The items after the first one, each after a comma on a line of its own. -/
def prettyItems (level : Nat) : List Json → List Char
  | [] => []
  | v :: rest => ',' :: newLine level ++ v.prettyChars level ++ prettyItems level rest

/-- The members after the first one, each after a comma on a line of its own. -/
def prettyMembers (level : Nat) : List (String × Json) → List Char
  | [] => []
  | (k, v) :: rest =>
    ',' :: newLine level ++ literal k ++ ':' :: ' ' :: v.prettyChars level ++ prettyMembers level rest

end

/-- The text of a value over indented lines. -/
def pretty (v : Json) : String := String.ofList (v.prettyChars 0)

end StoreCheck.Json
