import StoreCheck.Json.Basic

/-!
# Reading JSON text

The reader accepts exactly the grammar of RFC 8259: one value between blanks, no comments, no trailing commas, no leading
zeros, no raw control characters in strings. What a literal denotes is decided after it has been read: a string is first cut
into units (characters and escaped 16-bit codes) and a number into its digits.

The functions that nest take fuel; two units for each character are enough, since every second step consumes one.
-/

namespace StoreCheck.Json

/-! ## Blanks and digits -/

/-- The characters that may stand between tokens. -/
def isBlank (c : Char) : Bool := c = ' ' || c = '\n' || c = '\r' || c = '\t'

/-- The text without its leading blanks. -/
def skipBlanks (cs : List Char) : List Char := cs.dropWhile isBlank

def hexValue? (c : Char) : Option Nat :=
  if '0' ≤ c && c ≤ '9' then some (c.toNat - '0'.toNat)
  else if 'a' ≤ c && c ≤ 'f' then some (c.toNat - 'a'.toNat + 10)
  else if 'A' ≤ c && c ≤ 'F' then some (c.toNat - 'A'.toNat + 10)
  else none

def hexCode? (a b c d : Char) : Option Nat := do
  return ((← hexValue? a) * 16 + (← hexValue? b)) * 256 + ((← hexValue? c) * 16 + (← hexValue? d))

/-- The number that a list of decimal digits denotes. -/
def digitsValue (ds : List Char) : Nat := ds.foldl (fun n d => n * 10 + (d.toNat - '0'.toNat)) 0

/-! ## Strings -/

/-- A unit of a string literal: a character, or an escaped 16-bit code. -/
inductive TextUnit where
  | char (c : Char)
  | code (n : Nat)

/-- The character that a one-letter escape stands for. -/
def escape? (c : Char) : Option Char :=
  match c with
  | '"' => some '"'
  | '\\' => some '\\'
  | '/' => some '/'
  | 'b' => some '\x08'
  | 'f' => some '\x0c'
  | 'n' => some '\n'
  | 'r' => some '\r'
  | 't' => some '\t'
  | _ => none

/-- Cut the rest of a string literal, after its opening quote, into units. -/
def textUnits : List Char → Option (List TextUnit × List Char)
  | [] => none
  | '"' :: rest => some ([], rest)
  | '\\' :: 'u' :: a :: b :: c :: d :: rest => do
    let n ← hexCode? a b c d
    let (us, rest) ← textUnits rest
    return (.code n :: us, rest)
  | '\\' :: e :: rest => do
    let c ← escape? e
    let (us, rest) ← textUnits rest
    return (.char c :: us, rest)
  | c :: rest =>
    if c.toNat < 32 || c = '\\' then none
    else do
      let (us, rest) ← textUnits rest
      return (.char c :: us, rest)

def isHighSurrogate (n : Nat) : Bool := 0xD800 ≤ n && n < 0xDC00

def isLowSurrogate (n : Nat) : Bool := 0xDC00 ≤ n && n < 0xE000

/-- The characters that units denote: none if half of a surrogate pair stands alone. -/
def unitsText? : List TextUnit → Option (List Char)
  | [] => some []
  | .char c :: rest => (unitsText? rest).map (c :: ·)
  | .code hi :: .code lo :: rest =>
    if isHighSurrogate hi then
      if isLowSurrogate lo then
        (unitsText? rest).map (Char.ofNat (0x10000 + (hi - 0xD800) * 0x400 + (lo - 0xDC00)) :: ·)
      else none
    else if isLowSurrogate hi then none
    else (unitsText? (.code lo :: rest)).map (Char.ofNat hi :: ·)
  | .code n :: rest =>
    if isHighSurrogate n || isLowSurrogate n then none else (unitsText? rest).map (Char.ofNat n :: ·)

/-! ## Numbers -/

/-- The parts of a number literal; the digits are decimal. -/
structure NumberLiteral where
  negative : Bool
  whole : List Char
  fraction : List Char
  /-- The sign and the digits of the exponent. -/
  exponent : Option (Bool × List Char)

/-- At least one digit, and what follows the digits. -/
def digits? (cs : List Char) : Option (List Char × List Char) :=
  match cs.takeWhile Char.isDigit with
  | [] => none
  | ds => some (ds, cs.dropWhile Char.isDigit)

/-- The whole part: a zero on its own, or digits that do not start with one. -/
def wholePart? : List Char → Option (List Char × List Char)
  | '0' :: rest =>
    match rest with
    | c :: _ => if c.isDigit then none else some (['0'], rest)
    | [] => some (['0'], [])
  | cs => digits? cs

/-- The fraction, if a point follows. -/
def fractionPart? : List Char → Option (List Char × List Char)
  | '.' :: rest => digits? rest
  | cs => some ([], cs)

/-- The digits of the exponent with their sign. -/
def exponentDigits? : List Char → Option ((Bool × List Char) × List Char)
  | '-' :: rest => (digits? rest).map fun (ds, rest) => ((true, ds), rest)
  | '+' :: rest => (digits? rest).map fun (ds, rest) => ((false, ds), rest)
  | cs => (digits? cs).map fun (ds, rest) => ((false, ds), rest)

def exponentPart? : List Char → Option (Option (Bool × List Char) × List Char)
  | 'e' :: rest => (exponentDigits? rest).map fun (e, rest) => (some e, rest)
  | 'E' :: rest => (exponentDigits? rest).map fun (e, rest) => (some e, rest)
  | cs => some (none, cs)

/-- A number literal and what follows it. -/
def numberLiteral? (cs : List Char) : Option (NumberLiteral × List Char) := do
  let negative := cs.head? == some '-'
  let (whole, rest) ← wholePart? (if negative then cs.drop 1 else cs)
  let (fraction, rest) ← fractionPart? rest
  let (exponent, rest) ← exponentPart? rest
  return (⟨negative, whole, fraction, exponent⟩, rest)

namespace NumberLiteral

def text (l : NumberLiteral) : String :=
  let sign := if l.negative then "-" else ""
  let fraction := if l.fraction.isEmpty then "" else "." ++ String.ofList l.fraction
  let exponent :=
    match l.exponent with
    | none => ""
    | some (negative, ds) => "e" ++ (if negative then "-" else "") ++ String.ofList ds
  sign ++ String.ofList l.whole ++ fraction ++ exponent

/-- The smallest number that a double rounds to infinity. -/
def overflowBound : Nat := Nat.pow 2 1024 - Nat.pow 2 970

/-- The literal is beyond the range of a double. The digits, as one number with `k` digits, are scaled by ten to the power
`e`; only when the result has 309 digits is it compared exactly. -/
def overflows (l : NumberLiteral) : Bool :=
  let ds := (l.whole ++ l.fraction).dropWhile (· = '0')
  let exponent : Int :=
    match l.exponent with
    | none => 0
    | some (negative, es) => if negative then -(digitsValue es : Int) else digitsValue es
  let e : Int := exponent - l.fraction.length
  let size : Int := ds.length + e
  if ds.isEmpty then false
  else if size > 309 then true
  else if size < 309 then false
  else if e ≥ 0 then digitsValue ds * Nat.pow 10 e.toNat ≥ overflowBound
  else digitsValue ds ≥ overflowBound * Nat.pow 10 (-e).toNat

def value (l : NumberLiteral) : Json :=
  if l.overflows then .ill
  else if !l.negative && l.fraction.isEmpty && l.exponent.isNone && digitsValue l.whole < UInt64.size then
    .nat (digitsValue l.whole)
  else .decimal l.text

end NumberLiteral

/-! ## Values -/

/-- How deep arrays and objects may nest. -/
def maxNesting : Nat := 127

def textValue (units : List TextUnit) : Json :=
  match unitsText? units with
  | some cs => .str (String.ofList cs)
  | none => .ill

/-- An array or an object denotes something only where there is room to nest. -/
def nested (room : Nat) (v : Json) : Json := if room = 0 then .ill else v

/-- The keys of members as text: none if one of them is ill. -/
def memberKeys? : List (List TextUnit × Json) → Option (List (String × Json))
  | [] => some []
  | (k, v) :: rest => do
    let cs ← unitsText? k
    return (String.ofList cs, v) :: (← memberKeys? rest)

def objectValue (members : List (List TextUnit × Json)) : Json :=
  match memberKeys? members with
  | some ms => .obj ms
  | none => .ill

mutual

/-- Read one value, with `room` more levels of nesting. -/
def readValue : Nat → Nat → List Char → Option (Json × List Char)
  | 0, _, _ => none
  | fuel + 1, room, cs =>
    match skipBlanks cs with
    | 'n' :: 'u' :: 'l' :: 'l' :: rest => some (.null, rest)
    | 't' :: 'r' :: 'u' :: 'e' :: rest => some (.bool true, rest)
    | 'f' :: 'a' :: 'l' :: 's' :: 'e' :: rest => some (.bool false, rest)
    | '"' :: rest => (textUnits rest).map fun (us, rest) => (textValue us, rest)
    | '[' :: rest =>
      match skipBlanks rest with
      | ']' :: rest => some (nested room (.arr []), rest)
      | rest => (readItems fuel (room - 1) rest).map fun (vs, rest) => (nested room (.arr vs), rest)
    | '\x7b' :: rest =>
      match skipBlanks rest with
      | '\x7d' :: rest => some (nested room (.obj []), rest)
      | rest => (readMembers fuel (room - 1) rest).map fun (ms, rest) => (nested room (objectValue ms), rest)
    | rest => (numberLiteral? rest).map fun (l, rest) => (l.value, rest)

/-- Read the items of an array, up to its closing bracket. -/
def readItems : Nat → Nat → List Char → Option (List Json × List Char)
  | 0, _, _ => none
  | fuel + 1, room, cs => do
    let (v, rest) ← readValue fuel room cs
    match skipBlanks rest with
    | ',' :: rest =>
      let (vs, rest) ← readItems fuel room rest
      return (v :: vs, rest)
    | ']' :: rest => return ([v], rest)
    | _ => none

/-- Read the members of an object, up to its closing brace. -/
def readMembers : Nat → Nat → List Char → Option (List (List TextUnit × Json) × List Char)
  | 0, _, _ => none
  | fuel + 1, room, cs =>
    match skipBlanks cs with
    | '"' :: rest => do
      let (k, rest) ← textUnits rest
      match skipBlanks rest with
      | ':' :: rest =>
        let (v, rest) ← readValue fuel room rest
        match skipBlanks rest with
        | ',' :: rest =>
          let (ms, rest) ← readMembers fuel room rest
          return ((k, v) :: ms, rest)
        | '\x7d' :: rest => return ([(k, v)], rest)
        | _ => none
      | _ => none
    | _ => none

end

/-- The value that a text denotes: one value, with nothing but blanks around it. -/
def parse? (text : String) : Option Json := do
  let cs := text.toList
  let (v, rest) ← readValue (2 * cs.length + 2) maxNesting cs
  if (skipBlanks rest).isEmpty then return v else none

end StoreCheck.Json
