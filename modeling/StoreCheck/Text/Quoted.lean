import StoreCheck.Text.Unshown

/-!
# Quoted text: a string as it is shown inside a message

The text stands in double quotes. A quote and a backslash are preceded by a backslash, the common control characters have
their letters, and every other character that leaves no mark of its own is written by its number in hexadecimal.
-/

namespace StoreCheck.Text

/-- One character of a quoted text. -/
def quoteChar (c : Char) : List Char :=
  if c = '"' then ['\\', '"']
  else if c = '\\' then ['\\', '\\']
  else if c = '\n' then ['\\', 'n']
  else if c = '\r' then ['\\', 'r']
  else if c = '\t' then ['\\', 't']
  else if c.toNat = 0 then ['\\', '0']
  else if isUnshown c then ['\\', 'u', '\x7b'] ++ Nat.toDigits 16 c.toNat ++ ['\x7d']
  else [c]

def quote (s : String) : String := String.ofList ('"' :: s.toList.flatMap quoteChar ++ ['"'])

end StoreCheck.Text
