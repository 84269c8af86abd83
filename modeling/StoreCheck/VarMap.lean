/-!
# Variable maps: what the names in scope are bound to

A map holds at most one entry for each name. Only lookups are ever shown, so two maps with the same lookups are
interchangeable; where an order is shown, the names are sorted first (`sortNames`).
-/

namespace StoreCheck

/-- Entries by name; the first entry of a name is the one that counts. -/
abbrev VarMap (α : Type) := List (String × α)

namespace VarMap

variable {α : Type}

def find? (m : VarMap α) (name : String) : Option α := List.lookup name m

def contains (m : VarMap α) (name : String) : Bool := (m.find? name).isSome

/-- Bind the name, in place of an earlier entry of it. -/
def insert (m : VarMap α) (name : String) (a : α) : VarMap α := (name, a) :: m.filter (·.1 != name)

def names (m : VarMap α) : List String := m.map (·.1)

end VarMap

def insertName (name : String) : List String → List String
  | [] => [name]
  | n :: rest => if name ≤ n then name :: n :: rest else n :: insertName name rest

/-- Each name once, in the order of their characters. -/
def sortNames (names : List String) : List String := names.eraseDups.foldr insertName []

end StoreCheck
