import StoreCheck.Json.Basic

/-!
# Records, tagged values and choices in JSON

A record is an object with declared fields, or an array of their values in the order of declaration. Other members of the
object are skipped, without a look inside; a declared field must not come up twice, and the array must not be longer than
the declaration. A field that is missing takes its default, if it has one.

A tagged value is a record whose fields depend on its tag: the member `kind` of the object, or the first item of the array.
A tagged value is read as a whole before its tag is known, so everything in it has to be sound. Inside a tagged value, a tag
may also be given as its place in the list of tags.

A choice is one of several names: a string, or an object whose only member has the name as its key and `null` as its value;
inside a tagged value an empty object will do for the `null`.
-/

namespace StoreCheck.Json

/-! ## Plain values -/

def text? : Json → Option String
  | .str s => some s
  | _ => none

def bool? : Json → Option Bool
  | .bool b => some b
  | _ => none

def word32? : Json → Option UInt32
  | .nat n => if n < UInt32.size then some n.toUInt32 else none
  | _ => none

def word64? : Json → Option UInt64
  | .nat n => if n < UInt64.size then some n.toUInt64 else none
  | _ => none

def list? {α : Type} (item? : Json → Option α) : Json → Option (List α)
  | .arr items => items.mapM item?
  | _ => none

/-! ## Records -/

/-- The fields of a record that are present, by name. -/
abbrev Fields := List (String × Json)

/-- No field comes up twice. -/
def distinctKeys : Fields → Bool
  | [] => true
  | (k, _) :: rest => !rest.any (·.1 == k) && distinctKeys rest

/-- The fields of a record with the declared names. -/
def fields? (names : List String) : Json → Option Fields
  | .obj members =>
    let known := members.filter fun m => names.contains m.1
    if distinctKeys known then some known else none
  | .arr items => if items.length ≤ names.length then some (names.zip items) else none
  | _ => none

namespace Fields

variable {α : Type}

def required (fs : Fields) (name : String) (value? : Json → Option α) : Option α :=
  (List.lookup name fs).bind value?

/-- A field with a default. -/
def withDefault (fs : Fields) (name : String) (default : α) (value? : Json → Option α) : Option α :=
  match List.lookup name fs with
  | none => some default
  | some v => value? v

/-- A field that may be missing or `null`. -/
def nullable (fs : Fields) (name : String) (value? : Json → Option α) : Option (Option α) :=
  match List.lookup name fs with
  | none => some none
  | some .null => some none
  | some v => (value? v).map some

end Fields

/-! ## Tagged values and choices -/

/-- A tag: its name or, inside a tagged value, its place. -/
def tag? (tags : List String) (inside : Bool) : Json → Option String
  | .str s => if tags.contains s then some s else none
  | .nat n => if inside then tags[n]? else none
  | _ => none

/-- The tag of a tagged value, and the record of its fields. -/
def tagged? (tags : List String) (inside : Bool) (v : Json) : Option (String × Json) :=
  if !inside && !v.isSound then none
  else
    match v with
    | .obj members =>
      match members.filter (·.1 == "kind") with
      | [(_, t)] => (tag? tags inside t).map fun s => (s, .obj (members.filter (·.1 != "kind")))
      | _ => none
    | .arr (t :: rest) => (tag? tags inside t).map fun s => (s, .arr rest)
    | _ => none

def choice? (names : List String) (inside : Bool) : Json → Option String
  | .str s => if names.contains s then some s else none
  | .obj [(k, .null)] => if names.contains k then some k else none
  | .obj [(k, .obj [])] => if inside && names.contains k then some k else none
  | _ => none

/-! ## Writing -/

def ofTexts (texts : List String) : Json := .arr (texts.map .str)

/-- A string, or `null` for none. -/
def ofText? : Option String → Json
  | some s => .str s
  | none => .null

/-- A member that is left out when it has no value. -/
def optionalMember (name : String) : Option String → List (String × Json)
  | some s => [(name, .str s)]
  | none => []

end StoreCheck.Json
