import StoreCheck.TypeError

/-!
# The class graph: inheritance, ancestors and components

Classes are numbered in the order of their declaration. A graph is built from declarations with distinct names, declared
parents and no cycle; it keeps the strict ancestors of every class and the connected component the class lies in.

Sets of classes are lists without repeats in the order of declaration, so that equal sets are equal lists: every set below
is cut out of the list of all classes by `List.filter`.

The ancestors are found by a depth-first search that marks the classes white, grey and black. A grey class that comes up again lies
on a cycle, and the graph is refused for it. The components are found by linking the classes along the parent edges: every class
leads to the root of its component, and the roots are numbered as they come up.
-/

namespace StoreCheck

/-- A class, by its place in the list of declarations. -/
structure ClassId where
  index : Nat
  deriving DecidableEq, Repr

/-- A class declaration: its name and the names of its direct parents. -/
structure ClassDecl where
  name : String
  parents : List String
  deriving DecidableEq, Repr

/-- The classes of a specification with their ancestors and components; every list has one entry for each class. -/
structure ClassGraph where
  names : List String
  /-- The direct parents, in the order of declaration, each once. -/
  parents : List (List ClassId)
  /-- The strict ancestors, in the order of the classes. -/
  ancestors : List (List ClassId)
  /-- The connected component of the inheritance graph without directions. -/
  components : List Nat
  /-- The number of components. -/
  componentCount : Nat
  deriving Repr

/-- The first name that has already come up before. -/
def firstRepeat? : List String → List String → Option String
  | _, [] => none
  | seen, name :: rest => if name ∈ seen then some name else firstRepeat? (name :: seen) rest

namespace ClassGraph

/-! ## Building the graph -/

def idsUpTo (n : Nat) : List ClassId := (List.range n).map ClassId.mk

/-- The class of a name among the declared names. -/
def lookupIn (names : List String) (name : String) : Option ClassId := (names.idxOf? name).map ClassId.mk

/-- The class of a name, or the error that there is none. -/
def resolveIn (names : List String) (name : String) : Except TypeError ClassId :=
  match lookupIn names name with
  | some c => .ok c
  | none => .error (.unknownClass name)

/-- Parent names as classes, each once, where it comes up first. -/
def resolveParents (names : List String) (parents : List String) : Except TypeError (List ClassId) := do
  return (← parents.mapM (resolveIn names)).eraseDups

def parentsIn (parents : List (List ClassId)) (c : ClassId) : List ClassId := parents.getD c.index []

/-! ### Ancestors -/

/-- How far the search has come with a class: it has not been seen, it is on the way to the class that is looked at, or it is
done. -/
inductive Mark where
  | white
  | grey
  | black
  deriving DecidableEq, Repr

/-- The state of the search: the mark of each class, and the ancestors of those that are done. -/
structure Search where
  marks : List Mark
  ancestors : List (List ClassId)
  deriving Repr

namespace Search

/-- No class has been seen. -/
def start (n : Nat) : Search := ⟨List.replicate n .white, List.replicate n []⟩

def markOf (s : Search) (c : ClassId) : Mark := s.marks.getD c.index .white

def ancestorsOf (s : Search) (c : ClassId) : List ClassId := s.ancestors.getD c.index []

/-- The class is on the way now. -/
def enter (s : Search) (c : ClassId) : Search := { s with marks := s.marks.set c.index .grey }

/-- The class is done, with these ancestors. -/
def leave (s : Search) (c : ClassId) (closure : List ClassId) : Search :=
  ⟨s.marks.set c.index .black, s.ancestors.set c.index closure⟩

end Search

/-- The classes below `n` in one of the sets. -/
def unionBelow (n : Nat) (a b : List ClassId) : List ClassId := (idsUpTo n).filter fun d => d ∈ a || d ∈ b

/-- Visit one more parent: it and its ancestors join the closure. -/
def visitParent (n : Nat) (visit : ClassId → Search → Except ClassId Search) (found : Search × List ClassId) (p : ClassId) :
    Except ClassId (Search × List ClassId) := do
  let s ← visit p found.1
  return (s, unionBelow n found.2 (p :: s.ancestorsOf p))

/-- Visit a class and everything that parent edges lead to; fails with a class that comes up again while it is on the way. At most
`depth` classes may be on the way; this is no restriction if there are fewer white ones. -/
def visit (parents : List (List ClassId)) : Nat → ClassId → Search → Except ClassId Search
  | 0, c, _ => .error c
  | depth + 1, c, s =>
    match s.markOf c with
    | .black => .ok s
    | .grey => .error c
    | .white => do
      let (t, closure) ← (parentsIn parents c).foldlM (visitParent parents.length (visit parents depth)) (s.enter c, [])
      return t.leave c closure

/-- Visit every class, in the order of declaration. -/
def search (depth : Nat) (parents : List (List ClassId)) : Except ClassId Search :=
  (idsUpTo parents.length).foldlM (fun s c => visit parents depth c s) (.start parents.length)

/-! ### Components -/

/-- What a class is linked to; a root is linked to itself. -/
def linkOf (links : List Nat) (x : Nat) : Nat := links.getD x x

/-- Link a class past the next one. -/
def halve (links : List Nat) (x : Nat) : List Nat := links.set x (linkOf links (linkOf links x))

/-- Follow the links of a class to its root, halving the path on the way. Links lead to earlier classes, so as many steps as there
are classes before it are enough. -/
def find : Nat → List Nat → Nat → List Nat × Nat
  | 0, links, x => (links, x)
  | steps + 1, links, x =>
    if linkOf links x = x then (links, x) else find steps (halve links x) (linkOf (halve links x) x)

/-- Link the roots of two classes, the later one to the earlier one. -/
def unite (steps : Nat) (links : List Nat) (child parent : ClassId) : List Nat :=
  let (links, a) := find steps links child.index
  let (links, b) := find steps links parent.index
  if a = b then links else links.set (max a b) (min a b)

/-- Link all classes along the parent edges. -/
def uniteAll (steps : Nat) (parents : List (List ClassId)) : List Nat :=
  (idsUpTo parents.length).foldl
    (fun links c => (parentsIn parents c).foldl (fun ls p => unite steps ls c p) links)
    (List.range parents.length)

/-- The components of the first classes: the roots in the order of their numbers, and the number of each class. -/
structure Numbering where
  links : List Nat
  roots : List Nat
  numbers : List Nat

/-- Number one more class; a root that has not come up gets the next number. -/
def Numbering.next (steps : Nat) (s : Numbering) (x : Nat) : Numbering :=
  let (links, root) := find steps s.links x
  let roots := if root ∈ s.roots then s.roots else s.roots ++ [root]
  ⟨links, roots, s.numbers ++ [roots.idxOf root]⟩

/-- The component of every class, and the number of components. -/
def componentsOf (steps : Nat) (parents : List (List ClassId)) : List Nat × Nat :=
  let done := (List.range parents.length).foldl (Numbering.next steps) ⟨uniteAll steps parents, [], []⟩
  (done.numbers, done.roots.length)

/-! ### Declarations -/

/-- The graph of the declarations. A repeated name is refused first, then an undeclared parent, then a cycle. -/
def ofDecls (decls : List ClassDecl) : Except TypeError ClassGraph := do
  let names := decls.map (·.name)
  if let some name := firstRepeat? [] names then
    throw (.duplicateClass name)
  let parents ← decls.mapM fun d => resolveParents names d.parents
  match search (parents.length + 1) parents with
  | .error c => throw (.cyclicInheritance (names.getD c.index ""))
  | .ok found =>
    let (components, componentCount) := componentsOf parents.length parents
    return { names, parents, ancestors := found.ancestors, components, componentCount }

/-! ## Looking at the graph -/

def size (g : ClassGraph) : Nat := g.names.length

/-- All classes, in the order of declaration. -/
def ids (g : ClassGraph) : List ClassId := idsUpTo g.size

def lookup (g : ClassGraph) (name : String) : Option ClassId := lookupIn g.names name

def resolve (g : ClassGraph) (name : String) : Except TypeError ClassId := resolveIn g.names name

def name (g : ClassGraph) (c : ClassId) : String := g.names.getD c.index ""

def parentsOf (g : ClassGraph) (c : ClassId) : List ClassId := g.parents.getD c.index []

def ancestorsOf (g : ClassGraph) (c : ClassId) : List ClassId := g.ancestors.getD c.index []

def descendantsOf (g : ClassGraph) (c : ClassId) : List ClassId := g.ids.filter fun d => c ∈ g.ancestorsOf d

/-- The first class is the second one or inherits from it. -/
def isSubclass (g : ClassGraph) (sub sup : ClassId) : Bool := sub = sup || sup ∈ g.ancestorsOf sub

/-- The component of a class; objects of one component share a sort. -/
def componentOf (g : ClassGraph) (c : ClassId) : Nat := g.components.getD c.index 0

def members (g : ClassGraph) (component : Nat) : List ClassId := g.ids.filter fun c => g.componentOf c == component

end ClassGraph

end StoreCheck
