import StoreCheck.Class.Graph

/-!
# Signatures: the classes an object belongs to at once

A signature is a set of classes; an object of the signature belongs to each of them. The empty signature is the bottom: it
is the type of the empty set. Signatures are kept canonical: no member is an ancestor of another one. They are compared by
their closures, the members with all their ancestors: the larger closure is the more specific signature.
-/

namespace StoreCheck

/-- A set of classes, in the order of declaration; an object of the signature belongs to every member. -/
structure Signature where
  classes : List ClassId
  deriving DecidableEq, Repr

namespace Signature

/-- The signature of the empty set of objects. -/
def bottom : Signature := ⟨[]⟩

def ofClass (c : ClassId) : Signature := ⟨[c]⟩

def isBottom (s : Signature) : Bool := s.classes.isEmpty

end Signature

/-- How two comparable signatures relate: the lesser is the more specific one. -/
inductive Specificity where
  | less
  | equal
  | greater
  deriving DecidableEq, Repr

namespace ClassGraph

/-- The members of the signature and all their ancestors. -/
def closure (g : ClassGraph) (s : Signature) : List ClassId :=
  g.ids.filter fun c => s.classes.any fun m => g.isSubclass m c

/-- The members that are no strict ancestor of another member. -/
def canonical (g : ClassGraph) (classes : List ClassId) : Signature :=
  ⟨g.ids.filter fun c => c ∈ classes && !classes.any fun m => c ∈ g.ancestorsOf m⟩

/-- The signature as text: its class names in braces. -/
def describe (g : ClassGraph) (s : Signature) : String :=
  if s.isBottom then "<bottom>" else "\x7b" ++ ", ".intercalate (s.classes.map g.name) ++ "\x7d"

/-- The least common supertype. The bottom adds nothing; signatures without a common ancestor have the bottom. -/
def join (g : ClassGraph) (a b : Signature) : Signature :=
  if a.isBottom then b
  else if b.isBottom then a
  else g.canonical ((g.closure a).filter (· ∈ g.closure b))

/-- The least common supertype, or the error that there is none. -/
def joinStrict (g : ClassGraph) (a b : Signature) : Except TypeError Signature :=
  if !a.isBottom && !b.isBottom && (g.join a b).isBottom then
    .error (.incompatibleTypes (g.describe a) (g.describe b))
  else .ok (g.join a b)

/-- The component that all members lie in; none for the bottom and for members of several components. -/
def componentOfSignature (g : ClassGraph) (s : Signature) : Option Nat :=
  match s.classes with
  | [] => none
  | c :: rest => if rest.all fun d => g.componentOf d == g.componentOf c then some (g.componentOf c) else none

/-- The greatest common subtype; the bottom when the members do not lie in one component. -/
def meet (g : ClassGraph) (a b : Signature) : Signature :=
  if a.isBottom || b.isBottom then .bottom
  else
    let merged := g.canonical (a.classes ++ b.classes)
    if (g.componentOfSignature merged).isSome then merged else .bottom

/-- Compare by closures: a larger closure is more specific. -/
def compare (g : ClassGraph) (a b : Signature) : Option Specificity :=
  let left := g.closure a
  let right := g.closure b
  if left = right then some .equal
  else if right.all (· ∈ left) then some .less
  else if left.all (· ∈ right) then some .greater
  else none

end ClassGraph

end StoreCheck
