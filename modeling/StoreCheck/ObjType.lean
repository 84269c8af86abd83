import StoreCheck.Class.Signature

/-!
# Types of object sets

The type of an object set is the signature of its objects and bounds on how many there are.
-/

namespace StoreCheck

structure ObjType where
  signature : Signature
  cardinality : Cardinality
  deriving DecidableEq, Repr

namespace ObjType

/-- Any number of objects of a class. -/
def ofClass (c : ClassId) : ObjType := ⟨.ofClass c, .any⟩

def bottom : ObjType := ⟨.bottom, .empty⟩

/-- The same objects under other bounds. -/
def withCardinality (t : ObjType) (c : Cardinality) : ObjType := { t with cardinality := c }

/-- The type of one object out of the set. -/
def single (t : ObjType) : ObjType := t.withCardinality .one

/-- A type that covers both, or the error that the signatures have no common supertype. -/
def join (g : ClassGraph) (a b : ObjType) : Except TypeError ObjType := do
  return ⟨← g.joinStrict a.signature b.signature, a.cardinality.cover b.cardinality⟩

/-- A type that covers both where the paths of a block meet: unrelated signatures give the bottom. -/
def merge (g : ClassGraph) (a b : ObjType) : ObjType :=
  ⟨g.join a.signature b.signature, a.cardinality.cover b.cardinality⟩

/-- The type of the objects that are of both types. -/
def meet (g : ClassGraph) (a b : ObjType) : ObjType :=
  ⟨g.meet a.signature b.signature, a.cardinality.inter b.cardinality⟩

end ObjType

end StoreCheck
