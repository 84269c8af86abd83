import StoreCheck.Logic.Formula

/-!
# Snapshots: symbolic states of the store

A snapshot says which objects and tuples exist at a point of an action: it holds one slot for each sort. A slot is a
predicate that takes the parameters of the context it was made in, then the object. Snapshots are never changed: a statement
makes a new one, which shares most slots with the one before.
-/

namespace StoreCheck

/-- What exists of one sort: a predicate, and the number of context parameters it takes. -/
structure Slot where
  pred : PredId
  depth : Nat
  deriving DecidableEq, Repr

/-- The object exists; parameters of deeper contexts are ignored. -/
def Slot.holds (s : Slot) (params : List Term) (object : Term) : Formula := .atom s.pred (params.take s.depth ++ [object])

/-- One slot for each sort. -/
structure Snapshot where
  slots : List Slot
  deriving DecidableEq, Repr

namespace Snapshot

def slot (s : Snapshot) (sort : SortId) : Slot := s.slots.getD sort.index ⟨⟨0⟩, 0⟩

/-- The object or tuple of the sort exists. -/
def holds (s : Snapshot) (sort : SortId) (params : List Term) (object : Term) : Formula :=
  (s.slot sort).holds params object

def sorts (s : Snapshot) : List SortId := (List.range s.slots.length).map SortId.mk

/-- The sorts whose slots differ. -/
def difference (a b : Snapshot) : List SortId :=
  (a.sorts.take b.slots.length).filter fun sort => a.slot sort ≠ b.slot sort

/-- The snapshot with one slot replaced. -/
def link (s : Snapshot) (sort : SortId) (slot : Slot) : Snapshot := ⟨s.slots.set sort.index slot⟩

def withSlots (s : Snapshot) (changes : List (SortId × Slot)) : Snapshot :=
  changes.foldl (fun s (sort, slot) => s.link sort slot) s

end Snapshot

end StoreCheck
