import StoreCheck.Store

/-!
# Effect maps: what an action does to each class and relation

An effect is an operation on a domain, a class or a base relation, with a locality: a local operation touches only objects
that the running action has created. An effect map holds a set of effects for each domain. Domains are in order, classes
before relations, and the effects of a domain are cut out of the list of all effects, so that equal maps are equal lists.
-/

namespace StoreCheck

/-- What effects are on: a class, or a base relation. -/
inductive Domain where
  | ofClass (c : ClassId)
  | ofRelation (r : RelationId)
  deriving DecidableEq, Repr

namespace Domain

/-- The first domain comes strictly before the second one: classes come before relations. -/
def before : Domain → Domain → Bool
  | .ofClass a, .ofClass b => a.index < b.index
  | .ofClass _, .ofRelation _ => true
  | .ofRelation _, .ofClass _ => false
  | .ofRelation a, .ofRelation b => a.index < b.index

def name (s : Store) : Domain → String
  | .ofClass c => s.graph.name c
  | .ofRelation r => s.labelOf r

end Domain

/-- What is done to a domain. -/
inductive Operation where
  | read
  | create
  | delete
  deriving DecidableEq, Repr

def Operation.text : Operation → String
  | .read => "read"
  | .create => "create"
  | .delete => "delete"

/-- An operation with its locality. -/
structure Effect where
  operation : Operation
  isLocal : Bool
  deriving DecidableEq, Repr

namespace Effect

/-- All effects, in the order in which they are shown. -/
def all : List Effect :=
  [⟨.read, false⟩, ⟨.read, true⟩, ⟨.create, false⟩, ⟨.create, true⟩, ⟨.delete, false⟩, ⟨.delete, true⟩]

def text (e : Effect) : String := e.operation.text ++ ": " ++ (if e.isLocal then "local" else "non-local")

end Effect

/-- A set of effects, in the order of `Effect.all`. -/
abbrev EffectSet := List Effect

namespace EffectSet

def union (a b : EffectSet) : EffectSet := Effect.all.filter fun e => a.contains e || b.contains e

/-- The set without the local effects that have a non-local twin. -/
def normalize (s : EffectSet) : EffectSet := s.filter fun e => !(e.isLocal && s.contains ⟨e.operation, false⟩)

end EffectSet

/-- The effects on each domain; a domain stays once it was added. -/
structure EffectMap where
  entries : List (Domain × EffectSet)
  deriving DecidableEq, Repr

namespace EffectMap

def empty : EffectMap := ⟨[]⟩

/-- Add effects to those of a domain, among entries in order. -/
def addTo (d : Domain) (effects : EffectSet) : List (Domain × EffectSet) → List (Domain × EffectSet)
  | [] => [(d, EffectSet.union [] effects)]
  | (d', s) :: rest =>
    if d = d' then (d', s.union effects) :: rest
    else if d.before d' then (d, EffectSet.union [] effects) :: (d', s) :: rest
    else (d', s) :: addTo d effects rest

def add (m : EffectMap) (d : Domain) (operation : Operation) (isLocal : Bool) : EffectMap :=
  ⟨addTo d [⟨operation, isLocal⟩] m.entries⟩

def merge (m other : EffectMap) : EffectMap :=
  ⟨other.entries.foldl (fun entries (d, s) => addTo d s entries) m.entries⟩

/-- Drop the local effects that have a non-local twin. -/
def normalize (m : EffectMap) : EffectMap := ⟨m.entries.map fun (d, s) => (d, s.normalize)⟩

def effectsOn (m : EffectMap) (d : Domain) : EffectSet := (List.lookup d m.entries).getD []

def contains (m : EffectMap) (d : Domain) (operation : Operation) (isLocal : Bool) : Bool :=
  (m.effectsOn d).contains ⟨operation, isLocal⟩

/-- The domains with an effect whose operation passes the test. -/
def domainsWith (m : EffectMap) (test : Operation → Bool) : List Domain :=
  (m.entries.filter fun (_, s) => s.any fun e => test e.operation).map (·.1)

def reads (m : EffectMap) : List Domain := m.domainsWith (· = .read)

/-- The domains that are written: created in or deleted from. -/
def writes (m : EffectMap) : List Domain := m.domainsWith (· ≠ .read)

def creates (m : EffectMap) : List Domain := m.domainsWith (· = .create)

/-- The domains that are read beyond the objects that the action created. -/
def globalReads (m : EffectMap) : List Domain := m.reads.filter fun d => m.contains d .read false

def isEmpty (m : EffectMap) : Bool := m.entries.isEmpty

/-- One line for each domain. -/
def describe (m : EffectMap) (s : Store) : List String :=
  m.entries.map fun (d, effects) => d.name s ++ ": \x7b" ++ ", ".intercalate (effects.map Effect.text) ++ "\x7d"

end EffectMap

end StoreCheck
