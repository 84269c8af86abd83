import StoreCheck.Class.Signature
import StoreCheck.Spec

/-!
# Stores: validated specifications

A store holds the class graph, the relations with their classes and bases resolved, and the actions and invariants by name.
Validation stops at the first fault: the classes come first, then every relation in turn, then the inverses, and last the
names of actions and invariants.
-/

namespace StoreCheck

/-- A relation, by its place in the list of declarations. -/
structure RelationId where
  index : Nat
  deriving DecidableEq, Repr

/-- A relation whose classes and base are resolved. -/
structure Relation where
  id : RelationId
  name : String
  source : ClassId
  target : ClassId
  cardinality : Cardinality
  /-- The relation whose tuples this one reads backwards. -/
  inverseOf : Option RelationId
  deriving DecidableEq, Repr

namespace Relation

/-- The relation that owns the tuples. -/
def base (r : Relation) : RelationId := r.inverseOf.getD r.id

/-- The relation reads the tuples of its base backwards. -/
def flipped (r : Relation) : Bool := r.inverseOf.isSome

end Relation

structure Store where
  graph : ClassGraph
  relations : List Relation
  actions : List Action
  invariants : List Invariant

namespace Store

/-! ## Validation -/

/-- The relation of a class with a name, among relations. -/
def ownedIn (relations : List Relation) (c : ClassId) (name : String) : Option Relation :=
  relations.find? fun r => r.source = c && r.name == name

/-- Resolve one more relation after those resolved so far. -/
def addRelation (graph : ClassGraph) (relations : List Relation) (decl : RelationDecl) :
    Except TypeError (List Relation) := do
  let source ← graph.resolve decl.source
  let target ← graph.resolve decl.target
  if !decl.cardinality.isValid then
    throw (.invalidCardinality (decl.source ++ "." ++ decl.name) decl.cardinality)
  if (ownedIn relations source decl.name).isSome then
    throw (.duplicateRelation decl.source decl.name)
  return relations ++ [⟨⟨relations.length⟩, decl.name, source, target, decl.cardinality, none⟩]

/-- The relation that a declared inverse reads backwards. -/
def resolveInverse (graph : ClassGraph) (decls : List RelationDecl) (relations : List Relation)
    (relation : Relation) (decl : RelationDecl) (baseName : String) : Except TypeError RelationId := do
  let label := decl.source ++ "." ++ decl.name
  match ownedIn relations relation.target baseName with
  | none => throw (.relationNotFound baseName decl.target)
  | some base =>
    if let some baseDecl := decls[base.id.index]? then
      if baseDecl.inverseOf.isSome then
        throw (.inverseOfInverse label (baseDecl.source ++ "." ++ baseDecl.name))
    if base.id = relation.id then
      throw (.inverseMismatch label baseName .itself)
    if !(graph.isSubclass relation.source base.target || graph.isSubclass base.target relation.source) then
      throw (.inverseMismatch label baseName (.notBack baseName (graph.name relation.source)))
    return base.id

/-- The relation with its base resolved, if it is declared as an inverse. -/
def linkInverse (graph : ClassGraph) (decls : List RelationDecl) (relations : List Relation)
    (relation : Relation) (decl : RelationDecl) : Except TypeError Relation :=
  match decl.inverseOf with
  | none => .ok relation
  | some baseName => do
    return { relation with inverseOf := some (← resolveInverse graph decls relations relation decl baseName) }

def resolveRelations (graph : ClassGraph) (decls : List RelationDecl) : Except TypeError (List Relation) := do
  let relations ← decls.foldlM (addRelation graph) []
  (relations.zip decls).mapM fun (relation, decl) => linkInverse graph decls relations relation decl

/-- Refuse a name that comes up twice. -/
def checkNames (kind : DeclKind) (names : List String) : Except TypeError Unit :=
  match firstRepeat? [] names with
  | some name => .error (.duplicateDeclaration kind name)
  | none => .ok ()

/-- The store of a specification, or the first fault found in it. -/
def ofSpec (spec : Spec) : Except TypeError Store := do
  let graph ← ClassGraph.ofDecls spec.classes
  let relations ← resolveRelations graph spec.relations
  checkNames .action (spec.actions.map (·.name))
  checkNames .invariant (spec.invariants.map (·.name))
  return { graph, relations, actions := spec.actions, invariants := spec.invariants }

/-! ## Looking at the store -/

def relation? (s : Store) (id : RelationId) : Option Relation := s.relations[id.index]?

/-- The relations that own tuples: those not declared as an inverse. -/
def baseRelations (s : Store) : List Relation := s.relations.filter fun r => r.inverseOf.isNone

/-- The relations that start from the class itself. -/
def ownedRelations (s : Store) (c : ClassId) : List Relation := s.relations.filter fun r => r.source = c

/-- The relation as text: its source class and its name. -/
def label (s : Store) (r : Relation) : String := s.graph.name r.source ++ "." ++ r.name

/-- The label of the relation of an id. -/
def labelOf (s : Store) (id : RelationId) : String :=
  match s.relation? id with
  | some r => s.label r
  | none => ""

/-- The relation of a name on the first class, among the members of the signature and their ancestors, that has one. -/
def relationOn (s : Store) (signature : Signature) (name : String) : Except TypeError Relation :=
  match (s.graph.closure signature).findSome? fun c => ownedIn s.relations c name with
  | some r => .ok r
  | none => .error (.relationNotFound name (s.graph.describe signature))

/-- The base relations with an end in the component of the signature. -/
def incidentRelations (s : Store) (signature : Signature) : List Relation :=
  match s.graph.componentOfSignature signature with
  | none => []
  | some component => s.baseRelations.filter fun r =>
      s.graph.componentOf r.source == component || s.graph.componentOf r.target == component

def action (s : Store) (name : String) : Except TypeError Action :=
  match s.actions.find? fun a => a.name == name with
  | some a => .ok a
  | none => .error (.unknownAction name)

def invariant (s : Store) (name : String) : Except TypeError Invariant :=
  match s.invariants.find? fun i => i.name == name with
  | some i => .ok i
  | none => .error (.unknownInvariant name)

end Store

end StoreCheck
