import StoreCheck.Encoding.Goal
import StoreCheck.Proofs.Induction
import StoreCheck.Proofs.Steps

/-!
# What the steps of the encoding leave alone

A session only grows: symbols, contexts, axioms and creations are added at the end and never changed (`Session.Grows`). Most
steps are quiet besides: they touch neither the snapshot nor the scope, and add no context and no creation
(`Session.Quiet`). The lemmas here say so for each step that is not a statement.
-/

namespace StoreCheck

open List VarGen

variable {s t u : Session}

/-! ## Growth -/

/-- Predicates have been added at the end; sorts and functions are the same. -/
structure Symbols.Grows (a b : Symbols) : Prop where
  sorts : b.sorts = a.sorts
  functions : b.functions = a.functions
  predicates : a.predicates <+: b.predicates

theorem Symbols.Grows.refl (a : Symbols) : a.Grows a := ⟨rfl, rfl, prefix_refl _⟩

theorem Symbols.Grows.trans {a b c : Symbols} (h : a.Grows b) (h' : b.Grows c) : a.Grows c :=
  ⟨h'.sorts.trans h.sorts, h'.functions.trans h.functions, h.predicates.trans h'.predicates⟩

theorem Symbols.grows_addPredicate (s : Symbols) (hint : String) (args : List SortId) :
    s.Grows (s.addPredicate hint args).2 :=
  ⟨rfl, rfl, prefix_append _ _⟩

/-- Everything that the session has made stays, and the walk is at the same place of the nesting. -/
structure Session.Grows (s t : Session) : Prop where
  symbols : s.symbols.Grows t.symbols
  vars : s.vars.count ≤ t.vars.count
  contexts : s.contexts.table <+: t.contexts.table
  axioms : s.axioms <+: t.axioms
  creations : s.creations <+: t.creations
  guards : t.guards = s.guards
  context : t.context = s.context

theorem Session.Grows.refl (s : Session) : s.Grows s :=
  ⟨.refl _, Nat.le_refl _, prefix_refl _, prefix_refl _, prefix_refl _, rfl, rfl⟩

/-- Sessions grow step by step. -/
theorem Session.Grows.trans (h : s.Grows t) (h' : t.Grows u) : s.Grows u :=
  ⟨h.symbols.trans h'.symbols, Nat.le_trans h.vars h'.vars, h.contexts.trans h'.contexts, h.axioms.trans h'.axioms,
    h.creations.trans h'.creations, h'.guards.trans h.guards, h'.context.trans h.context⟩

instance : StepOrder Session.Grows := ⟨.refl, .trans⟩

/-- The session has grown by symbols, variables and axioms alone. -/
structure Session.Quiet (s t : Session) : Prop extends s.Grows t where
  table : t.contexts = s.contexts
  made : t.creations = s.creations
  snapshot : t.snapshot = s.snapshot
  scope : t.scope = s.scope

theorem Session.Quiet.refl (s : Session) : s.Quiet s := ⟨.refl s, rfl, rfl, rfl, rfl⟩

/-- Quiet steps one after another are quiet. -/
theorem Session.Quiet.trans (h : s.Quiet t) (h' : t.Quiet u) : s.Quiet u :=
  ⟨h.toGrows.trans h'.toGrows, h'.table.trans h.table, h'.made.trans h.made, h'.snapshot.trans h.snapshot,
    h'.scope.trans h.scope⟩

instance : StepOrder Session.Quiet := ⟨.refl, .trans⟩

/-! ## Fresh variables -/

/-- The computation takes variables and gives none back. -/
def Fresh.Takes {α : Type} (f : Fresh α) : Prop := ∀ g, g.count ≤ (f g).2.count

theorem Fresh.Takes.bind {α β : Type} {f : Fresh α} {k : α → Fresh β} (hf : f.Takes) (hk : ∀ a, (k a).Takes) :
    Fresh.Takes (f >>= k) :=
  fun g => Nat.le_trans (hf g) (hk _ _)

theorem Fresh.Takes.pure {α : Type} (a : α) : Fresh.Takes (pure a) := fun _ => Nat.le_refl _

theorem Fresh.takes_binder (sort : SortId) : (VarGen.binder sort).Takes := fun _ => Nat.le_succ _

theorem Fresh.takes_binders : ∀ sorts : List SortId, (binders sorts).Takes
  | [] => .pure _
  | s :: rest => (Fresh.takes_binder s).bind fun _ => (Fresh.takes_binders rest).bind fun _ => .pure _

theorem Fresh.takes_nestingAxiom (cs : Contexts) (id : ContextId) : (cs.nestingAxiom id).Takes := by
  unfold Contexts.nestingAxiom
  split
  · exact .pure _
  · exact (Fresh.takes_binders _).bind fun _ => .pure _

theorem Fresh.takes_orderAxioms (cs : Contexts) (id : ContextId) : (cs.orderAxioms id).Takes := by
  unfold Contexts.orderAxioms
  simp only
  split
  · exact (Fresh.takes_binders _).bind fun _ => (Fresh.takes_binder _).bind fun _ => (Fresh.takes_binder _).bind fun _ =>
      (Fresh.takes_binder _).bind fun _ => .pure _
  · exact .pure _

theorem Fresh.takes_atLeast (k : Nat) (sort : SortId) (test : Term → Formula) : (Counting.atLeast k sort test).Takes :=
  (Fresh.takes_binders _).bind fun _ => .pure _

theorem Fresh.takes_atMost (k : Nat) (sort : SortId) (test : Term → Formula) : (Counting.atMost k sort test).Takes :=
  (Fresh.takes_binders _).bind fun _ => .pure _

/-! ## Membership formulas -/

/-- Of two states of the variables the second one has taken at least as many. -/
def VarGen.Le (g h : VarGen) : Prop := g.count ≤ h.count

instance : StepOrder VarGen.Le := ⟨fun _ => Nat.le_refl _, Nat.le_trans⟩

theorem FreshEncode.keeps_binder (sort : SortId) : Keeps Le (FreshEncode.binder sort) :=
  .modifyGet fun g => Nat.le_succ g.count

namespace ObjValue

theorem keeps_derefMember (ts : TupleSort) (flipped : Bool) (slot : Slot) (params : List Term) (object : Term)
    (h : ∀ t, Keeps Le (sourceMember t)) : Keeps Le (derefMember ts flipped slot params object sourceMember) :=
  .bind (FreshEncode.keeps_binder _) fun _ =>
    .bind (h _) fun _ => .pure _

theorem keeps_boundaryMember (contexts : Contexts) (context : ContextId) (params : List Term) (hb : Keeps Le beforeMember)
    (hi : ∀ ps, Keeps Le (insideMember ps)) :
    Keeps Le (boundaryMember contexts context params beforeMember insideMember) := by
  unfold boundaryMember
  simp only
  split
  · exact .bind (FreshEncode.keeps_binder _) fun _ => .bind hb fun _ =>
      .bind (FreshEncode.keeps_binder _) fun _ => .bind (hi _) fun _ =>
        .pure _
  · exact .throw _

theorem keeps_members_of (h : ∀ v ∈ vs, Keeps Le (member L contexts v params object)) :
    Keeps Le (members L contexts vs params object) := by
  induction vs with
  | nil => exact .pure _
  | cons v rest ih =>
    obtain ⟨hv, hrest⟩ := forall_mem_cons.1 h
    exact .bind hv fun _ => .bind (ih hrest) fun _ => .pure _

theorem keeps_member (L : Layout) (contexts : Contexts) (v : ObjValue) (params : List Term) (object : Term) :
    Keeps Le (member L contexts v params object) := by
  induction v generalizing params object with
  | empty | ofClass | pred | param | bound => exact .pure _
  | union parts ih | merge _ _ parts ih =>
    exact .bind (keeps_members_of fun v hv => ih v hv params object) fun _ => .pure _
  | deref source relation flipped slot ih =>
    exact .bind (.lift _) fun ts => keeps_derefMember ts flipped slot params object (ih params)
  | boundary context before inside ihb ihi =>
    exact keeps_boundaryMember contexts context params (ihb params object) fun ps => ihi ps object

theorem keeps_members (L : Layout) (contexts : Contexts) (vs : List ObjValue) (params : List Term) (object : Term) :
    Keeps Le (members L contexts vs params object) :=
  keeps_members_of fun v _ => keeps_member L contexts v params object

end ObjValue

end StoreCheck
