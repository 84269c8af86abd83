import Mathlib.Tactic.MkIffOfInductiveProp
import StoreCheck.Proofs.Encoding.AxiomMeaning

/-!
# What the axioms of loops say

The live iterations of a loop are the elements of its domain at the live positions of the parent. A flat loop ends with what
existed and every iteration keeps, and with what some iteration adds. In a chained loop the iterations of one parent position are
in a strict total order with ends and neighbours (`ChainOrder.Orders`), and slots and variables are handed on along it.
-/

namespace StoreCheck

open List VarGen Formula Contexts Term Layout

variable {sort : SortId} {L : Layout} {new : Slot}

variable {M : Structure} {s t : Session} {ρ : M.Env} {F : Formula} {ps : List Term}

/-- Variables taken after each other are different. -/
theorem Encode.set_nameOf_other (hij : i ≠ j) (ρ : M.Env) (e : M.Elem) :
    ρ.set (nameOf j) e (nameOf i) = ρ (nameOf i) :=
  ρ.set_other e fun h => hij (nameOf_injective h)

/-! ## The order of the iterations -/

/-- The iterations of one parent position, those objects of the sort that are live, are totally ordered by `before`; the other
predicates of the order tell neighbours and ends, and these are where they should be. -/
@[mk_iff]
structure ChainOrder.Orders (order : ChainOrder) (M : Structure) (sort : SortId) (outer : List M.Elem)
    (live : M.Elem → Prop) : Prop where
  ordered : ∀ x, M.sort x = sort → ∀ y, M.sort y = sort → M.pred order.before (outer ++ [x, y]) → live x ∧ live y
  irrefl : ∀ x, M.sort x = sort → ¬ M.pred order.before (outer ++ [x, x])
  trans : ∀ x, M.sort x = sort → ∀ y, M.sort y = sort → ∀ z, M.sort z = sort →
    M.pred order.before (outer ++ [x, y]) → M.pred order.before (outer ++ [y, z]) → M.pred order.before (outer ++ [x, z])
  total : ∀ x, M.sort x = sort → ∀ y, M.sort y = sort → live x → live y → x ≠ y →
    M.pred order.before (outer ++ [x, y]) ∨ M.pred order.before (outer ++ [y, x])
  asymm : ∀ x, M.sort x = sort → ∀ y, M.sort y = sort →
    M.pred order.before (outer ++ [x, y]) → ¬ M.pred order.before (outer ++ [y, x])
  next : ∀ x, M.sort x = sort → ∀ y, M.sort y = sort → (M.pred order.justBefore (outer ++ [x, y]) ↔
    M.pred order.before (outer ++ [x, y]) ∧
      ¬ ∃ z, M.sort z = sort ∧ M.pred order.before (outer ++ [x, z]) ∧ M.pred order.before (outer ++ [z, y]))
  first : ∀ x, M.sort x = sort → (M.pred order.first (outer ++ [x]) ↔
    live x ∧ ¬ ∃ y, M.sort y = sort ∧ M.pred order.before (outer ++ [y, x]))
  last : ∀ x, M.sort x = sort → (M.pred order.last (outer ++ [x]) ↔
    live x ∧ ¬ ∃ y, M.sort y = sort ∧ M.pred order.before (outer ++ [x, y]))
  ends : ∀ x, M.sort x = sort → live x →
    (∃ y, M.sort y = sort ∧ M.pred order.first (outer ++ [y])) ∧ ∃ z, M.sort z = sort ∧ M.pred order.last (outer ++ [z])
  predecessor : ∀ x, M.sort x = sort → live x → ¬ M.pred order.first (outer ++ [x]) →
    ∃ y, M.sort y = sort ∧ M.pred order.justBefore (outer ++ [y, x])
  successor : ∀ x, M.sort x = sort → live x → ¬ M.pred order.last (outer ++ [x]) →
    ∃ y, M.sort y = sort ∧ M.pred order.justBefore (outer ++ [x, y])

namespace Contexts

variable (cs : Contexts) (id : ContextId)

/-- The sort of the objects that the loop of a context iterates over. -/
def ownSort : SortId := (cs.get id).paramSorts.getD ((cs.get id).level - 1) ⟨0⟩

/-- The sorts of the parameters of the contexts around. -/
def outerSorts : List SortId := (cs.get id).paramSorts.take ((cs.get id).level - 1)

theorem holds_orderAxiomsWith {order : ChainOrder} {sorts : List SortId} {g : VarGen} :
    let n := (binders sorts g).2.count
    (∀ F ∈ cs.orderAxiomsWith id order (binders sorts g).1
        (⟨nameOf (n + 1), sort⟩, .var (nameOf (n + 1)))
        (⟨nameOf (n + 1 + 1), sort⟩, .var (nameOf (n + 1 + 1)))
        (⟨nameOf (n + 1 + 1 + 1), sort⟩, .var (nameOf (n + 1 + 1 + 1))), F.Holds M ρ) ↔
      ∀ outer : List M.Elem, outer.map M.sort = sorts → order.Orders M sort outer fun x => cs.Live M id (outer ++ [x]) := by
  intro n
  have hsettled : AllSettled n (binders sorts g).1.2 := allSettled_binders sorts g
  simp (disch := omega) only [orderAxiomsWith, mem_cons, not_mem_nil, or_false, forall_eq_or_imp, forall_eq,
    holds_mkForAll, Structure.forAll_append, forAll_binders, Structure.ForAll, Structure.ForSome,
    holds_mkImplies, holds_mkAnd, holds_mkOr, holds_mkNot, holds_mkIff,
    holds_mkForSome, holds_mkEq, exists_eq_or_imp, exists_eq_left, holds_atom,
    holds_membership, map_append, map_cons, map_nil, Encode.position_set hsettled, Term.eval,
    Valuation.set_same, Encode.set_nameOf_other, and_imp]
  simp only [← forall_and]
  refine forall₂_congr fun outer houter => ?_
  rw [eval_binders sorts g ρ outer (by rw [← houter, length_map]), ChainOrder.orders_iff]
  simp only [forall_and, ne_eq]

/-- The axioms of a context's order. -/
theorem holds_orderAxioms (g : VarGen) :
    (∀ F ∈ (cs.orderAxioms id g).1, F.Holds M ρ) ↔ ∀ order, (cs.get id).kind = .chained order →
      ∀ outer : List M.Elem, outer.map M.sort = cs.outerSorts id →
        order.Orders M (cs.ownSort id) outer fun x => cs.Live M id (outer ++ [x]) := by
  unfold orderAxioms
  cases hkind : (cs.get id).kind with
  | root => simp [pure_run]
  | flat => simp [pure_run]
  | chained order =>
    simp only [ContextKind.chained.injEq, forall_eq']
    exact cs.holds_orderAxiomsWith id

theorem holds_nestingAxiom (g : VarGen) :
    (cs.nestingAxiom id g).1.Holds M ρ ↔ ∀ parent, (cs.get id).parent = some parent →
      ∀ es : List M.Elem, es.map M.sort = (cs.get id).paramSorts → cs.Live M id es → cs.Live M parent es := by
  unfold nestingAxiom
  cases hparent : (cs.get id).parent with
  | none => simp [pure_run, Formula.Holds]
  | some parent =>
    simp only [Option.some.injEq, forall_eq']
    show (mkForAll (binders (cs.get id).paramSorts g).1.1 _).Holds M ρ ↔ _
    rw [holds_mkForAll, forAll_binders]
    refine forall₂_congr fun es hes => ?_
    rw [holds_mkImplies, holds_membership, holds_membership,
      eval_binders _ _ ρ es (by rw [← hes, length_map])]

end Contexts

namespace Encode

/-- What the context of a loop over a value says: the live iterations are the elements of the value, they lie in live iterations
of the parent, and those of a chained loop are in order. -/
structure Iterates (M : Structure) (L : Layout) (ρ : M.Env) (s : Session) (child : ContextId) (sort : SortId)
    (domain : ObjValue) : Prop where
  domain : ∀ live, (s.contexts.get child).live = some live → ∀ es, s.Runs M es → ∀ e, M.sort e = sort →
    (M.pred live (es ++ [e]) ↔ domain.Holds L M s.contexts ρ es e)
  nested : ∀ parent, (s.contexts.get child).parent = some parent → ∀ es : List M.Elem,
    es.map M.sort = (s.contexts.get child).paramSorts → s.contexts.Live M child es → s.contexts.Live M parent es
  ordered : ∀ order, (s.contexts.get child).kind = .chained order → ∀ outer : List M.Elem,
    outer.map M.sort = s.contexts.outerSorts child →
      order.Orders M (s.contexts.ownSort child) outer fun x => s.contexts.Live M child (outer ++ [x])

theorem fresh_ok {α : Type} {f : Fresh α} {a : α} (h : fresh f s = .ok (a, t)) :
    a = (f s.vars).1 ∧ t = { s with vars := (f s.vars).2 } :=
  Prod.mk.inj (modifyGet_ok.1 h)

theorem axioms_fresh {α : Type} {f : Fresh α} {a : α} (h : fresh f s = .ok (a, t)) : t.axioms = s.axioms := by
  rw [(fresh_ok h).2]

theorem obeys_contextAxioms {child : ContextId} {var : String} {domain : ObjValue} (hv : domain.Settled s.vars.count)
    (hrun : contextAxioms L child var sort domain s = .ok ((), t)) :
    M.Obeys ρ t ↔ M.Obeys ρ s ∧ Iterates M L ρ s child sort domain := by
  obtain ⟨live, s1, s2, nesting, s3, s4, order, hlive, h1, h2, h3, h4, h5⟩ := contextAxioms_ok hrun
  rw [obeys_emits h5, Structure.obeys_congr (axioms_fresh h4), obeys_emit h3, Structure.obeys_congr (axioms_fresh h2),
    obeys_sameMembers hv h1]
  rw [(fresh_ok h2).1, (fresh_ok h4).1, holds_orderAxioms, holds_nestingAxiom, and_assoc, and_assoc]
  refine and_congr_right fun _ => ⟨fun h => ⟨?_, h.2.1, h.2.2⟩, fun h => ⟨h.domain live hlive, h.nested, h.ordered⟩⟩
  intro live' hlive'
  cases hlive.symm.trans hlive'
  exact h.1

/-! ## Flat loops -/

variable {f : LoopFrame} {written : SortId} {before after : Slot} {order : ChainOrder}

attribute [local simp] Structure.ForAll Structure.ForSome Term.eval

/-- The slot of a sort after a flat loop. -/
theorem obeys_keptOrAdded (hrun : axiomOver (keptOrAdded f written before after new) s = .ok ((), t)) :
    M.Obeys ρ t ↔ M.Obeys ρ s ∧ ∀ es, s.Runs M es → ∀ e, M.sort e = written → (new.At M es e ↔
        (before.At M es e ∧ ∀ x, M.sort x = f.sort → s.contexts.Live M f.child (es ++ [x]) → after.At M (es ++ [x]) e) ∨
        (¬ before.At M es e ∧ ∃ x, M.sort x = f.sort ∧ s.contexts.Live M f.child (es ++ [x]) ∧ after.At M (es ++ [x]) e)) := by
  refine obeys_axiomOver quiet.keptOrAdded ?_ hrun
  intro s0 ps F t hq hps hrun
  obtain ⟨b, o, s1, b1, it1, s2, b2, it2, h1, h2, h3, rfl⟩ := keptOrAdded_ok hrun
  refine ⟨(axioms_binder h3).trans ((axioms_binder h2).trans (axioms_binder h1)), fun ρ' hρ => ?_⟩
  cases binder_ok.1 h1
  cases binder_ok.1 h2
  cases binder_ok.1 h3
  simp (disch := omega) [position_set hps, set_nameOf_other, hq.table]

/-! ## Chained loops -/

/-- The slot that an iteration starts from. -/
theorem obeys_threadedSlot (hrun : axiomOver (threadedSlot f order written before after start) s = .ok ((), t)) :
    M.Obeys ρ t ↔ M.Obeys ρ s ∧ ∀ es, s.Runs M es →
      (M.pred order.first es → ∀ e, M.sort e = written → (start.At M es e ↔ before.At M es e)) ∧
      ∀ x, M.sort x = f.sort → M.pred order.justBefore (es.take (es.length - 1) ++ [x] ++ es.drop (es.length - 1)) →
        ∀ e, M.sort e = written → (start.At M es e ↔ after.At M (es.take (es.length - 1) ++ [x]) e) := by
  refine obeys_axiomOver quiet.threadedSlot ?_ hrun
  intro s0 ps F t hq hps hrun
  obtain ⟨b, o, s1, bp, p, s2, b', o', h1, h2, h3, rfl⟩ := threadedSlot_ok hrun
  refine ⟨(axioms_binder h3).trans ((axioms_binder h2).trans (axioms_binder h1)), fun ρ' hρ => ?_⟩
  cases binder_ok.1 h1
  cases binder_ok.1 h2
  cases binder_ok.1 h3
  simp (disch := omega) [position_set hps, set_nameOf_other]

theorem holds_nothingIterated (hq : s.Quiet s0) (hps : AllSettled s0.vars.count ps)
    (h : nothingIterated f ps s0 = .ok (F, t)) (ρ : M.Env) :
    F.Holds M ρ ↔ ¬ ∃ x, M.sort x = f.sort ∧ s.contexts.Live M f.child (ps.map (Term.eval M ρ) ++ [x]) := by
  obtain ⟨b, it, h1, rfl⟩ := nothingIterated_ok h
  cases binder_ok.1 h1
  simp [position_set hps, hq.table]

theorem taken_nothingIterated (h : nothingIterated f ps s = .ok (F, t)) : t = { s with vars := ⟨s.vars.count + 1⟩ } := by
  obtain ⟨b, it, h1, -⟩ := nothingIterated_ok h
  cases binder_ok.1 h1
  rfl

/-- The slot of a sort after a chained loop. -/
theorem obeys_lastSlot (hrun : axiomOver (lastSlot f order written before after new) s = .ok ((), t)) :
    M.Obeys ρ t ↔ M.Obeys ρ s ∧ ∀ es, s.Runs M es → ((¬ ∃ x, M.sort x = f.sort ∧ s.contexts.Live M f.child (es ++ [x])) →
        ∀ e, M.sort e = written → (new.At M es e ↔ before.At M es e)) ∧ ∀ x, M.sort x = f.sort → M.pred order.last (es ++ [x]) →
        ∀ e, M.sort e = written → (new.At M es e ↔ after.At M (es ++ [x]) e) := by
  refine obeys_axiomOver quiet.lastSlot ?_ hrun
  intro s0 ps F t hq hps hrun
  obtain ⟨nothing, s1, b, o, s2, bi, it, s3, b', o', h1, h2, h3, h4, rfl⟩ := lastSlot_ok hrun
  have htaken := taken_nothingIterated h1
  subst htaken
  refine ⟨(axioms_binder h4).trans ((axioms_binder h3).trans ((axioms_binder h2).trans rfl)), fun ρ' hρ => ?_⟩
  cases binder_ok.1 h2
  cases binder_ok.1 h3
  cases binder_ok.1 h4
  simp (disch := omega) [holds_nothingIterated hq hps h1, position_set hps, set_nameOf_other]

/-- The value of a carried variable after a chained loop. -/
theorem obeys_lastValue {before after : ObjValue} (hb : before.Settled s.vars.count) (ha : after.Settled s.vars.count)
    (hrun : axiomOver (lastValue L f order sort p before after) s = .ok ((), t)) :
    M.Obeys ρ t ↔ M.Obeys ρ s ∧ ∀ es, s.Runs M es → ((¬ ∃ x, M.sort x = f.sort ∧ s.contexts.Live M f.child (es ++ [x])) →
        ∀ e, M.sort e = sort → (M.pred p (es ++ [e]) ↔ before.Holds L M s.contexts ρ es e)) ∧
      ∀ x, M.sort x = f.sort → M.pred order.last (es ++ [x]) →
        ∀ e, M.sort e = sort → (M.pred p (es ++ [e]) ↔ after.Holds L M s.contexts ρ (es ++ [x]) e) := by
  refine obeys_axiomOver (quiet.lastValue (quiet_member L _) (quiet_member L _)) ?_ hrun
  intro s0 ps F t hq hps hrun
  obtain ⟨nothing, s1, b, o, s2, old, s3, bi, it, s4, b', o', s5, new, h1, h2, h3, h4, h5, h6, rfl⟩ := lastValue_ok hrun
  have htaken := taken_nothingIterated h1
  subst htaken
  refine ⟨?_, fun ρ' hρ => ?_⟩
  · rw [axioms_member h6, axioms_binder h5, axioms_binder h4, axioms_member h3, axioms_binder h2]
  have hq1 : s0.Quiet { s0 with vars := ⟨s0.vars.count + 1⟩ } := quiet_taken s0
  cases binder_ok.1 h2
  have hold := holds_member_var hb (hq.trans hq1) (hps.mono hq1.vars) h3 hρ
  have hq3 : s0.Quiet s3 := hq1.trans ((quiet_taken _).trans ((quiet_member L before ps _).of_ok h3))
  cases binder_ok.1 h4
  cases binder_ok.1 h5
  have hle : s0.vars.count ≤ s3.vars.count := hq3.vars
  have hq4 : s0.Quiet { s3 with vars := ⟨s3.vars.count + 1⟩ } := hq3.trans (quiet_taken s3)
  have hpsit : AllSettled (s3.vars.count + 1) (ps ++ [.var (nameOf (s3.vars.count + 1))]) := by
    rw [allSettled_iff]
    intro u hu
    rcases mem_append.1 hu with hu | hu
    · exact (allSettled_iff _ _).1 (hps.mono hq4.vars) u hu
    · rw [mem_singleton.1 hu]
      exact settled_nameOf (Nat.le_refl _)
  have hnew : ∀ x e, Formula.Holds M new
      ((ρ'.set (nameOf (s3.vars.count + 1)) x).set (nameOf (s3.vars.count + 1 + 1)) e) ↔ _ := fun x e =>
    holds_member_var ha (hq.trans hq4) hpsit h6
      (hρ.trans (Valuation.agree_set ρ' x (show s.vars.count < s3.vars.count + 1 from Nat.lt_succ_of_le (hq.trans hq3).vars))) e
  simp (disch := omega) [holds_nothingIterated hq hps h1, hold, hnew, position_set hps]

end Encode

end StoreCheck
