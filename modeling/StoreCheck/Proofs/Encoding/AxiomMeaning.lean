import StoreCheck.Proofs.Encoding.FormulaMeaning
import StoreCheck.Proofs.Encoding.ValueTransfer

/-!
# What the axioms of each rule say

An axiom of the encoding is said of every position at which its statement runs: the position is a live iteration of the
context, and every branch that leads to the statement is taken there (`Session.Runs`). A structure obeys the axioms after a rule
exactly when it obeys those before it and, at every such position, what the rule says (`obeys_axiomOver`). For each rule that
builds an axiom, the lemma named after it spells this out in terms of what values and slots hold of.
-/

namespace StoreCheck

open List VarGen Formula Term StoreCheck.Valuation Structure

variable {c : ClassId} {ts : TupleSort}

variable {M : Structure} {L : Layout} {s t : Session} {ρ : M.Env} {F : Formula} {ps : List Term}

/-! ## Positions -/

/-- The place of the session is run at the position: it is live there, and all branches around it are taken. -/
structure Session.Runs (M : Structure) (s : Session) (es : List M.Elem) : Prop where
  sorts : es.map M.sort = s.paramSorts
  live : s.contexts.Live M s.context es
  guards : ∀ g ∈ s.guards, M.pred g.indicator (es.take g.depth)

/-- Positions that run still run after quiet steps. -/
theorem Session.Runs.later (h : s.Runs M es) (hq : s.Quiet t) : t.Runs M es := by
  refine ⟨?_, ?_, ?_⟩
  · rw [hq.paramSorts]
    exact h.sorts
  · rw [hq.table, hq.context]
    exact h.live
  · rw [hq.guards]
    exact h.guards

theorem Session.runs_iff_of_quiet (hq : s.Quiet t) : t.Runs M es ↔ s.Runs M es := by
  refine ⟨fun h => ⟨?_, ?_, ?_⟩, fun h => h.later hq⟩
  · rw [← hq.paramSorts]
    exact h.sorts
  · rw [← hq.table, ← hq.context]
    exact h.live
  · rw [← hq.guards]
    exact h.guards

/-- All axioms of the session are true. -/
def Structure.Obeys (M : Structure) (ρ : M.Env) (s : Session) : Prop := ∀ F ∈ s.axioms, F.Holds M ρ

theorem Structure.obeys_congr (h : t.axioms = s.axioms) : M.Obeys ρ t ↔ M.Obeys ρ s := by
  unfold Structure.Obeys
  rw [h]

/-- What obeys more axioms obeys fewer. -/
theorem Structure.Obeys.of_grows (h : M.Obeys ρ t) (hg : s.axioms <+: t.axioms) : M.Obeys ρ s :=
  fun F hF => h F (hg.subset hF)

namespace Encode

attribute [local simp] Structure.ForAll Structure.ForSome

theorem obeys_emit (hrun : emit F s = .ok ((), t)) : M.Obeys ρ t ↔ M.Obeys ρ s ∧ F.Holds M ρ := by
  obtain ⟨-, rfl⟩ := Prod.mk.inj (emit_ok.1 hrun)
  unfold Structure.Obeys
  split
  · rename_i htop
    rw [(isTop_iff F).1 htop]
    simp [Formula.Holds]
  · simp only [mem_append, mem_singleton, or_imp, forall_and, forall_eq]

/-- A rule applied to a list says what it says of each member. -/
theorem obeys_forM {α : Type} {rule : α → Encode Unit} {P : α → Prop} {l : List α}
    (hrule : ∀ a ∈ l, ∀ s t, rule a s = .ok ((), t) → (M.Obeys ρ t ↔ M.Obeys ρ s ∧ P a)) (hrun : l.forM rule s = .ok ((), t)) :
    M.Obeys ρ t ↔ M.Obeys ρ s ∧ ∀ a ∈ l, P a := by
  induction l generalizing s with
  | nil =>
    cases forM_nil_ok.1 hrun
    simp
  | cons a rest ih =>
    obtain ⟨s1, h1, h2⟩ := forM_cons_ok.1 hrun
    rw [ih (fun a ha => hrule a (by simp [ha])) h2, hrule a (by simp) s s1 h1, forall_mem_cons, and_assoc]

theorem obeys_emits {fs : List Formula} (hrun : fs.forM emit s = .ok ((), t)) :
    M.Obeys ρ t ↔ M.Obeys ρ s ∧ ∀ F ∈ fs, F.Holds M ρ :=
  obeys_forM (fun _ _ _ _ => obeys_emit) hrun

variable {es : List M.Elem} {sort : SortId} {v value : ObjValue} {o : Term} {s0 : Session} {ρ' : M.Env} {p : PredId}
variable {before after : Slot}

theorem holds_guarded (hes : ps.map (eval M ρ) = es) :
    (guarded guards ps).Holds M ρ ↔ ∀ g ∈ guards, M.pred g.indicator (es.take g.depth) := by
  subst hes
  simp [guarded, holds_atom, map_take]

/-- An axiom over the session's context is said of every position where its place is run. -/
theorem holds_axiomAt (s : Session) (body : Formula) (ρ : M.Env) :
    (axiomAt s body).Holds M ρ ↔ ∀ es, s.Runs M es → body.Holds M (ρ.setFrom s.vars.count es) := by
  unfold axiomAt paramVars
  rw [holds_mkForAll, forAll_binders]
  have hpremise : ∀ es, es.map M.sort = s.paramSorts →
      ((mkAnd [s.contexts.membership s.context (binders s.paramSorts s.vars).1.2,
        guarded s.guards (binders s.paramSorts s.vars).1.2]).Holds M (ρ.setFrom s.vars.count es) ↔
        s.Runs M es) := by
    intro es hes
    have heval := eval_binders s.paramSorts s.vars ρ es (by rw [← hes, length_map])
    simp only [holds_mkAnd, forall_mem_cons, not_mem_nil, false_imp_iff, forall_true_iff, and_true,
      Contexts.holds_membership, holds_guarded heval, heval]
    exact ⟨fun h => ⟨hes, h.1, h.2⟩, fun h => ⟨h.live, h.guards⟩⟩
  constructor
  · intro h es hruns
    have := h es hruns.sorts
    rw [holds_mkImplies, hpremise es hruns.sorts] at this
    exact this hruns
  · intro h es hes
    rw [holds_mkImplies, hpremise es hes]
    exact h es

/-! ## Rules that say something of a position -/

/-- After `s` the rule builds formulas that say `P` of the position of their parameters, and adds no axiom on the way. -/
def Says (M : Structure) (ρ : M.Env) (s : Session) (build : List Term → Encode Formula) (P : List M.Elem → Prop) : Prop :=
  ∀ s0 ps F t, s.Quiet s0 → Term.AllSettled s0.vars.count ps → build ps s0 = .ok (F, t) →
    t.axioms = s0.axioms ∧
      ∀ ρ', Valuation.Agree s.vars.count ρ ρ' → (F.Holds M ρ' ↔ P (ps.map (Term.eval M ρ')))

/-- To obey the axiom of a rule is to obey the axioms before, and what the rule says at every position that is run. -/
theorem obeys_axiomOver (hquiet : ∀ ps, Keeps Session.Quiet (build ps)) (hmeans : Says M ρ s build P)
    (hrun : axiomOver build s = .ok ((), t)) : M.Obeys ρ t ↔ M.Obeys ρ s ∧ ∀ es, s.Runs M es → P es := by
  obtain ⟨body, s1, h1, h2⟩ := axiomOver_ok hquiet hrun
  obtain ⟨haxioms, hbody⟩ := hmeans _ _ _ _ (quiet_afterParams s) (allSettled_binders s.paramSorts s.vars) h1
  rw [obeys_emit h2, holds_axiomAt, obeys_congr (show s1.axioms = s.axioms from haxioms)]
  refine and_congr_right fun _ => forall₂_congr fun es hes => ?_
  have heval := eval_binders s.paramSorts s.vars ρ es (by rw [← hes.sorts, length_map])
  rw [hbody _ (agree_setFrom es ρ s.vars.count), heval]

/-! ## Membership under fresh variables -/

theorem axioms_binder {p : Binder × Term} (h : binder sort s = .ok (p, t)) : t.axioms = s.axioms := by
  cases binder_ok.1 h
  rfl

theorem axioms_member (h : member L v ps o s = .ok (F, t)) : t.axioms = s.axioms := by
  unfold member at h
  obtain ⟨F', g, -, h⟩ := freshly_ok.1 h
  cases h
  rfl

/-- Taking a variable is quiet, and the variable is settled from then on. -/
theorem quiet_taken (s : Session) : s.Quiet { s with vars := ⟨s.vars.count + 1⟩ } := quiet_setVars s _ (Nat.le_succ _)

@[simp]
theorem eval_var_set (x : String) (ρ : M.Env) (e : M.Elem) : (var x).eval M (ρ.set x e) = e := by
  rw [eval, set_same]

/-- Parameters that are settled stand for the same position under a variable that is taken later. -/
theorem position_set (hps : Term.AllSettled n ps) (hj : n < j) (ρ : M.Env) (e : M.Elem) :
    ps.map (eval M (ρ.set (nameOf j) e)) = ps.map (eval M ρ) :=
  map_eval_agree (agree_set ρ e hj) hps

/-- The membership formula that a rule builds after `s` says that the object is in the value. -/
theorem holds_member_after (hv : v.Settled s.vars.count) (hq : s.Quiet s0) (hps : Term.AllSettled s0.vars.count ps)
    (ho : o.Settled s0.vars.count) (h : member L v ps o s0 = .ok (F, t)) (hρ : Valuation.Agree s.vars.count ρ ρ') :
    F.Holds M ρ' ↔ v.Holds L M s.contexts ρ (ps.map (eval M ρ')) (o.eval M ρ') := by
  rw [holds_member h (hv.mono hq.vars) hps ho, hq.table, ObjValue.holds_agree hρ hv]

/-- The same for the variable that was just taken. -/
theorem holds_member_var (hv : v.Settled s.vars.count) (hq : s.Quiet s0) (hps : Term.AllSettled s0.vars.count ps)
    (h : member L v ps (.var (nameOf (s0.vars.count + 1))) { s0 with vars := ⟨s0.vars.count + 1⟩ } = .ok (F, t))
    (hρ : Valuation.Agree s.vars.count ρ ρ') (e : M.Elem) :
    F.Holds M (ρ'.set (nameOf (s0.vars.count + 1)) e) ↔
      v.Holds L M s.contexts ρ (ps.map (eval M ρ')) e := by
  have hagree := hρ.trans (agree_set ρ' e (Nat.lt_succ_of_le hq.vars))
  have hvar : (var (nameOf (s0.vars.count + 1))).Settled (s0.vars.count + 1) :=
    settled_nameOf (Nat.le_refl _)
  rw [holds_member_after hv (hq.trans (quiet_taken s0)) (hps.mono (Nat.le_succ _)) hvar h hagree,
    position_set hps (Nat.lt_succ_self _), eval_var_set]

/-! ## Values -/

theorem says_sameMembers (hv : v.Settled s.vars.count) : Says M ρ s (sameMembers L sort p v) fun es =>
      ∀ e, M.sort e = sort → (M.pred p (es ++ [e]) ↔ v.Holds L M s.contexts ρ es e) := by
  intro s0 ps F t hq hps hrun
  obtain ⟨b, o, s1, inValue, h1, h2, rfl⟩ := sameMembers_ok hrun
  refine ⟨(axioms_member h2).trans (axioms_binder h1), fun ρ' hρ => ?_⟩
  cases binder_ok.1 h1
  simp [position_set hps, holds_member_var hv hq hps h2 hρ]

/-- The predicate names the value. -/
theorem obeys_sameMembers (hv : v.Settled s.vars.count) (hrun : axiomOver (sameMembers L sort p v) s = .ok ((), t)) :
    M.Obeys ρ t ↔ M.Obeys ρ s ∧ ∀ es, s.Runs M es →
      ∀ e, M.sort e = sort → (M.pred p (es ++ [e]) ↔ v.Holds L M s.contexts ρ es e) :=
  obeys_axiomOver (quiet.sameMembers (quiet_member L _)) (says_sameMembers hv) hrun

/-! ## Updates -/

/-- What a creation says: an object is made wherever the statement runs, one at a time and nowhere else; it is new and belongs to
the class, but not to the foreign ones. -/
structure Creates (M : Structure) (L : Layout) (s : Session) (c : ClassId) (p : PredId) : Prop where
  made : ∀ es, s.Runs M es → ∃ e, M.sort e = L.classSort c ∧ M.pred p (es ++ [e])
  only : ∀ es, es.map M.sort = s.paramSorts → ∀ e, M.sort e = L.classSort c → M.pred p (es ++ [e]) →
    s.Runs M es ∧ ¬ (L.initial.slot (L.classSort c)).At M [] e ∧ L.IsOf M c e ∧ ∀ d ∈ foreignClasses L c, ¬ L.IsOf M d e
  single : ∀ es, es.map M.sort = s.paramSorts → ∀ e, M.sort e = L.classSort c → ∀ e', M.sort e' = L.classSort c →
    M.pred p (es ++ [e]) → M.pred p (es ++ [e']) → e = e'

theorem obeys_someCreated (hrun : axiomOver (someCreated sort p) s = .ok ((), t)) :
    M.Obeys ρ t ↔ M.Obeys ρ s ∧ ∀ es, s.Runs M es → ∃ e, M.sort e = sort ∧ M.pred p (es ++ [e]) := by
  refine obeys_axiomOver quiet.someCreated ?_ hrun
  intro s0 ps F t hq hps hrun
  obtain ⟨b, o, h1, rfl⟩ := someCreated_ok hrun
  refine ⟨axioms_binder h1, fun ρ' hρ => ?_⟩
  cases binder_ok.1 h1
  simp [position_set hps]

/-- A formula over the parameters of a context and further variables, said of all positions of the right sorts. -/
theorem holds_forAll_params (s : Session) (bs : List Binder) (G : Formula) (ρ : M.Env) :
    (mkForAll ((paramVars s).1 ++ bs) G).Holds M ρ ↔
      ∀ es, es.map M.sort = s.paramSorts → M.ForAll bs (G.Holds M) (ρ.setFrom s.vars.count es) := by
  rw [holds_mkForAll, forAll_append]
  exact forAll_binders s.paramSorts s.vars _ ρ

theorem eval_paramVars (hes : es.map M.sort = s.paramSorts) (ρ : M.Env) :
    (paramVars s).2.map (eval M (ρ.setFrom s.vars.count es)) = es :=
  eval_binders s.paramSorts s.vars ρ es (by rw [← hes, length_map])

theorem allSettled_paramVars (s : Session) : Term.AllSettled (afterParams s).vars.count (paramVars s).2 :=
  allSettled_binders s.paramSorts s.vars

theorem holds_creationFacts {ps : List Term} (hps : ps.map (eval M ρ') = es) (ho : o.eval M ρ' = e)
    (hes : es.map M.sort = s.paramSorts) :
    (mkAnd (creationFacts L c s ps o)).Holds M ρ' ↔
      s.Runs M es ∧ ¬ (L.initial.slot (L.classSort c)).At M [] e ∧ L.IsOf M c e ∧ ∀ d ∈ foreignClasses L c, ¬ L.IsOf M d e := by
  have hruns : s.Runs M es ↔ s.contexts.Live M s.context es ∧ ∀ g ∈ s.guards, M.pred g.indicator (es.take g.depth) :=
    ⟨fun h => ⟨h.live, h.guards⟩, fun h => ⟨hes, h.1, h.2⟩⟩
  simp [creationFacts, or_imp, forall_and, holds_guarded hps, Snapshot.holds, hps, ho, hruns, and_assoc]

theorem holds_createdOnly (h : binder (L.classSort c) (afterParams s) = .ok ((b, o), s2)) :
    (mkForAll ((paramVars s).1 ++ [b]) (.mkImplies (.atom p ((paramVars s).2 ++ [o]))
      (.mkAnd (creationFacts L c s (paramVars s).2 o)))).Holds M ρ ↔
      ∀ es, es.map M.sort = s.paramSorts → ∀ e, M.sort e = L.classSort c → M.pred p (es ++ [e]) →
        s.Runs M es ∧ ¬ (L.initial.slot (L.classSort c)).At M [] e ∧ L.IsOf M c e ∧
          ∀ d ∈ foreignClasses L c, ¬ L.IsOf M d e := by
  rw [holds_forAll_params]
  cases binder_ok.1 h
  refine forall₂_congr fun es hes => forall₂_congr fun e _ => ?_
  have hps := (position_set (allSettled_paramVars s) (Nat.lt_succ_self _) (ρ.setFrom s.vars.count es) e).trans
    (eval_paramVars hes ρ)
  simp [-holds_mkAnd, holds_creationFacts hps (eval_var_set _ _ e) hes, hps]

theorem holds_createdSingle {s3 s4 s5 : Session} (hle : (afterParams s).vars.count ≤ s3.vars.count)
    (h1 : binder sort s3 = .ok ((b1, o1), s4)) (h2 : binder sort s4 = .ok ((b2, o2), s5)) :
    (mkForAll ((paramVars s).1 ++ [b1, b2]) (.mkImplies
      (.mkAnd [.atom p ((paramVars s).2 ++ [o1]), .atom p ((paramVars s).2 ++ [o2])]) (.mkEq o1 o2))).Holds M ρ ↔
      ∀ es, es.map M.sort = s.paramSorts → ∀ e, M.sort e = sort → ∀ e', M.sort e' = sort →
        M.pred p (es ++ [e]) → M.pred p (es ++ [e']) → e = e' := by
  rw [holds_forAll_params]
  cases binder_ok.1 h1
  cases binder_ok.1 h2
  have hsettled := allSettled_paramVars s
  have hne : nameOf (s3.vars.count + 1) ≠ nameOf (s3.vars.count + 1 + 1) := fun h => by
    have := nameOf_injective h
    omega
  refine forall₂_congr fun es hes => forall₂_congr fun e _ => forall₂_congr fun e' _ => ?_
  have hps := ((position_set hsettled (j := s3.vars.count + 1 + 1) (by omega) _ e').trans
    (position_set hsettled (j := s3.vars.count + 1) (by omega) (ρ.setFrom s.vars.count es) e)).trans (eval_paramVars hes ρ)
  simp [hps, eval, set_other _ _ hne]

theorem obeys_creationAxioms (hrun : creationAxioms L c (L.classSort c) p s = .ok ((), t)) :
    M.Obeys ρ t ↔ M.Obeys ρ s ∧ Creates M L s c p := by
  obtain ⟨s1, b, o, s2, s3, b1, o1, s4, b2, o2, s5, h1, h2, h3, h4, h5, h6⟩ := creationAxioms_ok hrun
  have hq1 : s.Quiet s1 := (quiet.axiomOver quiet.someCreated).of_ok h1
  have hle : (afterParams s1).vars.count ≤ s3.vars.count :=
    (((quiet.binder _).of_ok h2).trans ((quiet_emit _).of_ok h3)).vars
  have haxioms2 : s2.axioms = (afterParams s1).axioms := axioms_binder h2
  have haxioms5 : s5.axioms = s3.axioms := (axioms_binder h5).trans (axioms_binder h4)
  rw [obeys_emit h6, obeys_congr haxioms5, obeys_emit h3, obeys_congr haxioms2,
    obeys_congr (show (afterParams s1).axioms = s1.axioms from rfl), obeys_someCreated h1,
    holds_createdOnly h2, holds_createdSingle hle h4 h5]
  simp only [Session.runs_iff_of_quiet hq1, hq1.paramSorts, and_assoc]
  exact and_congr_right fun _ => ⟨fun h => ⟨h.1, h.2.1, h.2.2⟩, fun h => ⟨h.made, h.only, h.single⟩⟩

/-- The slot after a creation. -/
theorem obeys_createdSlot (hrun : axiomOver (createdSlot sort before after p) s = .ok ((), t)) :
    M.Obeys ρ t ↔ M.Obeys ρ s ∧ ∀ es, s.Runs M es → ∀ e, M.sort e = sort →
      (after.At M es e ↔ before.At M es e ∨ M.pred p (es ++ [e])) := by
  refine obeys_axiomOver quiet.createdSlot ?_ hrun
  intro s0 ps F t hq hps hrun
  obtain ⟨b, o, h1, rfl⟩ := createdSlot_ok hrun
  refine ⟨axioms_binder h1, fun ρ' hρ => ?_⟩
  cases binder_ok.1 h1
  simp [position_set hps]

/-- The slot after a deletion. -/
theorem obeys_deletedSlot (hv : value.Settled s.vars.count)
    (hrun : axiomOver (deletedSlot L sort value before after) s = .ok ((), t)) :
    M.Obeys ρ t ↔ M.Obeys ρ s ∧ ∀ es, s.Runs M es → ∀ e, M.sort e = sort →
      (after.At M es e ↔ before.At M es e ∧ ¬ value.Holds L M s.contexts ρ es e) := by
  refine obeys_axiomOver (quiet.deletedSlot (quiet_member L _)) ?_ hrun
  intro s0 ps F t hq hps hrun
  obtain ⟨b, o, s1, gone, h1, h2, rfl⟩ := deletedSlot_ok hrun
  refine ⟨(axioms_member h2).trans (axioms_binder h1), fun ρ' hρ => ?_⟩
  cases binder_ok.1 h1
  simp [position_set hps, holds_member_var hv hq hps h2 hρ]

/-- The tuples of a sort whose ends, if they are of the other sort, are not in the value. -/
theorem holds_endKept (hv : value.Settled s.vars.count) (hq : s.Quiet s0) (hps : Term.AllSettled s0.vars.count ps)
    (ho : o.Settled s0.vars.count) (h : endKept L value ps isSort o s0 = .ok (Fs, t)) (hρ : Valuation.Agree s.vars.count ρ ρ') :
    s0.Quiet t ∧ t.axioms = s0.axioms ∧ ((∀ F ∈ Fs, F.Holds M ρ') ↔
      (isSort = true → ¬ value.Holds L M s.contexts ρ (ps.map (eval M ρ')) (o.eval M ρ'))) := by
  rcases endKept_ok h with ⟨hsort, gone, hgone, rfl⟩ | ⟨hsort, rfl, rfl⟩
  · refine ⟨(quiet_member L value ps o).of_ok hgone, axioms_member hgone, ?_⟩
    simp [hsort, holds_member_after hv hq hps ho hgone hρ]
  · refine ⟨.refl _, rfl, ?_⟩
    simp [hsort]

/-- The slot of tuples after a deletion. -/
theorem obeys_prunedSlot (hv : value.Settled s.vars.count)
    (hrun : axiomOver (prunedSlot L sort value ts before after) s = .ok ((), t)) :
    M.Obeys ρ t ↔ M.Obeys ρ s ∧ ∀ es, s.Runs M es → ∀ e, M.sort e = ts.sort → (after.At M es e ↔ before.At M es e ∧
        (ts.source = sort → ¬ value.Holds L M s.contexts ρ es (ts.Left M e)) ∧
        (ts.target = sort → ¬ value.Holds L M s.contexts ρ es (ts.Right M e))) := by
  refine obeys_axiomOver (quiet.prunedSlot (quiet_member L _)) ?_ hrun
  intro s0 ps F t hq hps hrun
  obtain ⟨b, o, s1, left, s2, right, h1, h2, h3, rfl⟩ := prunedSlot_ok hrun
  cases binder_ok.1 h1
  have hle : s0.vars.count ≤ s0.vars.count + 1 := Nat.le_succ _
  have hvar : (var (nameOf (s0.vars.count + 1))).Settled (s0.vars.count + 1) :=
    settled_nameOf (Nat.le_refl _)
  have hq1 := hq.trans (quiet_taken s0)
  have hleft : ∀ {ρ' : M.Env}, Valuation.Agree s.vars.count ρ ρ' → _ := fun hρ =>
    holds_endKept hv hq1 (hps.mono hle) (settled_leftOf ts hvar) h2 hρ
  have hq2 := (hleft (Valuation.Agree.refl _ _)).1
  have hright : ∀ {ρ' : M.Env}, Valuation.Agree s.vars.count ρ ρ' → _ := fun hρ =>
    holds_endKept hv (hq1.trans hq2) ((hps.mono hle).mono hq2.vars) ((settled_rightOf ts hvar).mono hq2.vars) h3 hρ
  refine ⟨(hright (Valuation.Agree.refl _ _)).2.1.trans (hleft (Valuation.Agree.refl _ _)).2.1, fun ρ' hρ => ?_⟩
  rw [holds_mkForAll]
  refine forall₂_congr fun e _ => ?_
  have hagree := hρ.trans (agree_set ρ' e (Nat.lt_succ_of_le hq.vars))
  simp [or_imp, forall_and, (hleft hagree).2.2, (hright hagree).2.2, position_set hps]

/-- What an update of tuples keeps or adds. -/
def Updated (M : Structure) (L : Layout) (cs : Contexts) (ρ : M.Env) (ts : TupleSort) (left right : ObjValue)
    (update : TupleUpdate) (snapshot : Snapshot) (es : List M.Elem) (e : M.Elem) : Prop :=
  let matched := left.Holds L M cs ρ es (ts.Left M e) ∧ right.Holds L M cs ρ es (ts.Right M e)
  match update with
  | .remove => (snapshot.slot ts.sort).At M es e ∧ ¬ matched
  | .add => (snapshot.slot ts.sort).At M es e ∨
      matched ∧ (snapshot.slot ts.source).At M es (ts.Left M e) ∧ (snapshot.slot ts.target).At M es (ts.Right M e)

/-- The slot of tuples after an update. -/
theorem obeys_updatedSlot {left right : ObjValue} (hl : left.Settled s.vars.count) (hr : right.Settled s.vars.count)
    (hrun : axiomOver (updatedSlot L ts left right update snapshot after) s = .ok ((), t)) :
    M.Obeys ρ t ↔ M.Obeys ρ s ∧ ∀ es, s.Runs M es → ∀ e, M.sort e = ts.sort →
      (after.At M es e ↔ Updated M L s.contexts ρ ts left right update snapshot es e) := by
  refine obeys_axiomOver (quiet.updatedSlot (quiet_member L _) (quiet_member L _)) ?_ hrun
  intro s0 ps F t hq hps hrun
  obtain ⟨b, o, s1, inLeft, s2, inRight, h1, h2, h3, rfl⟩ := updatedSlot_ok hrun
  refine ⟨(axioms_member h3).trans ((axioms_member h2).trans (axioms_binder h1)), fun ρ' hρ => ?_⟩
  cases binder_ok.1 h1
  have hle : s0.vars.count ≤ s0.vars.count + 1 := Nat.le_succ _
  have hvar : (var (nameOf (s0.vars.count + 1))).Settled (s0.vars.count + 1) :=
    settled_nameOf (Nat.le_refl _)
  have hq1 := hq.trans (quiet_taken s0)
  have hq2 := (quiet_member L left ps _).of_ok h2
  rw [holds_mkForAll]
  refine forall₂_congr fun e _ => ?_
  have hagree := hρ.trans (agree_set ρ' e (Nat.lt_succ_of_le hq.vars))
  have hleft := holds_member_after hl hq1 (hps.mono hle) (settled_leftOf ts hvar) h2 hagree
  have hright := holds_member_after hr (hq1.trans hq2) ((hps.mono hle).mono hq2.vars)
    ((settled_rightOf ts hvar).mono hq2.vars) h3 hagree
  cases update <;> simp [updatedFormula, Updated, Snapshot.holds, hleft, hright, position_set hps]

/-! ## Alternatives -/

/-- The slot after alternatives. -/
theorem obeys_takenSlot (hrun : axiomOver (takenSlot exits sort d merged) s = .ok ((), t)) :
    M.Obeys ρ t ↔ M.Obeys ρ s ∧ ∀ es, s.Runs M es → ∀ e, M.sort e = sort →
      (merged.At M es e ↔ ∃ x ∈ exits, M.pred x.indicator (es.take d) ∧ (x.snapshot.slot sort).At M es e) := by
  refine obeys_axiomOver quiet.takenSlot ?_ hrun
  intro s0 ps F t hq hps hrun
  obtain ⟨b, o, h1, rfl⟩ := takenSlot_ok hrun
  refine ⟨axioms_binder h1, fun ρ' hρ => ?_⟩
  cases binder_ok.1 h1
  simp [Snapshot.holds, map_take, position_set hps]

/-- The session has the same axioms. -/
def SameAxioms (s t : Session) : Prop := t.axioms = s.axioms

instance : StepOrder SameAxioms := ⟨fun _ => rfl, fun h h' => h'.trans h⟩

theorem axioms_formula (h : formula L params f scope s = .ok (F, t)) : t.axioms = s.axioms := by
  have hplain : Plain L (Keeps SameAxioms) := {
    toSequential := sequential_keeps
    binder := fun sort s p t h => axioms_binder h
    member := fun v ps o s F t h => axioms_member h
    objSet := fun scope e s p t h => congrArg Session.axioms ((still_objSet scope e).of_ok h).symm }
  have hunknown : Keeps SameAxioms (unknown params) :=
    Keeps.bind (Keeps.modifyGet fun _ => rfl) fun _ => Keeps.bind (Keeps.bind Keeps.get fun _ => Keeps.pure _) fun _ =>
      Keeps.pure _
  exact (plain_formula hplain params f scope (.inr hunknown)).of_ok h

/-- Where the condition is encoded by `F`, the first indicator says that it holds and the second one that it does not. -/
theorem obeys_decided (hrun : axiomOver (decided L condition taken skipped) s = .ok ((), t)) :
    ∃ F u, formula L (paramVars s).2 condition s.scope (afterParams s) = .ok (F, u) ∧ (M.Obeys ρ t ↔ M.Obeys ρ s ∧
      ∀ es, s.Runs M es → (M.pred taken es ↔ F.Holds M (ρ.setFrom s.vars.count es)) ∧
        (M.pred skipped es ↔ ¬ F.Holds M (ρ.setFrom s.vars.count es))) := by
  obtain ⟨body, u, h1, h2⟩ := axiomOver_ok (quiet_decided L condition taken skipped) hrun
  obtain ⟨F, hF, rfl⟩ := decided_ok h1
  refine ⟨F, u, hF, ?_⟩
  have haxioms : u.axioms = (afterParams s).axioms := axioms_formula hF
  rw [obeys_emit h2, holds_axiomAt, obeys_congr (show u.axioms = s.axioms from haxioms)]
  refine and_congr_right fun _ => forall₂_congr fun es hes => ?_
  simp [eval_paramVars hes.sorts]

/-- Exactly one of the indicators holds. -/
theorem obeys_oneTaken (hrun : axiomOver (oneTaken indicators) s = .ok ((), t)) :
    M.Obeys ρ t ↔ M.Obeys ρ s ∧ ∀ es, s.Runs M es →
      (∃ p ∈ indicators, M.pred p es) ∧ indicators.Pairwise fun p q => ¬ (M.pred p es ∧ M.pred q es) := by
  refine obeys_axiomOver quiet.oneTaken ?_ hrun
  intro s0 ps F t hq hps hrun
  cases pure_ok.1 hrun
  refine ⟨rfl, fun ρ' hρ => ?_⟩
  simp [holds_exactlyOne, pairwise_map]

end Encode

end StoreCheck
