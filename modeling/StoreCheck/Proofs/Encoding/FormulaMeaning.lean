import StoreCheck.Proofs.Encoding.ScopeFlow
import StoreCheck.Proofs.Encoding.View

/-!
# Encoded formulas mean what the formulas say

The encoding of a formula is true in a structure exactly when the formula is true of the state that the structure shows. An
`unknown` becomes a predicate of its own: the ways to replace the `unknown`s by truth values and the truth values of the new
predicates match, so that the encoding says the same (`View.says_formula`).
-/

namespace StoreCheck

open VarGen Formula Structure FormulaExpr StoreCheck.Valuation ObjValue ObjExpr Session Layout

variable {fs : List FormulaExpr} {F : Formula} {s t : Session} {d : PredId → Prop} {type : ObjType} {k : Nat} {g f : FormulaExpr}
  {q : Encode.Quantified} {qs : List QuantVar}

namespace FormulaExpr

theorem resolveAll_self (hfs : ∀ f ∈ fs, isDefinite f = true → Resolves f f) (h : allDefinite fs = true) : ResolveAll fs fs := by
  induction fs with
  | nil => rfl
  | cons f rest ih =>
    obtain ⟨hf, hrest⟩ := List.forall_mem_cons.1 hfs
    rw [allDefinite, Bool.and_eq_true] at h
    exact ⟨f, rest, rfl, hf h.1, ih hrest h.2⟩

/-- A formula without `unknown` stands for itself. -/
theorem resolves_self {f : FormulaExpr} (h : f.isDefinite = true) : f.Resolves f := by
  induction f with
  | literal value =>
    cases value with
    | true | false => simp [Resolves]
    | unknown => cases h
  | not f ih => exact ⟨f, rfl, ih h⟩
  | and parts ih | or parts ih | equiv parts ih => exact ⟨parts, rfl, resolveAll_self ih h⟩
  | implies p c ihp ihc =>
    rw [isDefinite, Bool.and_eq_true] at h
    exact ⟨p, c, rfl, ihp h.1, ihc h.2⟩
  | equal | isIn | isEmpty => rfl
  | forAll qs body ih | forSome qs body ih => exact ⟨body, rfl, ih h⟩

theorem exists_resolveAll (hfs : ∀ f ∈ fs, ∃ g, Resolves f g) : ∃ gs, ResolveAll fs gs := by
  induction fs with
  | nil => exact ⟨[], rfl⟩
  | cons f rest ih =>
    obtain ⟨⟨g, hg⟩, hrest⟩ := List.forall_mem_cons.1 hfs
    obtain ⟨gs, hgs⟩ := ih hrest
    exact ⟨g :: gs, g, gs, rfl, hg, hgs⟩

/-- The `unknown`s of every formula can be replaced. -/
theorem exists_resolves (f : FormulaExpr) : ∃ g, f.Resolves g := by
  induction f with
  | literal value =>
    cases value with
    | true | unknown => exact ⟨.literal .true, by simp [Resolves]⟩
    | false => exact ⟨.literal .false, by simp [Resolves]⟩
  | not f ih =>
    obtain ⟨g, hg⟩ := ih
    exact ⟨.not g, g, rfl, hg⟩
  | and parts ih | or parts ih | equiv parts ih =>
    obtain ⟨gs, hgs⟩ := exists_resolveAll ih
    exact ⟨_, gs, rfl, hgs⟩
  | implies p c ihp ihc =>
    obtain ⟨p', hp⟩ := ihp
    obtain ⟨c', hc⟩ := ihc
    exact ⟨.implies p' c', p', c', rfl, hp, hc⟩
  | equal sets => exact ⟨.equal sets, rfl⟩
  | isIn set within => exact ⟨.isIn set within, rfl⟩
  | isEmpty set => exact ⟨.isEmpty set, rfl⟩
  | forAll qs body ih | forSome qs body ih =>
    obtain ⟨g, hg⟩ := ih
    exact ⟨_, g, rfl, hg⟩

end FormulaExpr

namespace Encode

/-- The membership formula of a value is true of the elements that the value holds of. -/
theorem holds_member (h : member L v params object s = .ok (F, t)) (hv : v.Settled s.vars.count)
    (hps : Term.AllSettled s.vars.count params) (ho : object.Settled s.vars.count) {M : Structure} (ρ : M.Env) :
    F.Holds M ρ ↔ v.Holds L M s.contexts ρ (params.map (Term.eval M ρ)) (object.eval M ρ) := by
  unfold member at h
  obtain ⟨F', g, hg, h⟩ := freshly_ok.1 h
  cases h
  exact means_member L s.contexts v params object s.vars hv hps ho _ _ hg ρ

end Encode

namespace View

open Encode

variable {L : Layout}

/-- The view shows the state at the position that the session is at, and the variables in scope. -/
structure Ready (V : View) (L : Layout) (s : Session) (params : List Term) (scope : Scope) (ρ : V.M.Env)
    (vars : Vars V.U) : Prop where
  cs : V.cs = s.contexts
  shows : V.Shows L s.snapshot
  scope : V.ScopeStands L ρ s.vars.count scope vars
  position : params.map (Term.eval V.M ρ) = V.as
  settled : Term.AllSettled s.vars.count params

variable {V : View} {s t : Session} {params : List Term} {scope : Scope} {ρ : V.M.Env} {vars : Vars V.U}

theorem ScopeStands.mono (h : V.ScopeStands L ρ m scope vars) (hle : m ≤ n) : V.ScopeStands L ρ n scope vars :=
  ⟨h.stands, fun x b hb => (h.settled x b hb).mono hle⟩

theorem Ready.later (h : V.Ready L s params scope ρ vars) (hq : s.Quiet t) : V.Ready L t params scope ρ vars where
  cs := h.cs.trans hq.table.symm
  shows := by rw [hq.snapshot]; exact h.shows
  scope := h.scope.mono hq.vars
  position := h.position
  settled := h.settled.mono hq.vars

/-- The predicates made between two sessions have the chosen truth values at the position. -/
def Chosen (V : View) (s t : Session) (c : PredId → Prop) : Prop :=
  ∀ p : PredId, s.symbols.predicates.length ≤ p.index → p.index < t.symbols.predicates.length →
    (V.M.pred p (V.as.take (s.contexts.level s.context)) ↔ c p)

/-- The first choice up to a predicate, then the second one. -/
def splitChoice (k : Nat) (c d : PredId → Prop) : PredId → Prop := fun p => if p.index < k then c p else d p

variable {u : Session} {c : PredId → Prop} {symbols : Symbols} {e : ObjExpr} {v : ObjValue} {X : Set V.U.Obj} {sort : SortId}
variable {G F : Formula}

theorem Chosen.left (h : V.Chosen s u (splitChoice t.symbols.predicates.length c d)) (htu : t.Quiet u) : V.Chosen s t c := by
  intro p hp hpt
  have hle : t.symbols.predicates.length ≤ u.symbols.predicates.length := htu.symbols.predicates.length_le
  have hc := h p hp (by omega)
  rwa [splitChoice, if_pos hpt] at hc

theorem Chosen.right (h : V.Chosen s u (splitChoice t.symbols.predicates.length c d)) (hst : s.Quiet t) : V.Chosen t u d := by
  intro p hp hpu
  have hle : s.symbols.predicates.length ≤ t.symbols.predicates.length := hst.symbols.predicates.length_le
  have hc := h p (by omega) hpu
  rw [splitChoice, if_neg (by omega)] at hc
  rw [hst.table, hst.context]
  exact hc

/-! ## Comparing sets -/

theorem means_objSet (hlaid : L.Laid symbols) (hr : V.Ready L s params scope ρ vars)
    (hrun : objSet L true scope e s = .ok ((v, type), t)) :
    infer L.store scope.types e = .ok type ∧ t = s ∧ ∃ X a, L.sortOf type = .ok a ∧
      V.Means L ρ s.vars.count scope vars e v X a := by
  obtain ⟨htype, hvalue, -⟩ := objSet_ok hrun
  obtain ⟨heq, X, a, ha, hX⟩ := means_objValue hlaid hr.shows hr.scope e htype hvalue
  exact ⟨htype, heq, X, a, ha, hX⟩

/-- The membership formula of a fresh variable, where the variable is given an element of the sort. -/
theorem Ready.holds_fresh_member (hr : V.Ready L s params scope ρ vars) (hq : s.Quiet t) (hX : V.Stands L ρ v X (some sort))
    (hv : v.Settled s.vars.count) (hkt : k ≤ t.vars.count) (hrun : member L v params (.var (nameOf k)) t = .ok (G, u))
    (hρ : Agree s.vars.count ρ ρ') (hsort : V.M.sort (ρ' (nameOf k)) = sort) :
    G.Holds V.M ρ' ↔ ∃ o ∈ X, V.emb sort o = ρ' (nameOf k) := by
  have hle : s.vars.count ≤ t.vars.count := hq.vars
  rw [holds_member hrun (hv.mono hle) (hr.settled.mono hle) (settled_nameOf hkt) ρ',
    Term.map_eval_agree hρ hr.settled, hr.position, hq.table, ← hr.cs, holds_agree hρ hv]
  exact hX.2 _ hsort

/-- The same for the next variable, which a binder has taken. -/
theorem Ready.holds_next_member (hr : V.Ready L s params scope ρ vars)
    (hq : Quiet { s with vars := ⟨s.vars.count + 1⟩ } t) (hX : V.Stands L ρ v X (some sort)) (hv : v.Settled s.vars.count)
    (hrun : member L v params (.var (nameOf (s.vars.count + 1))) t = .ok (G, u)) {e : V.M.Elem}
    (he : V.M.sort e = sort) :
    G.Holds V.M (ρ.set (nameOf (s.vars.count + 1)) e) ↔ ∃ o ∈ X, V.emb sort o = e := by
  have hset := set_same ρ (nameOf (s.vars.count + 1)) e
  have hagree := agree_set ρ e (Nat.lt_succ_self s.vars.count)
  have hfirst : s.Quiet { s with vars := ⟨s.vars.count + 1⟩ } := quiet_setVars s _ (Nat.le_succ _)
  have hG := hr.holds_fresh_member (hfirst.trans hq) hX hv hq.vars hrun hagree (by rw [hset]; exact he)
  rwa [hset] at hG

/-- The same at an assignment that has changed variables taken later. -/
theorem Ready.holds_later_member (hr : V.Ready L s params scope ρ vars)
    (hq : Quiet { s with vars := ⟨s.vars.count + 1⟩ } t) (hX : V.Stands L ρ v X (some sort)) (hv : v.Settled s.vars.count)
    (hrun : member L v params (.var (nameOf (s.vars.count + 1))) { s with vars := ⟨s.vars.count + 1⟩ } = .ok (G, t))
    {e : V.M.Elem} (he : V.M.sort e = sort) (hρ : Agree t.vars.count (ρ.set (nameOf (s.vars.count + 1)) e) ρ') :
    G.Holds V.M ρ' ↔ ∃ o ∈ X, V.emb sort o = e := by
  have hle : s.vars.count + 1 ≤ t.vars.count := hq.vars
  have hset : ρ' (nameOf (s.vars.count + 1)) = e :=
    (hρ _ (settled_nameOf hle)).trans (set_same ρ _ e)
  have hagree := (agree_set ρ e (Nat.lt_succ_self s.vars.count)).trans (hρ.anti (Nat.le_of_succ_le hle))
  have hfirst : s.Quiet { s with vars := ⟨s.vars.count + 1⟩ } := quiet_setVars s _ (Nat.le_succ _)
  have hG := hr.holds_fresh_member hfirst hX hv (Nat.le_refl _) hrun hagree (by rw [hset]; exact he)
  rwa [hset] at hG

/-- Sets over one sort are compared by the elements that stand for their objects. -/
theorem Shows.subset_iff (h : V.Shows L σ) (hX : ∀ o ∈ X, V.M.sort (V.emb sort o) = sort) :
    (∀ e, V.M.sort e = sort → (∃ o ∈ X, V.emb sort o = e) → ∃ o ∈ Y, V.emb sort o = e) ↔ X ⊆ Y := by
  constructor
  · intro hall o ho
    obtain ⟨o', ho', heq⟩ := hall _ (hX o ho) ⟨o, ho, rfl⟩
    rwa [← h.injective _ _ _ heq]
  · rintro hsub e - ⟨o, ho, heq⟩
    exact ⟨o, hsub ho, heq⟩

/-- Emptiness says that the set has no members. -/
theorem says_emptySet (hlaid : L.Laid symbols)
    (hr : V.Ready L s params scope ρ vars) (hrun : emptySet L scope params e s = .ok (F, t)) :
    F.Holds V.M ρ ↔ e.Denotes L.store scope.types V.st vars ∅ := by
  obtain ⟨⟨v, type⟩, s1, h1, hrun⟩ := bind_ok.1 hrun
  obtain ⟨-, heq, X, a, ha, hX⟩ := means_objSet hlaid hr h1
  rw [heq] at hrun
  obtain ⟨a', ha', hrun⟩ := liftBind_ok.1 hrun
  cases ha.symm.trans ha'
  rw [hX.denotes]
  cases a with
  | none =>
    cases pure_ok.1 hrun
    simp [Formula.Holds, hX.stands.1]
  | some sort =>
    obtain ⟨⟨b, o⟩, s3, h3, hrun⟩ := bind_ok.1 hrun
    cases binder_ok.1 h3
    obtain ⟨G, s4, h4, hrun⟩ := bind_ok.1 hrun
    cases pure_ok.1 hrun
    simp only [holds_mkNot, holds_mkForSome, Structure.ForSome]
    have hG : ∀ e, V.M.sort e = sort →
        (G.Holds V.M (ρ.set (nameOf (s.vars.count + 1)) e) ↔ ∃ o ∈ X, V.emb sort o = e) := by
      intro e he
      exact hr.holds_next_member (.refl _) hX.stands hX.settled h4 he
    constructor
    · intro hnone
      refine (Set.eq_empty_iff_forall_notMem.2 fun o ho => hnone ⟨V.emb sort o, hX.stands.1 o ho, ?_⟩).symm
      exact (hG _ (hX.stands.1 o ho)).2 ⟨o, ho, rfl⟩
    · rintro rfl ⟨e, he, hin⟩
      obtain ⟨o, ho, -⟩ := (hG e he).1 hin
      exact ho

/-- Inclusion says that all members of the one set are in the other. -/
theorem says_includedSet (hlaid : L.Laid symbols) (hr : V.Ready L s params scope ρ vars)
    (hrun : includedSet L scope params e e' s = .ok (F, t)) :
    F.Holds V.M ρ ↔ ∃ X Y, e.Denotes L.store scope.types V.st vars X ∧ e'.Denotes L.store scope.types V.st vars Y ∧ X ⊆ Y := by
  obtain ⟨⟨v, type⟩, s1, h1, hrun⟩ := bind_ok.1 hrun
  obtain ⟨-, heq, X, a, ha, hX⟩ := means_objSet hlaid hr h1
  rw [heq] at hrun
  obtain ⟨⟨v', type'⟩, s1', h1', hrun⟩ := bind_ok.1 hrun
  obtain ⟨-, heq', Y, a', ha', hY⟩ := means_objSet hlaid hr h1'
  rw [heq'] at hrun
  have hsets : (∃ X Y, e.Denotes L.store scope.types V.st vars X ∧ e'.Denotes L.store scope.types V.st vars Y ∧ X ⊆ Y) ↔
      X ⊆ Y := by
    simp [hX.denotes, hY.denotes]
  rw [hsets]
  dsimp only at hrun
  split at hrun
  · rename_i hbot
    cases pure_ok.1 hrun
    cases ha.symm.trans (sortOf_none_iff.2 hbot)
    simp [Formula.Holds, hX.stands.1]
  · obtain ⟨joined, hjoined, hrun⟩ := typedBind_ok.1 hrun
    obtain ⟨c, hc, hac, hbc⟩ := sortOf_joinStrict hlaid.store.graph (ObjType.join_ok hjoined) ha ha'
    obtain ⟨c', hc', hrun⟩ := liftBind_ok.1 hrun
    cases hc.symm.trans hc'
    have hXc := hX.stands.mono hac
    have hYc := hY.stands.mono hbc
    cases c with
    | none =>
      cases pure_ok.1 hrun
      simp [Formula.Holds, hXc.1]
    | some sort =>
      obtain ⟨⟨b, o⟩, s4, h4, hrun⟩ := bind_ok.1 hrun
      cases binder_ok.1 h4
      obtain ⟨G, s5, h5, hrun⟩ := bind_ok.1 hrun
      obtain ⟨H, s6, h6, hrun⟩ := bind_ok.1 hrun
      cases pure_ok.1 hrun
      have hq5 := quiet_member L v params _ _ _ _ h5
      simp only [holds_mkForAll, holds_mkImplies, Structure.ForAll]
      rw [← hr.shows.subset_iff hXc.1]
      refine forall₂_congr fun e he => ?_
      rw [hr.holds_next_member (.refl _) hXc hX.settled h5 he, hr.holds_next_member hq5 hYc hY.settled h6 he]

/-- The values of sets that are compared stand for the sets, in the sort of the type that covers them all. -/
theorem means_comparable (hlaid : L.Laid symbols) (hr : V.Ready L s params scope ρ vars) :
    ∀ (es : List ObjExpr) {j j' : Option ObjType} {vs : List ObjValue} {t : Session},
      (∀ u, j = some u → ∃ a, L.sortOf u = .ok a) → comparable L scope es j s = .ok ((vs, j'), t) →
      t = s ∧ AllSettled s.vars.count vs ∧ (j' = none → es = []) ∧
        ∃ Xs, (∀ Ys, DenoteAll L.store scope.types V.st vars es Ys ↔ Ys = Xs) ∧ vs.length = Xs.length ∧
          ∀ u, j' = some u → ∃ b, L.sortOf u = .ok b ∧ List.Forall₂ (fun v X => V.Stands L ρ v X b) vs Xs ∧
            ∀ w a, j = some w → L.sortOf w = .ok a → Covers a b
  | [], _, _, _, _, hj, hrun => by
    cases pure_ok.1 hrun
    refine ⟨rfl, by simp [AllSettled], fun _ => rfl, [], fun Ys => by rw [DenoteAll], rfl, fun u hu => ?_⟩
    obtain ⟨a, ha⟩ := hj u hu
    refine ⟨a, ha, .nil, fun w a' hw ha' => ?_⟩
    cases hu.symm.trans hw
    cases ha.symm.trans ha'
    exact .refl a
  | e :: rest, joined, _, _, _, hj, hrun => by
    obtain ⟨v, type, s1, next, vs', h1, hnext, h3, rfl⟩ := comparable_cons_ok hrun
    obtain ⟨-, heq, X, a, ha, hX⟩ := means_objSet hlaid hr h1
    rw [heq] at h3
    -- the type so far covers this set and the ones before
    have hcovers : ∃ b, L.sortOf next = .ok b ∧ Covers a b ∧ ∀ w c, joined = some w → L.sortOf w = .ok c → Covers c b := by
      rcases hnext with ⟨rfl, rfl⟩ | ⟨before, rfl, hjoin⟩
      · exact ⟨a, ha, .refl a, fun w c hw => by cases hw⟩
      · obtain ⟨c, hc⟩ := hj before rfl
        obtain ⟨b, hb, hcb, hab⟩ := Layout.sortOf_joinStrict hlaid.store.graph (ObjType.join_ok hjoin) hc ha
        refine ⟨b, hb, hab, fun w c' hw hc' => ?_⟩
        cases hw
        cases hc.symm.trans hc'
        exact hcb
    obtain ⟨b, hb, hab, hcover⟩ := hcovers
    obtain ⟨heq3, hset, hnone, Xs, hden, hlength, hall⟩ := means_comparable hlaid hr rest
      (j := some next) (fun u hu => by cases hu; exact ⟨b, hb⟩) h3
    refine ⟨heq3, ⟨hX.settled, hset⟩, fun h => ?_, X :: Xs, fun Ys => ?_, by rw [List.length_cons, List.length_cons, hlength],
      fun u hu => ?_⟩
    · -- a type that was there does not go away
      subst h
      cases hnone rfl
      cases pure_ok.1 h3
    · simp [ObjExpr.DenoteAll, hX.denotes, hden]
    · obtain ⟨d, hd, hstands, hcov⟩ := hall u hu
      have hbd := hcov next b rfl hb
      exact ⟨d, hd, .cons (hX.stands.mono (hab.trans hbd)) hstands, fun w c hw hc => (hcover w c hw hc).trans hbd⟩

theorem forall₂_iff_of_member (hr : V.Ready L s params scope ρ vars) (hq : Quiet { s with vars := ⟨s.vars.count + 1⟩ } t)
    {e : V.M.Elem} {P : Prop} {vs : List ObjValue} {Xs : List (Set V.U.Obj)} {fs : List Formula}
    (hstands : List.Forall₂ (fun v X => V.Stands L ρ v X (some sort)) vs Xs) (hset : ∀ v ∈ vs, v.Settled s.vars.count)
    (hparts : List.Forall₂ (fun v f => ∃ s1 s2 G, t.Quiet s1 ∧
      member L v params (.var (nameOf (s.vars.count + 1))) s1 = .ok (G, s2) ∧ f = mkIff head G) vs fs)
    (he : V.M.sort e = sort) (hhead : head.Holds V.M (ρ.set (nameOf (s.vars.count + 1)) e) ↔ P) :
    List.Forall₂ (fun f Y => f.Holds V.M (ρ.set (nameOf (s.vars.count + 1)) e) ↔ (P ↔ ∃ o ∈ Y, V.emb sort o = e)) fs Xs := by
  induction hstands generalizing fs with
  | nil =>
    cases hparts
    exact .nil
  | cons hv _ ih =>
    cases hparts with
    | cons hf hrest =>
      obtain ⟨s1, s2, G, hq1, hrun, rfl⟩ := hf
      refine .cons ?_ (ih (fun v hv => hset v (List.mem_cons_of_mem _ hv)) hrest)
      rw [holds_mkIff, hhead, hr.holds_next_member (hq.trans hq1) hv (hset _ List.mem_cons_self) hrun he]

/-- The equality of sets says that they have the same members. -/
theorem says_equalSets (hlaid : L.Laid symbols)
    (hr : V.Ready L s params scope ρ vars) {es : List ObjExpr} (hrun : equalSets L scope params es s = .ok (F, t)) :
    F.Holds V.M ρ ↔ ∃ Xs, DenoteAll L.store scope.types V.st vars es Xs ∧ ∀ X ∈ Xs, ∀ Y ∈ Xs, X = Y := by
  obtain ⟨⟨vs, joined⟩, s1, h1, hrun⟩ := bind_ok.1 hrun
  obtain ⟨heq, hset, hnone, Xs, hden, hlength, hall⟩ := means_comparable hlaid hr es (j := none)
    (fun u hu => by cases hu) h1
  rw [heq] at hrun
  have hsets : (∃ Xs, DenoteAll L.store scope.types V.st vars es Xs ∧ ∀ X ∈ Xs, ∀ Y ∈ Xs, X = Y) ↔
      ∀ X ∈ Xs, ∀ Y ∈ Xs, X = Y := by
    simp only [hden, exists_eq_left]
  rw [hsets]
  cases joined with
  | none =>
    cases pure_ok.1 hrun
    have hes := hnone rfl
    subst hes
    have : Xs = [] := ((hden []).1 (by rw [DenoteAll])).symm
    subst this
    simp [Formula.Holds]
  | some type =>
    obtain ⟨a, ha, hstands, -⟩ := hall type rfl
    cases hstands with
    | nil =>
      cases pure_ok.1 hrun
      simp [Formula.Holds]
    | @cons first X rest Xs' hfirst hrest =>
      obtain ⟨a', ha', hrun⟩ := liftBind_ok.1 hrun
      cases ha.symm.trans ha'
      cases a with
      | none =>
        cases pure_ok.1 hrun
        have hempty : ∀ Y ∈ X :: Xs', Y = ∅ := by
          refine List.forall_mem_cons.2 ⟨hfirst.1, fun Y hY => ?_⟩
          obtain ⟨v, -, hv⟩ := exists_left_of_forall₂ hrest hY
          exact hv.1
        simp only [Formula.Holds, true_iff]
        intro Y hY Z hZ
        rw [hempty Y hY, hempty Z hZ]
      | some sort =>
        obtain ⟨⟨b, o⟩, s3, h3, hrun⟩ := bind_ok.1 hrun
        cases binder_ok.1 h3
        obtain ⟨head, s4, h4, hrun⟩ := bind_ok.1 hrun
        obtain ⟨parts, s5, h5, hrun⟩ := bind_ok.1 hrun
        cases pure_ok.1 hrun
        have hq4 := quiet_member L first params _ _ _ _ h4
        obtain ⟨-, hparts⟩ := mapM_mkIff_member rest h5
        obtain ⟨hsetfirst, hsetrest⟩ := hset
        have hhead : ∀ e, V.M.sort e = sort →
            (head.Holds V.M (ρ.set (nameOf (s.vars.count + 1)) e) ↔ ∃ o ∈ X, V.emb sort o = e) :=
          fun e he => hr.holds_next_member (.refl _) hfirst hsetfirst h4 he
        -- each part says that another set has the elements of the first one
        have hpart : ∀ e, V.M.sort e = sort →
            ((∀ f ∈ parts, f.Holds V.M (ρ.set (VarGen.nameOf (s.vars.count + 1)) e)) ↔
              ∀ Y ∈ Xs', ((∃ o ∈ X, V.emb sort o = e) ↔ ∃ o ∈ Y, V.emb sort o = e)) := by
          intro e he
          have heach := forall₂_iff_of_member hr hq4 hrest ((ObjValue.allSettled_iff _ _).1 hsetrest) hparts he (hhead e he)
          constructor
          · intro h Y hY
            obtain ⟨f, hf, hiff⟩ := exists_left_of_forall₂ heach hY
            exact hiff.1 (h f hf)
          · intro h f hf
            obtain ⟨Y, hY, hiff⟩ := exists_right_of_forall₂ heach hf
            exact hiff.2 (h Y hY)
        simp only [Formula.holds_mkForAll, Structure.ForAll, Formula.holds_mkAnd]
        constructor
        · intro h
          have hfirst : ∀ Y ∈ X :: Xs', Y = X := by
            refine List.forall_mem_cons.2 ⟨rfl, fun Y hY => ?_⟩
            obtain ⟨v, -, hv⟩ := exists_left_of_forall₂ hrest hY
            refine subset_antisymm ((hr.shows.subset_iff hv.1).1 ?_) ((hr.shows.subset_iff hfirst.1).1 ?_)
            · exact fun e he => ((hpart e he).1 (h e he) Y hY).2
            · exact fun e he => ((hpart e he).1 (h e he) Y hY).1
          intro Y hY Z hZ
          rw [hfirst Y hY, hfirst Z hZ]
        · intro h e he
          refine (hpart e he).2 fun Y hY => ?_
          rw [h X (by simp) Y (by simp [hY])]

/-! ## Quantifiers -/

theorem freshAfter_quantified : ∀ (qs : List QuantVar) {scope : Scope} {s t : Session} {q : Quantified},
    quantified L params qs scope s = .ok (some q, t) → Structure.FreshAfter s.vars.count q.binders
  | [], _, _, _, _, h => by
    cases pure_ok.1 h
    intro b hb
    cases hb
  | v :: rest, scope, s, _, _, h => by
    obtain ⟨value, type, s1, a, h1, -, hnone, hsome⟩ := quantified_cons_ok h
    have hle1 : s.vars.count ≤ s1.vars.count := (quiet_objSet L true scope v.domain _ _ _ h1).vars
    cases a with
    | none => cases (hnone rfl).1
    | some sort =>
      obtain ⟨inDomain, s2, r', hmember, hrest, heq⟩ := hsome sort rfl
      have hle2 : s1.vars.count + 1 ≤ s2.vars.count := (quiet_member L value params _ _ _ _ hmember).vars
      cases r' with
      | none => cases heq
      | some q' =>
        cases heq
        intro b hb
        rcases List.mem_cons.1 hb with rfl | hb
        · exact ⟨s1.vars.count + 1, by omega, rfl⟩
        · exact (freshAfter_quantified rest hrest).anti (by omega) b hb

/-- Binding a variable to one object, which a fresh variable of the formula stands for. -/
theorem Ready.bindObject (hr : V.Ready L s params scope ρ vars) (hq : Quiet { s with vars := ⟨s.vars.count + 1⟩ } t)
    (hsort : L.sortOf type = .ok (some sort)) (ho : V.M.sort (V.emb sort o) = sort) (name : String) :
    V.Ready L t params (scope.insert name ⟨.bound (.var (nameOf (s.vars.count + 1))), type.single, false⟩)
      (ρ.set (nameOf (s.vars.count + 1)) (V.emb sort o)) (vars.set name {o}) := by
  have hagree := agree_set ρ (V.emb sort o) (Nat.lt_succ_self s.vars.count)
  have hle : s.vars.count + 1 ≤ t.vars.count := hq.vars
  refine ⟨hr.cs.trans hq.table.symm, by rw [hq.snapshot]; exact hr.shows, ⟨fun x b hb => ?_, fun x b hb => ?_⟩, ?_, ?_⟩
  · rw [VarMap.find?_insert] at hb
    split at hb
    · rename_i hx
      cases hb
      subst hx
      refine ⟨some sort, (sortOf_single type).trans hsort, ?_, ?_⟩
      · intro o' ho'
        rw [Vars.set_same, Set.mem_singleton_iff] at ho'
        rw [ho', ho]
      · intro e _
        rw [Vars.set_same, ObjValue.Holds, Term.eval, set_same]
        simp only [Set.mem_singleton_iff, exists_eq_left]
        exact eq_comm
    · rename_i hx
      obtain ⟨a, ha, hstands⟩ := hr.scope.stands x b hb
      refine ⟨a, ha, ?_⟩
      have hiff : ∀ e, b.value.Holds L V.M V.cs _ V.as e ↔ b.value.Holds L V.M V.cs ρ V.as e :=
        holds_agree hagree (hr.scope.settled x b hb) V.as
      rw [Vars.set_other vars {o} hx]
      cases a with
      | none => exact ⟨hstands.1, fun e => by rw [hiff]; exact hstands.2 e⟩
      | some s => exact ⟨hstands.1, fun e he => by rw [hiff]; exact hstands.2 e he⟩
  · rw [VarMap.find?_insert] at hb
    split at hb
    · cases hb
      exact settled_nameOf hle
    · exact (hr.scope.settled x b hb).mono (by omega)
  · rw [Term.map_eval_agree hagree hr.settled, hr.position]
  · exact hr.settled.mono (by omega)

/-- What the quantified variables of a formula say: the binders with the domain formulas range over the objects of the
domains. -/
theorem says_quantified (hlaid : L.Laid symbols) :
    ∀ (qs : List QuantVar) {scope : Scope} {s t : Session} {r : Option Quantified},
      quantified L params qs scope s = .ok (r, t) → ∀ {ρ : V.M.Env} {vars : Vars V.U}, V.Ready L s params scope ρ vars →
      (r = none → ∀ P : TypeEnv → Vars V.U → Prop, QuantVar.ForAll L.store V.st P qs scope.types vars ∧
        ¬ QuantVar.ForSome L.store V.st P qs scope.types vars) ∧
      ∀ q, r = some q → ∀ (R : V.M.Env → Prop) (P : TypeEnv → Vars V.U → Prop),
        (∀ ρ' vars', V.Ready L t params q.scope ρ' vars' → (R ρ' ↔ P q.scope.types vars')) →
        (V.M.ForAll q.binders (fun ρ' => (∀ m ∈ q.members, m.Holds V.M ρ') → R ρ') ρ ↔
          QuantVar.ForAll L.store V.st P qs scope.types vars) ∧
        (V.M.ForSome q.binders (fun ρ' => (∀ m ∈ q.members, m.Holds V.M ρ') ∧ R ρ') ρ ↔
          QuantVar.ForSome L.store V.st P qs scope.types vars)
  | [], _, _, _, _, h, ρ, vars, hr => by
    cases pure_ok.1 h
    refine ⟨(fun hnone => by cases hnone), fun q hq R P hRP => ?_⟩
    cases hq
    simp [Structure.ForAll, Structure.ForSome, QuantVar.ForAll, QuantVar.ForSome, hRP ρ vars hr]
  | v :: rest, scope, _, _, _, h, ρ, vars, hr => by
    obtain ⟨value, type, s1, a, h1, ha, hnone, hsome⟩ := quantified_cons_ok h
    obtain ⟨htype, heq, X, a', ha', hX⟩ := means_objSet hlaid hr h1
    subst heq
    cases ha.symm.trans ha'
    have hforAll : ∀ P, QuantVar.ForAll L.store V.st P (v :: rest) scope.types vars ↔
        ∀ o ∈ X, QuantVar.ForAll L.store V.st P rest (scope.types.insert v.name type.single) (vars.set v.name {o}) := by
      simp [QuantVar.ForAll, htype, hX.denotes]
    have hforSome : ∀ P, QuantVar.ForSome L.store V.st P (v :: rest) scope.types vars ↔
        ∃ o ∈ X, QuantVar.ForSome L.store V.st P rest (scope.types.insert v.name type.single) (vars.set v.name {o}) := by
      simp [QuantVar.ForSome, htype, hX.denotes]
    simp only [hforAll, hforSome]
    cases a with
    | none =>
      refine ⟨fun _ P => ?_, fun q hq => ?_⟩
      · rw [hX.stands.1]
        simp
      · rw [(hnone rfl).1] at hq
        cases hq
    | some sort =>
      obtain ⟨inDomain, s2, r', hmember, hrest, hr'⟩ := hsome sort rfl
      have hq2 := quiet_member L value params _ _ _ _ hmember
      have hready : ∀ o ∈ X, V.Ready L s2 params
          (scope.insert v.name ⟨.bound (.var (nameOf (s1.vars.count + 1))), type.single, false⟩)
          (ρ.set (nameOf (s1.vars.count + 1)) (V.emb sort o)) (vars.set v.name {o}) :=
        fun o ho => hr.bindObject hq2 ha (hX.stands.1 o ho) v.name
      have ih := fun o (ho : o ∈ X) => says_quantified hlaid rest hrest (hready o ho)
      rw [Scope.types_insert] at ih
      cases r' with
      | none =>
        refine ⟨fun _ P => ⟨fun o ho => ((ih o ho).1 rfl P).1, ?_⟩, fun q hq => ?_⟩
        · rintro ⟨o, ho, hex⟩
          exact ((ih o ho).1 rfl P).2 hex
        · rw [hr'] at hq
          cases hq
      | some q' =>
        refine ⟨fun hnone' => ?_, fun q hq R P hRP => ?_⟩
        · rw [hr'] at hnone'
          cases hnone'
        rw [hr'] at hq
        cases hq
        have hfresh := freshAfter_quantified rest hrest
        have hdomain : ∀ e, V.M.sort e = sort → ∀ ρ',
            Agree s2.vars.count (ρ.set (nameOf (s1.vars.count + 1)) e) ρ' →
            (inDomain.Holds V.M ρ' ↔ ∃ o ∈ X, V.emb sort o = e) :=
          fun e he ρ' hρ' => hr.holds_later_member hq2 hX.stands hX.settled hmember he hρ'
        have hrest : ∀ o ∈ X, _ := fun o ho => (ih o ho).2 q' rfl R P hRP
        constructor
        · constructor
          · intro h o ho
            have he := hX.stands.1 o ho
            refine (hrest o ho).1.1 ?_
            refine (forAll_congr_agree hfresh fun ρ' hρ' => ?_).1 (h _ he)
            simp [(hdomain _ he ρ' hρ').2 ⟨o, ho, rfl⟩]
          · intro h e he
            refine (forAll_congr_agree hfresh fun ρ' hρ' => ?_).2
              ((forAll_imp_const q'.binders (∃ o ∈ X, V.emb sort o = e)
                (fun ρ' => (∀ m ∈ q'.members, m.Holds V.M ρ') → R ρ') _).2 ?_)
            · rw [← hdomain e he ρ' hρ']
              simp
            · rintro ⟨o, ho, rfl⟩
              exact (hrest o ho).1.2 (h o ho)
        · constructor
          · rintro ⟨e, he, h⟩
            have h' := (forSome_congr_agree hfresh (Q := fun ρ' => (∃ o ∈ X, V.emb sort o = e) ∧
              ((∀ m ∈ q'.members, m.Holds V.M ρ') ∧ R ρ')) fun ρ' hρ' => by
                rw [← hdomain e he ρ' hρ']
                simp [and_assoc]).1 h
            obtain ⟨⟨o, ho, rfl⟩, h'⟩ := (forSome_and_const _ _ _ _).1 h'
            exact ⟨o, ho, (hrest o ho).2.1 h'⟩
          · rintro ⟨o, ho, h⟩
            have he := hX.stands.1 o ho
            refine ⟨V.emb sort o, he, ?_⟩
            refine (forSome_congr_agree hfresh fun ρ' hρ' => ?_).2 ((hrest o ho).2.2 h)
            simp [(hdomain _ he ρ' hρ').2 ⟨o, ho, rfl⟩]

/-! ## Formulas -/

theorem Chosen.later (h : V.Chosen s u c) (hq : s.Quiet t) : V.Chosen t u c := by
  intro p hp hpu
  have hle : s.symbols.predicates.length ≤ t.symbols.predicates.length := hq.symbols.predicates.length_le
  rw [hq.table, hq.context]
  exact h p (by omega) hpu

theorem unknown_ok (h : unknown params s = .ok (F, t)) :
    F = .atom ⟨s.symbols.predicates.length⟩ (params.take (s.contexts.level s.context)) ∧
      t.symbols.predicates.length = s.symbols.predicates.length + 1 := by
  obtain ⟨p, s1, h1, h⟩ := bind_ok.1 h
  cases freshPred_ok.1 h1
  obtain ⟨d, s2, h2, h⟩ := bind_ok.1 h
  cases depth_ok.1 h2
  cases pure_ok.1 h
  exact ⟨rfl, by simp [Symbols.addPredicate]⟩

section Lists

variable {store : Store} {types : TypeEnv} {Fs : List Formula} {fs : List FormulaExpr}
  (h : List.Forall₂ (fun F f => F.Holds V.M ρ ↔ f.Holds store V.st types vars) Fs fs)

include h

theorem holdAll_of_forall₂ : (∀ F ∈ Fs, F.Holds V.M ρ) ↔ FormulaExpr.HoldAll store V.st fs types vars := by
  induction h with
  | nil => simp [FormulaExpr.HoldAll]
  | cons hf _ ih => simp [FormulaExpr.HoldAll, hf, ih]

theorem holdSome_of_forall₂ : (∃ F ∈ Fs, F.Holds V.M ρ) ↔ FormulaExpr.HoldSome store V.st fs types vars := by
  induction h with
  | nil => simp [FormulaExpr.HoldSome]
  | cons hf _ ih => simp [FormulaExpr.HoldSome, hf, ih]

theorem holdNone_of_forall₂ : (∀ F ∈ Fs, ¬ F.Holds V.M ρ) ↔ FormulaExpr.HoldNone store V.st fs types vars := by
  induction h with
  | nil => simp [FormulaExpr.HoldNone]
  | cons hf _ ih => simp [FormulaExpr.HoldNone, hf, ih]

theorem holds_equivalent_of_forall₂ : (equivalent Fs).Holds V.M ρ ↔
    FormulaExpr.HoldAll store V.st fs types vars ∨ FormulaExpr.HoldNone store V.st fs types vars := by
  rw [← holdAll_of_forall₂ h, ← holdNone_of_forall₂ h]
  cases Fs with
  | nil => simp [equivalent, Formula.Holds]
  | cons F rest =>
    simp only [equivalent, holds_mkAnd, List.mem_map, forall_exists_index, and_imp, forall_apply_eq_imp_iff₂,
      holds_mkIff, List.forall_mem_cons]
    by_cases hF : F.Holds V.M ρ <;> simp [hF]

end Lists

/-- A formula and its encoding say the same in every view, once the new predicates are given the chosen truth values. -/
def Says (L : Layout) (s t : Session) (params : List Term) (scope : Scope) (c : PredId → Prop) (F : Formula)
    (f : FormulaExpr) : Prop :=
  ∀ (V : View) (ρ : V.M.Env) (vars : Vars V.U), V.Ready L s params scope ρ vars → V.Chosen s t c →
    (F.Holds V.M ρ ↔ f.Holds L.store V.st scope.types vars)

/-- The same for formulas and their encodings, one each. -/
def SaysAll (L : Layout) (s t : Session) (params : List Term) (scope : Scope) (c : PredId → Prop) (Fs : List Formula)
    (fs : List FormulaExpr) : Prop :=
  ∀ (V : View) (ρ : V.M.Env) (vars : Vars V.U), V.Ready L s params scope ρ vars → V.Chosen s t c →
    List.Forall₂ (fun F f => F.Holds V.M ρ ↔ f.Holds L.store V.st scope.types vars) Fs fs

/-- Ways to replace the `unknown`s and truth values of the new predicates match: to each of one kind there is one of the other kind
under which the encoding says the same. -/
structure Matches {α : Type} (R : α → Prop) (S : (PredId → Prop) → α → Prop) : Prop where
  choice : ∀ a, R a → ∃ c, S c a
  resolution : ∀ c, ∃ a, R a ∧ S c a

namespace Matches

variable {α β γ : Type} {R : α → Prop} {S : (PredId → Prop) → α → Prop}

/-- Where the encoding says the same in any case there is nothing to choose. -/
theorem of_all (hR : ∃ a, R a) (hS : ∀ c a, R a → S c a) : Matches R S where
  choice a ha := ⟨fun _ => True, hS _ a ha⟩
  resolution c := hR.imp fun a ha => ⟨ha, hS c a ha⟩

theorem of_unique {a : α} (hR : ∀ b, R b ↔ b = a) (hS : ∀ c, S c a) : Matches R S :=
  of_all ⟨a, (hR a).2 rfl⟩ fun c b hb => (hR b).1 hb ▸ hS c

theorem map {w : α → β} (h : Matches R S) (hR : ∀ b, R' b ↔ ∃ a, b = w a ∧ R a)
    (hS : ∀ c a, S c a → S' c (w a)) : Matches R' S' where
  choice b hb := by
    obtain ⟨a, rfl, ha⟩ := (hR b).1 hb
    obtain ⟨c, hc⟩ := h.choice a ha
    exact ⟨c, hS c a hc⟩
  resolution c := by
    obtain ⟨a, ha, hc⟩ := h.resolution c
    exact ⟨w a, (hR _).2 ⟨a, rfl, ha⟩, hS c a hc⟩

/-- The parts of a whole choose one after another. -/
theorem pair {S'' : (PredId → Prop) → γ → Prop} {w : α → β → γ} (h : Matches R S) (h' : Matches R' S')
    (hR : ∀ x, R'' x ↔ ∃ a b, x = w a b ∧ R a ∧ R' b) (hS : ∀ c d a b, S c a → S' d b → S'' (splitChoice k c d) (w a b)) :
    Matches R'' S'' where
  choice x hx := by
    obtain ⟨a, b, rfl, ha, hb⟩ := (hR x).1 hx
    obtain ⟨c, hc⟩ := h.choice a ha
    obtain ⟨d, hd⟩ := h'.choice b hb
    exact ⟨_, hS c d a b hc hd⟩
  resolution c := by
    obtain ⟨a, ha, hc⟩ := h.resolution c
    obtain ⟨b, hb, hd⟩ := h'.resolution c
    have hsame : splitChoice k c c = c := funext fun p => ite_self (c p)
    exact ⟨w a b, (hR _).2 ⟨a, b, rfl, ha, hb⟩, hsame ▸ hS c c a b hc hd⟩

end Matches

/-- A new predicate stands for an `unknown`. -/
theorem says_unknown (hrun : unknown params s = .ok (F, t)) :
    Matches (literal .unknown).Resolves fun c => Says L s t params scope c F := by
  obtain ⟨rfl, hcount⟩ := unknown_ok hrun
  have hmeans : ∀ c g, (c ⟨s.symbols.predicates.length⟩ ↔ g = .literal .true) → (literal .unknown).Resolves g →
      Says L s t params scope c (.atom ⟨s.symbols.predicates.length⟩ (params.take (s.contexts.level s.context))) g := by
    intro c g hc hg V ρ vars hr hch
    have hp := hch ⟨s.symbols.predicates.length⟩ (Nat.le_refl _) (by rw [hcount]; exact Nat.lt_succ_self _)
    rw [holds_atom, List.map_take, hr.position, hp, hc]
    rcases hg with rfl | rfl <;> simp [FormulaExpr.Holds]
  constructor
  · intro g hg
    exact ⟨fun _ => g = .literal .true, hmeans _ g Iff.rfl hg⟩
  · intro c
    by_cases hc : c ⟨s.symbols.predicates.length⟩
    · have hg : (literal .unknown).Resolves (.literal .true) := by simp [FormulaExpr.Resolves]
      exact ⟨.literal .true, hg, hmeans c _ (by simp [hc]) hg⟩
    · have hg : (literal .unknown).Resolves (.literal .false) := by simp [FormulaExpr.Resolves]
      exact ⟨.literal .false, hg, hmeans c _ (by simp [hc]) hg⟩

/-- A quantified formula and its encoding say the same if the bodies do. -/
theorem says_forAll (hlaid : L.Laid symbols) (hrun : quantified L params qs scope s = .ok (some q, t))
    (h : Says L t u params q.scope c G g) :
    Says L s u params scope c (.mkForAll q.binders (.mkImplies (.mkAnd q.members) G)) (.forAll qs g) := by
  intro V ρ vars hr hch
  have hq := plain_quantified (choosing_quiet L).plain params qs scope _ _ _ hrun
  rw [FormulaExpr.Holds, holds_mkForAll]
  have hbody := ((says_quantified hlaid qs hrun hr).2 q rfl (G.Holds V.M) _
    fun ρ' vars' hr' => h V ρ' vars' hr' (hch.later hq)).1
  exact (forAll_congr (fun ρ' => by rw [holds_mkImplies, holds_mkAnd]) ρ).trans hbody

theorem says_forSome (hlaid : L.Laid symbols)
    (hrun : quantified L params qs scope s = .ok (some q, t)) (h : Says L t u params q.scope c G g) :
    Says L s u params scope c (.mkForSome q.binders (.mkAnd [.mkAnd q.members, G])) (.forSome qs g) := by
  intro V ρ vars hr hch
  have hq := plain_quantified (choosing_quiet L).plain params qs scope _ _ _ hrun
  rw [FormulaExpr.Holds, holds_mkForSome]
  have hbody := ((says_quantified hlaid qs hrun hr).2 q rfl (G.Holds V.M) _
    fun ρ' vars' hr' => h V ρ' vars' hr' (hch.later hq)).2
  exact (forSome_congr (fun ρ' => by simp) ρ).trans hbody

theorem says_formulas (hfs : ∀ f ∈ fs, ∀ {scope : Scope} {s t : Session} {F : Formula}, formula L params f scope s = .ok (F, t) →
      Matches f.Resolves fun c => Says L s t params scope c F)
    (hrun : formulas L params fs scope s = .ok (Fs, t)) :
    Matches (FormulaExpr.ResolveAll fs) fun c => SaysAll L s t params scope c Fs := by
  induction fs generalizing s Fs with
  | nil =>
    cases pure_ok.1 hrun
    exact .of_unique (a := []) (fun _ => .rfl) fun c V ρ vars _ _ => .nil
  | cons f rest ih =>
    obtain ⟨hf, hfs⟩ := List.forall_mem_cons.1 hfs
    obtain ⟨G, s1, h1, hrun⟩ := bind_ok.1 hrun
    obtain ⟨Gs, s2, h2, hrun⟩ := bind_ok.1 hrun
    cases pure_ok.1 hrun
    have hq1 := quiet_formula L params f scope _ _ _ h1
    have hq2 := quiet_formulas L params rest scope _ _ _ h2
    exact (hf h1).pair (w := .cons) (k := s1.symbols.predicates.length) (ih hfs h2) (fun _ => .rfl)
      fun c d g gs hg hgs V ρ vars hr hch => .cons (hg V ρ vars hr (hch.left hq2)) (hgs V ρ vars (hr.later hq1) (hch.right hq1))

/-- The ways to replace the `unknown`s of a formula match the truth values of its new predicates. -/
theorem says_formula {symbols : Symbols} (hlaid : L.Laid symbols) (f : FormulaExpr) {scope : Scope} {s t : Session} {F : Formula}
    (hrun : formula L params f scope s = .ok (F, t)) : Matches f.Resolves fun c => Says L s t params scope c F := by
  induction f generalizing scope s t F with
  | literal value =>
    cases value with
    | true | false =>
      cases pure_ok.1 hrun
      exact .of_unique (fun _ => .rfl) fun c V ρ vars _ _ => by simp [Formula.Holds, FormulaExpr.Holds]
    | unknown => exact says_unknown hrun
  | not f ih =>
    obtain ⟨G, s1, h1, hrun⟩ := bind_ok.1 hrun
    cases pure_ok.1 hrun
    exact (ih h1).map (w := .not) (fun _ => .rfl)
      fun c g hg V ρ vars hr hch => by rw [holds_mkNot, hg V ρ vars hr hch, FormulaExpr.Holds]
  | and parts ih =>
    obtain ⟨Gs, s1, h1, hrun⟩ := bind_ok.1 hrun
    cases pure_ok.1 hrun
    exact (says_formulas ih h1).map (w := .and) (fun _ => .rfl)
      fun c gs hgs V ρ vars hr hch => by rw [holds_mkAnd, holdAll_of_forall₂ (hgs V ρ vars hr hch), FormulaExpr.Holds]
  | or parts ih =>
    obtain ⟨Gs, s1, h1, hrun⟩ := bind_ok.1 hrun
    cases pure_ok.1 hrun
    exact (says_formulas ih h1).map (w := .or) (fun _ => .rfl)
      fun c gs hgs V ρ vars hr hch => by rw [holds_mkOr, holdSome_of_forall₂ (hgs V ρ vars hr hch), FormulaExpr.Holds]
  | equiv parts ih =>
    obtain ⟨Gs, s1, h1, hrun⟩ := bind_ok.1 hrun
    cases pure_ok.1 hrun
    exact (says_formulas ih h1).map (w := .equiv) (fun _ => .rfl)
      fun c gs hgs V ρ vars hr hch => by rw [holds_equivalent_of_forall₂ (hgs V ρ vars hr hch), FormulaExpr.Holds]
  | implies premise conclusion ihp ihc =>
    obtain ⟨G, s1, h1, hrun⟩ := bind_ok.1 hrun
    obtain ⟨H, s2, h2, hrun⟩ := bind_ok.1 hrun
    cases pure_ok.1 hrun
    have hq1 := quiet_formula L params premise scope _ _ _ h1
    have hq2 := quiet_formula L params conclusion scope _ _ _ h2
    exact (ihp h1).pair (w := .implies) (k := s1.symbols.predicates.length) (ihc h2) (fun _ => .rfl)
      fun c d g k hg hk V ρ vars hr hch => by
        rw [holds_mkImplies, hg V ρ vars hr (hch.left hq2), hk V ρ vars (hr.later hq1) (hch.right hq1), FormulaExpr.Holds]
  | equal sets =>
    exact .of_unique (fun _ => .rfl) fun c V ρ vars hr _ => by rw [says_equalSets hlaid hr hrun, FormulaExpr.Holds]
  | isIn set within =>
    exact .of_unique (fun _ => .rfl) fun c V ρ vars hr _ => by rw [says_includedSet hlaid hr hrun, FormulaExpr.Holds]
  | isEmpty set =>
    exact .of_unique (fun _ => .rfl) fun c V ρ vars hr _ => by rw [says_emptySet hlaid hr hrun, FormulaExpr.Holds]
  | forAll qs body ih =>
    obtain ⟨_ | q, s1, h1, hrun⟩ := bind_ok.1 hrun
    · cases pure_ok.1 hrun
      obtain ⟨g, hg⟩ := exists_resolves body
      refine .of_all ⟨.forAll qs g, by rw [FormulaExpr.Resolves]; exact ⟨g, rfl, hg⟩⟩ fun c f' hf' V ρ vars hr _ => ?_
      obtain ⟨g', rfl, -⟩ := hf'
      simp only [Formula.Holds, true_iff]
      exact ((says_quantified hlaid qs h1 hr).1 rfl _).1
    · obtain ⟨G, s2, h2, hrun⟩ := bind_ok.1 hrun
      cases pure_ok.1 hrun
      exact (ih h2).map (w := .forAll qs) (fun _ => .rfl) fun c g hg => says_forAll hlaid h1 hg
  | forSome qs body ih =>
    obtain ⟨_ | q, s1, h1, hrun⟩ := bind_ok.1 hrun
    · cases pure_ok.1 hrun
      obtain ⟨g, hg⟩ := exists_resolves body
      refine .of_all ⟨.forSome qs g, by rw [FormulaExpr.Resolves]; exact ⟨g, rfl, hg⟩⟩ fun c f' hf' V ρ vars hr _ => ?_
      obtain ⟨g', rfl, -⟩ := hf'
      simp only [Formula.Holds, false_iff]
      exact ((says_quantified hlaid qs h1 hr).1 rfl _).2
    · obtain ⟨G, s2, h2, hrun⟩ := bind_ok.1 hrun
      cases pure_ok.1 hrun
      exact (ih h2).map (w := .forSome qs) (fun _ => .rfl) fun c g hg => says_forSome hlaid h1 hg

/-- A closed formula and its encoding say the same of the state that a structure shows outside all loops, once the new predicates
are given the chosen truth values. -/
theorem says_closed (hlaid : L.Laid symbols) {s t : Session} (hrun : formula L [] f [] s = .ok (F, t)) :
    Matches f.Resolves fun c g => ∀ (M : Structure) (ρ : M.Env), M.Fits symbols →
      (∀ p : PredId, s.symbols.predicates.length ≤ p.index → p.index < t.symbols.predicates.length → (M.pred p [] ↔ c p)) →
      (F.Holds M ρ ↔ g.Holds L.store (M.stateAt L s.snapshot) [] fun _ => ∅) := by
  refine (says_formula hlaid f hrun).map (w := id) (fun g => by simp) fun c g hg M ρ hfits hchosen => ?_
  have hready : (M.view L s.contexts s.snapshot).Ready L s [] [] ρ fun _ => ∅ := {
    cs := rfl
    shows := view_shows hlaid hfits _ _
    scope := ⟨fun _ _ hb => (by cases hb), fun _ _ hb => (by cases hb)⟩
    position := rfl
    settled := by simp [Term.AllSettled] }
  refine hg (M.view L s.contexts s.snapshot) ρ (fun _ => ∅) hready fun p hp hpt => ?_
  exact (Iff.of_eq (congrArg (M.pred p) List.take_nil)).trans (hchosen p hp hpt)

end View

end StoreCheck
