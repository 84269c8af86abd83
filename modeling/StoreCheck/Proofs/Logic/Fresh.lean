import StoreCheck.Proofs.Encoding.Growth
import StoreCheck.Proofs.Logic.Semantics

/-!
# Fresh variables do not capture

A variable is settled when it is none of those still to be taken. Assignments that agree on the settled variables give the same
meaning to the terms built from them, so a formula that binds fresh variables never captures those of its parts.
-/

namespace StoreCheck

open Term StoreCheck.Valuation

variable {m n : Nat} {t : Term} {bs : List Binder}

namespace VarGen

theorem nameOf_injective (h : nameOf m = nameOf n) : m = n := by
  have hlist := congrArg String.toList h
  have hdigits : Nat.toDigits 10 m = Nat.toDigits 10 n := by simpa [nameOf] using hlist
  have hvalue := congrArg (fun l => Nat.ofDigitChars 10 l 0) hdigits
  simpa using hvalue

/-- The variable is none of those taken after the first `n`. -/
def Settled (n : Nat) (x : String) : Prop := ∀ k, n < k → x ≠ nameOf k

theorem Settled.mono (h : Settled m x) (hle : m ≤ n) : Settled n x :=
  fun k hk => h k (Nat.lt_of_le_of_lt hle hk)

theorem settled_nameOf (h : m ≤ n) : Settled n (nameOf m) := by
  intro k hk heq
  have := nameOf_injective heq
  omega

end VarGen

mutual

/-- All variables of the term are settled. -/
def Term.Settled (n : Nat) : Term → Prop
  | .var x => VarGen.Settled n x
  | .app _ args => Term.AllSettled n args

/-- All variables of the terms are settled. -/
def Term.AllSettled (n : Nat) : List Term → Prop
  | [] => True
  | t :: rest => t.Settled n ∧ Term.AllSettled n rest

end

theorem Term.allSettled_iff (n : Nat) (ts : List Term) : AllSettled n ts ↔ ∀ t ∈ ts, t.Settled n := by
  induction ts with
  | nil => simp [AllSettled]
  | cons t rest ih => simp [AllSettled, ih]

mutual

theorem Term.Settled.mono (hle : m ≤ n) : ∀ {t : Term}, t.Settled m → t.Settled n
  | .var _, h => by
    exact VarGen.Settled.mono h hle
  | .app _ args, h => by
    exact AllSettled.mono hle h

theorem Term.AllSettled.mono (hle : m ≤ n) : ∀ {ts : List Term}, AllSettled m ts → AllSettled n ts
  | [], _ => trivial
  | _ :: _, h => ⟨Term.Settled.mono hle h.1, AllSettled.mono hle h.2⟩

end

theorem Term.settled_leftOf (ts : TupleSort) (h : t.Settled n) : (ts.leftOf t).Settled n := by
  exact ⟨h, trivial⟩

theorem Term.settled_rightOf (ts : TupleSort) (h : t.Settled n) : (ts.rightOf t).Settled n := by
  exact ⟨h, trivial⟩

namespace Valuation

variable {α : Type} {ρ ρ' ρ'' : Valuation α}

/-- The assignments agree on the settled variables. -/
def Agree (n : Nat) (ρ ρ' : Valuation α) : Prop := ∀ x, VarGen.Settled n x → ρ' x = ρ x

theorem Agree.refl (n : Nat) (ρ : Valuation α) : Agree n ρ ρ := fun _ _ => rfl

theorem Agree.trans (h : Agree n ρ ρ') (h' : Agree n ρ' ρ'') : Agree n ρ ρ'' :=
  fun x hx => (h' x hx).trans (h x hx)

theorem Agree.anti (h : Agree n ρ ρ') (hle : m ≤ n) : Agree m ρ ρ' :=
  fun x hx => h x (hx.mono hle)

/-- A fresh variable may be given any value. -/
theorem agree_set (ρ : Valuation α) (e : α) (h : n < k) : Agree n ρ (ρ.set (VarGen.nameOf k) e) :=
  fun _ hx => ρ.set_other e (hx k h)

/-- The assignment that gives values to the variables taken after the first `n`. -/
def setFrom (ρ : Valuation α) : Nat → List α → Valuation α
  | _, [] => ρ
  | n, e :: rest => setFrom (ρ.set (VarGen.nameOf (n + 1)) e) (n + 1) rest

theorem agree_setFrom (es : List α) (ρ : Valuation α) (n : Nat) : Agree n ρ (ρ.setFrom n es) := by
  induction es generalizing ρ n with
  | nil => exact Agree.refl n ρ
  | cons e rest ih =>
    have hset := agree_set ρ e (Nat.lt_succ_self n)
    exact hset.trans ((ih (ρ.set (VarGen.nameOf (n + 1)) e) (n + 1)).anti (Nat.le_succ n))

end Valuation

mutual

theorem Term.eval_agree {M : Structure} {ρ ρ' : M.Env} (h : Agree n ρ ρ') :
    ∀ {t : Term}, t.Settled n → t.eval M ρ' = t.eval M ρ
  | .var x, ht => by
    exact h x ht
  | .app f args, ht => by
    simp only [Term.eval]
    rw [evalAll_agree h ht]

theorem Term.evalAll_agree {M : Structure} {ρ ρ' : M.Env} (h : Agree n ρ ρ') :
    ∀ {ts : List Term}, AllSettled n ts → evalAll M ρ' ts = evalAll M ρ ts
  | [], _ => rfl
  | _ :: _, ht => by
    simp only [evalAll]
    rw [eval_agree h ht.1, evalAll_agree h ht.2]

end

theorem Term.map_eval_agree {M : Structure} {ρ ρ' : M.Env} (h : Agree n ρ ρ') (ht : AllSettled n ts) :
    ts.map (Term.eval M ρ') = ts.map (Term.eval M ρ) := by
  rw [← evalAll_eq_map, ← evalAll_eq_map, evalAll_agree h ht]

/-! ## What quantifying over fresh variables means -/

namespace Structure

variable {M : Structure}

/-- All binders are variables taken after the first `n`. -/
def FreshAfter (n : Nat) (bs : List Binder) : Prop := ∀ b ∈ bs, ∃ k, n < k ∧ b.name = VarGen.nameOf k

theorem FreshAfter.anti (h : FreshAfter n bs) (hle : m ≤ n) : FreshAfter m bs :=
  fun b hb => (h b hb).imp fun _ hk => ⟨Nat.lt_of_le_of_lt hle hk.1, hk.2⟩

/-- Under fresh binders only what holds at agreeing assignments counts. -/
theorem forAll_congr_agree (hbs : FreshAfter n bs) (h : ∀ ρ', Agree n ρ ρ' → (P ρ' ↔ Q ρ')) :
    M.ForAll bs P ρ ↔ M.ForAll bs Q ρ := by
  induction bs generalizing ρ with
  | nil => exact h ρ (Agree.refl n ρ)
  | cons b rest ih =>
    obtain ⟨k, hk, hname⟩ := hbs b (by simp)
    simp only [ForAll, hname]
    refine forall_congr' fun e => imp_congr_right fun _ => ?_
    exact ih (fun b hb => hbs b (by simp [hb])) fun ρ' hρ' => h ρ' ((agree_set ρ e hk).trans hρ')

theorem forSome_congr_agree (hbs : FreshAfter n bs) (h : ∀ ρ', Agree n ρ ρ' → (P ρ' ↔ Q ρ')) :
    M.ForSome bs P ρ ↔ M.ForSome bs Q ρ := by
  rw [forSome_iff_not_forAll, forSome_iff_not_forAll]
  exact not_congr (forAll_congr_agree hbs fun ρ' hρ' => not_congr (h ρ' hρ'))

theorem forAll_imp_const (bs : List Binder) (p : Prop) (P : M.Env → Prop) (ρ : M.Env) :
    M.ForAll bs (fun ρ => p → P ρ) ρ ↔ (p → M.ForAll bs P ρ) := by
  induction bs generalizing ρ with
  | nil => rfl
  | cons b rest ih =>
    simp only [ForAll, ih]
    exact ⟨fun h hp e he => h e he hp, fun h e he hp => h hp e he⟩

theorem forSome_and_const (bs : List Binder) (p : Prop) (P : M.Env → Prop) (ρ : M.Env) :
    M.ForSome bs (fun ρ => p ∧ P ρ) ρ ↔ (p ∧ M.ForSome bs P ρ) := by
  simp only [forSome_iff_not_forAll, not_and, forAll_imp_const, Classical.not_imp]

end Structure

namespace VarGen

variable {M : Structure}

theorem settled_binder (sort : SortId) (g : VarGen) : (binder sort g).1.2.Settled (binder sort g).2.count :=
  settled_nameOf (Nat.le_refl _)

theorem allSettled_binders (sorts : List SortId) (g : VarGen) :
    AllSettled (binders sorts g).2.count (binders sorts g).1.2 := by
  induction sorts generalizing g with
  | nil => trivial
  | cons s rest ih =>
    have htake : (binder s g).2.count ≤ (binders rest (binder s g).2).2.count := Fresh.takes_binders rest _
    exact ⟨(settled_binder s g).mono htake, ih _⟩

theorem length_binders (sorts : List SortId) (g : VarGen) : (binders sorts g).1.2.length = sorts.length := by
  induction sorts generalizing g with
  | nil => rfl
  | cons s rest ih => exact congrArg (· + 1) (ih (binder s g).2)

/-- The variables taken denote the elements that are given to them. -/
theorem eval_binders (sorts : List SortId) (g : VarGen) (ρ : M.Env) (es : List M.Elem) (h : es.length = sorts.length) :
    (binders sorts g).1.2.map (Term.eval M (ρ.setFrom g.count es)) = es := by
  induction sorts generalizing g ρ es with
  | nil => exact (List.length_eq_zero_iff.1 h).symm
  | cons s rest ih =>
    cases es with
    | nil => simp at h
    | cons e others =>
      have hrest := ih (binder s g).2 (ρ.set (nameOf (g.count + 1)) e) others (by simpa using h)
      have hagree := agree_setFrom others (ρ.set (nameOf (g.count + 1)) e) (g.count + 1)
      have hfirst : ρ.setFrom g.count (e :: others) (nameOf (g.count + 1)) = e :=
        (hagree _ (settled_nameOf (Nat.le_refl _))).trans (set_same ρ _ e)
      exact congrArg₂ List.cons hfirst hrest

/-- Quantifying over fresh variables quantifies over the elements of their sorts. -/
theorem forAll_binders (sorts : List SortId) (g : VarGen) (P : M.Env → Prop) (ρ : M.Env) :
    M.ForAll (binders sorts g).1.1 P ρ ↔ ∀ es : List M.Elem, es.map M.sort = sorts → P (ρ.setFrom g.count es) := by
  induction sorts generalizing g ρ with
  | nil =>
    constructor
    · intro h es hes
      rw [List.map_eq_nil_iff.1 hes]
      exact h
    · intro h
      exact h [] rfl
  | cons s rest ih =>
    have hunfold : M.ForAll (binders (s :: rest) g).1.1 P ρ ↔
        ∀ e, M.sort e = s → M.ForAll (binders rest (binder s g).2).1.1 P (ρ.set (nameOf (g.count + 1)) e) := Iff.rfl
    constructor
    · intro h es hes
      cases es with
      | nil => simp at hes
      | cons e others =>
        rw [List.map_cons, List.cons.injEq] at hes
        exact (ih (binder s g).2 _).1 (h e hes.1) others hes.2
    · intro h e he
      refine (ih (binder s g).2 _).2 fun es hes => ?_
      exact h (e :: es) (by rw [List.map_cons, he, hes])

end VarGen

end StoreCheck
