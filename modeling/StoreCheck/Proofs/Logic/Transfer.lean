import StoreCheck.Proofs.Logic.Sorting

/-!
# Truth depends on the declared predicates and the bound variables only

Two structures that differ in their predicates alone give a well-formed formula the same truth value, as soon as they agree on
the predicates that are declared, at the arguments that are of the declared sorts (`Formula.holds_transfer`). Sorts count up to
`k`: for a map that tells no sorts apart the formula need only be well-scoped, and the structures agree at all arguments
(`Formula.holds_agreeBelow`).
-/

namespace StoreCheck

open Term StoreCheck.Valuation

variable {k : SortId → SortId} {Γ : SortEnv} {functions : List FuncSymbol} {as : List SortId} {ts : List Term} {F : Formula}

namespace Structure

/-- What the predicates of a structure hold of. -/
abbrev Interpretation (M : Structure) := PredId → List M.Elem → Prop

/-- The structure with other predicates. -/
abbrev withPreds (M : Structure) (P : M.Interpretation) : Structure := { M with pred := P }

/-- The interpretations agree on the first `n` predicates. -/
def AgreeBelow {M : Structure} (n : Nat) (P Q : M.Interpretation) : Prop := ∀ p, p.index < n → Q p = P p

namespace AgreeBelow

variable {M : Structure}

theorem refl (n : Nat) (P : M.Interpretation) : AgreeBelow n P P := fun _ _ => rfl

end AgreeBelow

/-- The functions give elements of their sorts, up to `k`. -/
def FitsBy (k : SortId → SortId) (M : Structure) (functions : List FuncSymbol) : Prop :=
  ∀ (f : FuncId) (symbol : FuncSymbol), functions[f.index]? = some symbol →
    ∀ args, args.map (fun e => k (M.sort e)) = symbol.args.map k → k (M.sort (M.func f args)) = k symbol.result

/-- The variables that are bound stand for elements of their sorts, up to `k`. -/
def Respects (k : SortId → SortId) (M : Structure) (Γ : SortEnv) (ρ : M.Env) : Prop :=
  ∀ x a, Γ x = some a → k (M.sort (ρ x)) = k a

variable {M : Structure}

theorem fitsBy_of_loose (hk : ∀ a b, k a = k b) (M : Structure) (functions : List FuncSymbol) :
    FitsBy k M functions := fun _ _ _ _ _ => hk _ _

theorem Respects.bind (h : Respects k M Γ ρ) {b : Binder} (he : M.sort e = b.sort) :
    Respects k M (Γ.set b.name (some b.sort)) (ρ.set b.name e) := by
  intro x a hx
  by_cases heq : x = b.name
  · subst heq
    rw [set_same] at hx ⊢
    cases hx
    rw [he]
  · rw [set_other _ _ heq] at hx ⊢
    exact h x a hx

theorem respects_empty (ρ : M.Env) : Respects k M .empty ρ :=
  fun _ _ h => by cases h

/-- The assignments agree on the variables that are bound. -/
def AgreeOn {M : Structure} (Γ : SortEnv) (ρ ρ' : M.Env) : Prop := ∀ x a, Γ x = some a → ρ' x = ρ x

theorem AgreeOn.bind (h : AgreeOn Γ ρ ρ') (b : Binder) (e : M.Elem) :
    AgreeOn (Γ.set b.name (some b.sort)) (ρ.set b.name e) (ρ'.set b.name e) := by
  intro x a hx
  by_cases heq : x = b.name
  · subst heq
    rw [set_same, set_same]
  · rw [set_other _ _ heq] at hx ⊢
    rw [set_other _ _ heq]
    exact h x a hx

theorem agreeOn_empty (ρ ρ' : M.Env) : AgreeOn .empty ρ ρ' := fun _ _ h => by cases h

end Structure

/-! ## Terms -/

section Terms

open Structure

variable {M : Structure} {ρ' : M.Env}

mutual

/-- A term that has a sort denotes an element of the sort. -/
theorem Term.sort_eval (hfits : FitsBy k M functions) (hρ : Respects k M Γ ρ) : ∀ {t : Term} {a : SortId},
    t.HasSort k functions Γ a → k (M.sort (t.eval M ρ)) = k a
  | .var x, a, h => by
    obtain ⟨b, hb, hab⟩ := h
    rw [eval, hρ x b hb, hab]
  | .app f args, a, h => by
    obtain ⟨symbol, hsymbol, hargs, hresult⟩ := h
    rw [eval, hfits f symbol hsymbol _ (sorts_evalAll hfits hρ hargs), hresult]

theorem Term.sorts_evalAll (hfits : FitsBy k M functions) (hρ : Respects k M Γ ρ) : ∀ {ts : List Term} {as : List SortId},
    Term.HaveSorts k functions Γ ts as → (evalAll M ρ ts).map (fun e => k (M.sort e)) = as.map k
  | [], [], _ => rfl
  | t :: ts, a :: as, h => by
    rw [evalAll, List.map_cons, List.map_cons, sort_eval hfits hρ h.1, sorts_evalAll hfits hρ h.2]
  | [], _ :: _, h => by simp [Term.HaveSorts] at h
  | _ :: _, [], h => by simp [Term.HaveSorts] at h

end

theorem Term.sorts_map_eval (hfits : FitsBy k M functions) (hρ : Respects k M Γ ρ)
    (h : List.Forall₂ (Term.HasSort k functions Γ) ts as) : (ts.map (eval M ρ)).map (fun e => k (M.sort e)) = as.map k := by
  rw [← evalAll_eq_map]
  exact sorts_evalAll hfits hρ (haveSorts_iff.2 h)

mutual

/-- Predicates and variables that are not bound do not count for terms. -/
theorem Term.eval_transfer (P : M.Interpretation) (h : AgreeOn Γ ρ ρ') : ∀ {t : Term} {a : SortId},
    t.HasSort k functions Γ a → t.eval (M.withPreds P) ρ' = t.eval M ρ
  | .var x, a, ht => by
    obtain ⟨b, hb, -⟩ := ht
    rw [eval, eval, h x b hb]
  | .app f args, a, ht => by
    obtain ⟨symbol, -, hargs, -⟩ := ht
    rw [eval, eval, evalAll_transfer P h hargs]

theorem Term.evalAll_transfer (P : M.Interpretation) (h : AgreeOn Γ ρ ρ') : ∀ {ts : List Term} {as : List SortId},
    Term.HaveSorts k functions Γ ts as → evalAll (M.withPreds P) ρ' ts = evalAll M ρ ts
  | [], [], _ => rfl
  | t :: ts, a :: as, ht => by
    rw [evalAll, evalAll, eval_transfer P h ht.1, evalAll_transfer P h ht.2]
  | [], _ :: _, ht => by simp [Term.HaveSorts] at ht
  | _ :: _, [], ht => by simp [Term.HaveSorts] at ht

end

theorem Term.map_eval_transfer (P : M.Interpretation) (h : AgreeOn Γ ρ ρ') (ht : List.Forall₂ (Term.HasSort k functions Γ) ts as) :
    ts.map (eval (M.withPreds P) ρ') = ts.map (eval M ρ) := by
  rw [← evalAll_eq_map, ← evalAll_eq_map]
  exact evalAll_transfer P h (haveSorts_iff.2 ht)

end Terms

/-! ## Formulas -/

namespace Formula

open Structure

variable {k : SortId → SortId} {M : Structure} {symbols : Symbols} {P : M.Interpretation}

/-- The interpretations agree on the declared predicates, at arguments of the declared sorts. -/
def AgreeOnDeclared (k : SortId → SortId) (M : Structure) (symbols : Symbols) (P : M.Interpretation) : Prop :=
  ∀ (p : PredId) (symbol : PredSymbol), symbols.predicates[p.index]? = some symbol →
    ∀ args, args.map (fun e => k (M.sort e)) = symbol.args.map k → (P p args ↔ M.pred p args)

theorem forAll_transfer (bs : List Binder) (hρ : Respects k M Γ ρ) (hagree : AgreeOn Γ ρ ρ')
    (h : ∀ ρ ρ', Respects k M (Γ.bind bs) ρ → AgreeOn (Γ.bind bs) ρ ρ' → (Q ρ' ↔ R ρ)) :
    (M.withPreds P).ForAll bs Q ρ' ↔ M.ForAll bs R ρ := by
  induction bs generalizing Γ ρ ρ' with
  | nil => exact h ρ ρ' hρ hagree
  | cons b rest ih =>
    exact forall_congr' fun e => imp_congr_right fun he => ih (hρ.bind he) (hagree.bind b e) h

theorem forSome_transfer (bs : List Binder) (hρ : Respects k M Γ ρ) (hagree : AgreeOn Γ ρ ρ')
    (h : ∀ ρ ρ', Respects k M (Γ.bind bs) ρ → AgreeOn (Γ.bind bs) ρ ρ' → (Q ρ' ↔ R ρ)) :
    (M.withPreds P).ForSome bs Q ρ' ↔ M.ForSome bs R ρ := by
  rw [Structure.forSome_iff_not_forAll, Structure.forSome_iff_not_forAll]
  exact not_congr (forAll_transfer bs hρ hagree fun ρ ρ' hρ hagree => not_congr (h ρ ρ' hρ hagree))

/-- Structures that agree on the declared predicates agree on well-formed formulas. -/
theorem holds_transfer (hfits : FitsBy k M symbols.functions) (hP : AgreeOnDeclared k M symbols P) {F : Formula}
    (hF : F.WellFormed k symbols Γ) (hρ : Respects k M Γ ρ) (hagree : AgreeOn Γ ρ ρ') :
    F.Holds (M.withPreds P) ρ' ↔ F.Holds M ρ := by
  induction F generalizing Γ ρ ρ' with
  | top | bot => rw [Holds, Holds]
  | atom p args =>
    obtain ⟨symbol, hsymbol, hargs⟩ := hF
    rw [Holds, Holds, map_eval_transfer P hagree hargs]
    exact hP p symbol hsymbol _ (sorts_map_eval hfits hρ hargs)
  | eq left right =>
    obtain ⟨a, hl, hr⟩ := hF
    rw [Holds, Holds, eval_transfer P hagree hl, eval_transfer P hagree hr]
  | not f ih => exact not_congr (ih hF hρ hagree)
  | and parts ih =>
    rw [WellFormed, allWellFormed_iff] at hF
    rw [Holds, Holds, holdAll_iff, holdAll_iff]
    exact forall₂_congr fun f hf => ih f hf (hF f hf) hρ hagree
  | or parts ih =>
    rw [WellFormed, allWellFormed_iff] at hF
    rw [Holds, Holds, holdSome_iff, holdSome_iff]
    exact exists_congr fun f => and_congr_right fun hf => ih f hf (hF f hf) hρ hagree
  | implies a b iha ihb | iff a b iha ihb => rw [Holds, Holds, iha hF.1 hρ hagree, ihb hF.2 hρ hagree]
  | forAll vars body ih => exact forAll_transfer vars hρ hagree fun ρ ρ' hρ hagree => ih hF.2 hρ hagree
  | forSome vars body ih => exact forSome_transfer vars hρ hagree fun ρ ρ' hρ hagree => ih hF.2 hρ hagree

/-- Structures that agree on the declared predicates at all arguments agree on closed well-scoped formulas, at all
assignments. -/
theorem holds_agreeBelow (hk : ∀ a b, k a = k b) (h : AgreeBelow symbols.predicates.length P Q) (hF : F.WellFormed k symbols .empty)
    (ρ ρ' : M.Env) : F.Holds (M.withPreds Q) ρ' ↔ F.Holds (M.withPreds P) ρ := by
  have hagree : AgreeOnDeclared k (M.withPreds P) symbols Q := by
    intro p symbol hsymbol args _
    exact iff_of_eq (congrFun (h p (List.getElem?_eq_some_iff.1 hsymbol).1) args)
  exact holds_transfer (M := M.withPreds P) (fitsBy_of_loose hk _ _) hagree hF (respects_empty ρ) (agreeOn_empty ρ ρ')

end Formula

end StoreCheck
