import StoreCheck.Proofs.Logic.Fresh
import StoreCheck.Proofs.Logic.Simplified

/-!
# Well-formed formulas

A formula is well-sorted over symbols if every atom's arguments have the sorts that its predicate is declared with, every
application's arguments those of its function, and both sides of an equation have one sort. A variable has the sort of the
binder that binds it (`Formula.wellSorted`). It is well-scoped if it has no free variables, uses only declared symbols, each
with as many arguments as it is declared with, and rebinds no name inside the scope of a binder of that name
(`Formula.wellScoped`).

Both are cases of one notion, `Formula.WellFormed k`: sorts count up to the map `k`, which tells all sorts apart for the first
and none for the second. The simplifying constructors build well-formed formulas from well-formed parts, though not conversely,
since they may drop a part.
-/

namespace StoreCheck

open List Term VarGen StoreCheck.Valuation

variable {as bs : List SortId} {functions : List FuncSymbol} {k : SortId → SortId} {ts args us : List Term} {Γ Γ' : SortEnv}
  {a b : SortId} {n m j : Nat} {t : Term} {p : PredId} {symbols : Symbols} {fs : List Formula} {bound : List String}

/-- The sorts of the variables that are bound. -/
abbrev SortEnv := Valuation (Option SortId)

namespace SortEnv

/-- The variables bound by the binders, the last one of a name last. -/
def bind (Γ : SortEnv) : List Binder → SortEnv
  | [] => Γ
  | b :: rest => bind (Γ.set b.name (some b.sort)) rest

/-- No variable is bound. -/
def empty : SortEnv := fun _ => none

theorem bind_append (Γ : SortEnv) (bs cs : List Binder) : Γ.bind (bs ++ cs) = (Γ.bind bs).bind cs := by
  induction bs generalizing Γ with
  | nil => rfl
  | cons b rest ih => exact ih (Γ.set b.name (some b.sort))

end SortEnv

/-! ## Well-sorted formulas -/

mutual

/-- The sort of a term, if it is well-sorted. -/
def Term.sortIn (functions : List FuncSymbol) (Γ : SortEnv) : Term → Option SortId
  | .var x => Γ x
  | .app f args =>
    match functions[f.index]? with
    | some symbol => if Term.sortsIn functions Γ args = symbol.args.map some then some symbol.result else none
    | none => none

/-- The sorts of terms. -/
def Term.sortsIn (functions : List FuncSymbol) (Γ : SortEnv) : List Term → List (Option SortId)
  | [] => []
  | t :: rest => t.sortIn functions Γ :: Term.sortsIn functions Γ rest

end

mutual

/-- The formula is well-sorted. -/
def Formula.wellSorted (symbols : Symbols) : SortEnv → Formula → Bool
  | _, .top => true
  | _, .bot => true
  | Γ, .atom p args =>
    match symbols.predicates[p.index]? with
    | some symbol => Term.sortsIn symbols.functions Γ args = symbol.args.map some
    | none => false
  | Γ, .eq left right =>
    (left.sortIn symbols.functions Γ).isSome && left.sortIn symbols.functions Γ = right.sortIn symbols.functions Γ
  | Γ, .not f => f.wellSorted symbols Γ
  | Γ, .and parts => Formula.allWellSorted symbols Γ parts
  | Γ, .or parts => Formula.allWellSorted symbols Γ parts
  | Γ, .implies a b => a.wellSorted symbols Γ && b.wellSorted symbols Γ
  | Γ, .iff a b => a.wellSorted symbols Γ && b.wellSorted symbols Γ
  | Γ, .forAll vars body => body.wellSorted symbols (Γ.bind vars)
  | Γ, .forSome vars body => body.wellSorted symbols (Γ.bind vars)

/-- All formulas are well-sorted. -/
def Formula.allWellSorted (symbols : Symbols) : SortEnv → List Formula → Bool
  | _, [] => true
  | Γ, f :: rest => f.wellSorted symbols Γ && Formula.allWellSorted symbols Γ rest

end

/-- Every axiom and every conjecture is well-sorted. -/
def Theory.wellSorted (t : Theory) : Bool :=
  (t.axioms ++ t.conjectures).all fun f => f.wellSorted t.symbols .empty

/-! ## Well-scoped formulas -/

mutual

/-- The variables of the term are bound, its functions are declared and have as many arguments as they are declared with. -/
def Term.wellScoped (functions : List FuncSymbol) (bound : List String) : Term → Bool
  | .var x => x ∈ bound
  | .app f args =>
    match functions[f.index]? with
    | some symbol => args.length = symbol.args.length && Term.allWellScoped functions bound args
    | none => false

/-- All terms are well-scoped. -/
def Term.allWellScoped (functions : List FuncSymbol) (bound : List String) : List Term → Bool
  | [] => true
  | t :: rest => t.wellScoped functions bound && Term.allWellScoped functions bound rest

end

/-- No binder has a name that is bound already. -/
def bindsAnew (bound : List String) : List Binder → Bool
  | [] => true
  | b :: rest => b.name ∉ bound && bindsAnew (b.name :: bound) rest

mutual

/-- The formula has no free variables beyond the bound ones, its symbols are declared and have as many arguments as they are
declared with, and no name is bound again inside its scope. -/
def Formula.wellScoped (symbols : Symbols) : List String → Formula → Bool
  | _, .top => true
  | _, .bot => true
  | bound, .atom p args =>
    match symbols.predicates[p.index]? with
    | some symbol => args.length = symbol.args.length && Term.allWellScoped symbols.functions bound args
    | none => false
  | bound, .eq left right => left.wellScoped symbols.functions bound && right.wellScoped symbols.functions bound
  | bound, .not f => f.wellScoped symbols bound
  | bound, .and parts => Formula.allWellScoped symbols bound parts
  | bound, .or parts => Formula.allWellScoped symbols bound parts
  | bound, .implies a b => a.wellScoped symbols bound && b.wellScoped symbols bound
  | bound, .iff a b => a.wellScoped symbols bound && b.wellScoped symbols bound
  | bound, .forAll vars body => bindsAnew bound vars && body.wellScoped symbols (vars.map (·.name) ++ bound)
  | bound, .forSome vars body => bindsAnew bound vars && body.wellScoped symbols (vars.map (·.name) ++ bound)

/-- All formulas are well-scoped. -/
def Formula.allWellScoped (symbols : Symbols) : List String → List Formula → Bool
  | _, [] => true
  | bound, f :: rest => f.wellScoped symbols bound && Formula.allWellScoped symbols bound rest

end

/-- Every axiom and every conjecture is well-scoped, without any variable bound from outside. -/
def Theory.wellScoped (t : Theory) : Bool := (t.axioms ++ t.conjectures).all fun f => f.wellScoped t.symbols []

/-! ## Terms of a sort, up to a map of sorts -/

mutual

/-- The term has the sort; sorts count up to `k`. -/
def Term.HasSort (k : SortId → SortId) (functions : List FuncSymbol) (Γ : SortEnv) : Term → SortId → Prop
  | .var x, a => ∃ b, Γ x = some b ∧ k b = k a
  | .app f args, a => ∃ symbol, functions[f.index]? = some symbol ∧ Term.HaveSorts k functions Γ args symbol.args ∧
      k symbol.result = k a

/-- The terms have the sorts, one by one. -/
def Term.HaveSorts (k : SortId → SortId) (functions : List FuncSymbol) (Γ : SortEnv) : List Term → List SortId → Prop
  | [], [] => True
  | t :: ts, a :: as => t.HasSort k functions Γ a ∧ Term.HaveSorts k functions Γ ts as
  | [], _ :: _ => False
  | _ :: _, [] => False

end

namespace Term

theorem haveSorts_iff : HaveSorts k functions Γ ts as ↔ List.Forall₂ (HasSort k functions Γ) ts as := by
  induction ts generalizing as with
  | nil => cases as <;> simp [HaveSorts]
  | cons t rest ih => cases as <;> simp [HaveSorts, ih]

theorem HasSort.congr (hab : k a = k b) : ∀ {t : Term}, t.HasSort k functions Γ a → t.HasSort k functions Γ b
  | .var x, h => by
    exact h.imp fun _ hb => ⟨hb.1, hb.2.trans hab⟩
  | .app f args, h => by
    exact h.imp fun _ hs => ⟨hs.1, hs.2.1, hs.2.2.trans hab⟩

mutual

theorem HasSort.agree (h : Agree n Γ Γ') : ∀ {t : Term} {a : SortId}, t.Settled n →
    t.HasSort k functions Γ a → t.HasSort k functions Γ' a
  | .var x, _, ht, hs => by
    rw [HasSort] at hs ⊢
    rw [h x ht]
    exact hs
  | .app f args, _, ht, hs => by
    exact hs.imp fun _ hs => ⟨hs.1, HaveSorts.agree h ht hs.2.1, hs.2.2⟩

theorem HaveSorts.agree (h : Agree n Γ Γ') : ∀ {ts : List Term} {as : List SortId}, AllSettled n ts →
    HaveSorts k functions Γ ts as → HaveSorts k functions Γ' ts as
  | [], [], _, _ => by rw [HaveSorts]; trivial
  | _ :: _, _ :: _, ht, hs => by
    exact ⟨HasSort.agree h ht.1 hs.1, HaveSorts.agree h ht.2 hs.2⟩
  | [], _ :: _, _, hs => by simp [HaveSorts] at hs
  | _ :: _, [], _, hs => by simp [HaveSorts] at hs

end

theorem forall₂_hasSort_agree (h : Agree n Γ Γ') (ht : AllSettled n ts)
    (hs : List.Forall₂ (HasSort k functions Γ) ts as) : List.Forall₂ (HasSort k functions Γ') ts as :=
  haveSorts_iff.1 (HaveSorts.agree h ht (haveSorts_iff.2 hs))

theorem hasSort_app {f : FuncId} (hf : functions[f.index]? = some symbol)
    (hargs : List.Forall₂ (HasSort k functions Γ) args symbol.args) : (app f args).HasSort k functions Γ symbol.result := by
  exact ⟨symbol, hf, haveSorts_iff.2 hargs, rfl⟩

/-- The terms have the sorts, and all their variables are settled. -/
structure OfSorts (k : SortId → SortId) (functions : List FuncSymbol) (Γ : SortEnv) (n : Nat) (ts : List Term)
    (sorts : List SortId) : Prop where
  sorts : List.Forall₂ (HasSort k functions Γ) ts sorts
  settled : Term.AllSettled n ts

namespace OfSorts

theorem nil : OfSorts k functions Γ n [] [] := ⟨.nil, trivial⟩

section

variable (h : OfSorts k functions Γ n ts as)

include h

theorem length_eq : ts.length = as.length := h.sorts.length_eq

theorem append (h' : OfSorts k functions Γ n us bs) :
    OfSorts k functions Γ n (ts ++ us) (as ++ bs) where
  sorts := rel_append h.sorts h'.sorts
  settled := by
    have := h.settled
    have := h'.settled
    simp_all [allSettled_iff, or_imp]

theorem take (d : Nat) : OfSorts k functions Γ n (ts.take d) (as.take d) where
  sorts := forall₂_take d h.sorts
  settled := by
    rw [allSettled_iff]
    exact fun t ht => (allSettled_iff _ _).1 h.settled t (mem_of_mem_take ht)

theorem drop (d : Nat) : OfSorts k functions Γ n (ts.drop d) (as.drop d) where
  sorts := forall₂_drop d h.sorts
  settled := by
    rw [allSettled_iff]
    exact fun t ht => (allSettled_iff _ _).1 h.settled t (mem_of_mem_drop ht)

theorem agree (hagree : Agree n Γ Γ') (hle : n ≤ m) :
    OfSorts k functions Γ' m ts as :=
  ⟨forall₂_hasSort_agree hagree h.settled h.sorts, h.settled.mono hle⟩

theorem mono (hle : n ≤ m) : OfSorts k functions Γ m ts as :=
  h.agree (.refl n Γ) hle

end

theorem hasSort (h : OfSorts k functions Γ n [t] [a]) : t.HasSort k functions Γ a :=
  (forall₂_cons.1 h.sorts).1

theorem congr (h : OfSorts k functions Γ n [t] [a]) (hab : k a = k b) :
    OfSorts k functions Γ n [t] [b] := ⟨.cons (h.hasSort.congr hab) .nil, h.settled⟩

theorem getElem? (h : OfSorts k functions Γ n ts as) {i : Nat} (ha : as[i]? = some a) :
    ∃ t, ts[i]? = some t ∧ OfSorts k functions Γ n [t] [a] := by
  have hlt : i < as.length := (List.getElem?_eq_some_iff.1 ha).1
  have hlt' : i < ts.length := by
    rw [h.length_eq]
    exact hlt
  refine ⟨ts[i], getElem?_eq_getElem hlt', .cons ?_ .nil, ?_⟩
  · rw [← (List.getElem?_eq_some_iff.1 ha).2]
    exact h.sorts.get hlt' hlt
  · exact ⟨(allSettled_iff _ _).1 h.settled _ (getElem_mem hlt'), trivial⟩

theorem paramAt (h : OfSorts k functions Γ n ts as) (ha : as[l - 1]? = some a) :
    OfSorts k functions Γ n [paramAt ts l] [a] := by
  obtain ⟨t, ht, hsort⟩ := h.getElem? ha
  unfold StoreCheck.paramAt
  rw [getD_eq_getElem?_getD, ht]
  exact hsort

theorem zip (h : OfSorts k functions Γ n ts as) (h' : OfSorts k functions Γ n us as) :
    ∀ p ∈ ts.zip us, ∃ a, OfSorts k functions Γ n [p.1] [a] ∧ OfSorts k functions Γ n [p.2] [a] := by
  intro p hp
  obtain ⟨i, hi⟩ := getElem?_of_mem hp
  obtain ⟨ht, hu⟩ := getElem?_zip_eq_some.1 hi
  have hlt : i < as.length := by
    rw [← h.length_eq]
    exact (List.getElem?_eq_some_iff.1 ht).1
  have ha : as[i]? = some as[i] := getElem?_eq_getElem hlt
  obtain ⟨t, ht', hsort⟩ := h.getElem? ha
  obtain ⟨u, hu', hsort'⟩ := h'.getElem? ha
  rw [ht] at ht'
  rw [hu] at hu'
  cases ht'
  cases hu'
  exact ⟨_, hsort, hsort'⟩

end OfSorts

end Term

/-! ## Names that are still free -/

namespace SortEnv

variable {Γ : SortEnv}

/-- The binders bind no name that is bound already. -/
def Admits (Γ : SortEnv) : List Binder → Prop
  | [] => True
  | b :: rest => Γ b.name = none ∧ Admits (Γ.set b.name (some b.sort)) rest

theorem Admits.append {bs : List Binder} (h : Γ.Admits bs) (h' : (Γ.bind bs).Admits cs) : Γ.Admits (bs ++ cs) := by
  induction bs generalizing Γ with
  | nil => exact h'
  | cons b rest ih => exact ⟨h.1, ih h.2 h'⟩

/-- None of the variables taken after the first `m`, up to the first `n`, is bound. -/
def Avoids (Γ : SortEnv) (m n : Nat) : Prop := ∀ j, m < j → j ≤ n → Γ (VarGen.nameOf j) = none

theorem Avoids.within (h : Γ.Avoids m n) (hm : m ≤ m') (hn : n' ≤ n) : Γ.Avoids m' n' :=
  fun j hj hj' => h j (Nat.lt_of_le_of_lt hm hj) (Nat.le_trans hj' hn)

/-- The next variable is bound in a place of its own. -/
theorem Avoids.bind (h : Γ.Avoids m n) (hj : j ≤ m) (sort : SortId) : (Γ.bind [⟨nameOf j, sort⟩]).Avoids m n := by
  intro i hi hi'
  have hne : nameOf i ≠ nameOf j := fun heq => by
    have := nameOf_injective heq
    omega
  exact (Γ.set_other (some sort) hne).trans (h i hi hi')

theorem Avoids.admits (h : Γ.Avoids m n) (hm : m < j) (hn : j ≤ n) (sort : SortId) :
    Γ.Admits [⟨nameOf j, sort⟩] := ⟨h j hm hn, trivial⟩

theorem Avoids.bind_fresh : ∀ {bs : List Binder} {Γ : SortEnv}, Γ.Avoids m n → Structure.FreshAfter n bs →
    (Γ.bind bs).Avoids m n
  | [], _, h, _ => h
  | b :: rest, Γ, h, hbs => by
    obtain ⟨j, hj, hname⟩ := hbs b (by simp)
    have hset : SortEnv.Avoids (Γ.set b.name (some b.sort)) m n := fun i hi hi' => by
      have hne : nameOf i ≠ b.name := fun heq => by
        have := nameOf_injective (heq.trans hname)
        omega
      exact (Γ.set_other (some b.sort) hne).trans (h i hi hi')
    exact hset.bind_fresh fun b hb => hbs b (by simp [hb])

theorem avoids_empty (m n : Nat) : SortEnv.empty.Avoids m n := fun _ _ _ => rfl

theorem avoids_bind_binders : ∀ (sorts : List SortId) (g : VarGen) {Γ : SortEnv} {n : Nat}, Γ.Avoids g.count n →
    (Γ.bind (binders sorts g).1.1).Avoids (binders sorts g).2.count n
  | [], _, _, _, h => h
  | s :: rest, g, _, _, h =>
    avoids_bind_binders rest (binder s g).2 ((h.within (Nat.le_succ _) (Nat.le_refl _)).bind (Nat.le_refl _) s)

theorem admits_binders : ∀ (sorts : List SortId) (g : VarGen) {Γ : SortEnv} {n : Nat}, Γ.Avoids g.count n →
    (binders sorts g).2.count ≤ n → Γ.Admits (binders sorts g).1.1
  | [], _, _, _, _, _ => trivial
  | s :: rest, g, _, _, h, hn => by
    have hle : g.count + 1 ≤ (binders rest (binder s g).2).2.count := Fresh.takes_binders rest _
    refine ⟨h _ (Nat.lt_succ_self _) (Nat.le_trans hle hn), ?_⟩
    exact admits_binders rest (binder s g).2 ((h.within (Nat.le_succ _) (Nat.le_refl _)).bind (Nat.le_refl _) s) hn

end SortEnv

namespace VarGen

/-- A variable that is taken has the sort of its binder, and what was settled before keeps its sort. -/
theorem ofSorts_nameOf (sort : SortId) (Γ : SortEnv) :
    Term.OfSorts k f (Γ.bind [⟨nameOf (n + 1), sort⟩]) (n + 1) [.var (nameOf (n + 1))] [sort] where
  sorts := by
    refine .cons ?_ .nil
    exact ⟨sort, set_same _ _ _, rfl⟩
  settled := ⟨settled_nameOf (Nat.le_refl _), trivial⟩

theorem agree_bind_nameOf (h : n < j) (sort : SortId) (Γ : SortEnv) :
    Agree n Γ (Γ.bind [⟨nameOf j, sort⟩]) := agree_set Γ (some sort) h

theorem agree_bind_binders (sorts : List SortId) (g : VarGen) (Γ : SortEnv) :
    Agree g.count Γ (Γ.bind (binders sorts g).1.1) := by
  induction sorts generalizing g Γ with
  | nil => exact .refl _ _
  | cons s rest ih =>
    have hfirst := agree_set Γ (some s) (Nat.lt_succ_self g.count)
    exact hfirst.trans ((ih (binder s g).2 _).anti (Nat.le_succ _))

/-- Variables that are taken together have the sorts of their binders. -/
theorem ofSorts_binders (sorts : List SortId) (g : VarGen) (Γ : SortEnv) :
    Term.OfSorts k f (Γ.bind (binders sorts g).1.1) (binders sorts g).2.count (binders sorts g).1.2 sorts := by
  induction sorts generalizing g Γ with
  | nil => exact .nil
  | cons s rest ih =>
    have hrest := ih (binder s g).2 (Γ.set (nameOf (g.count + 1)) (some s))
    have hle : (binder s g).2.count ≤ (binders rest (binder s g).2).2.count := Fresh.takes_binders rest _
    have hfirst := (ofSorts_nameOf (k := k) (f := f) (n := g.count) s Γ).agree
      (agree_bind_binders rest (binder s g).2 _) hle
    exact hfirst.append hrest

end VarGen

/-! ## Well-formed formulas -/

/-- The predicate is declared with the sorts, up to `k`. -/
def Symbols.Declares (k : SortId → SortId) (symbols : Symbols) (p : PredId) (args : List SortId) : Prop :=
  ∃ symbol, symbols.predicates[p.index]? = some symbol ∧ symbol.args.map k = args.map k

namespace Symbols

/-- Declared predicates stay declared. -/
theorem Declares.mono {args : List SortId} {a b : Symbols} (h : a.Declares k p args) (hab : a.Grows b) : b.Declares k p args := by
  obtain ⟨symbol, hsymbol, hargs⟩ := h
  obtain ⟨extra, heq⟩ := hab.predicates
  refine ⟨symbol, ?_, hargs⟩
  rw [← heq, getElem?_append_left (List.getElem?_eq_some_iff.1 hsymbol).1, hsymbol]

theorem Declares.congr (h : symbols.Declares k p as) (hab : as.map k = bs.map k) :
    symbols.Declares k p bs :=
  h.imp fun _ hs => ⟨hs.1, hs.2.trans hab⟩

theorem declares_addPredicate (s : Symbols) (hint : String) (args : List SortId) :
    (s.addPredicate hint args).2.Declares k (s.addPredicate hint args).1 args :=
  ⟨⟨_, args⟩, by simp [Symbols.addPredicate]; rfl, rfl⟩

end Symbols

namespace Formula

mutual

/-- The formula is well-formed: sorts count up to `k`, and no bound name is bound again. -/
def WellFormed (k : SortId → SortId) (symbols : Symbols) : SortEnv → Formula → Prop
  | _, .top => True
  | _, .bot => True
  | Γ, .atom p args => ∃ symbol, symbols.predicates[p.index]? = some symbol ∧
      List.Forall₂ (Term.HasSort k symbols.functions Γ) args symbol.args
  | Γ, .eq left right => ∃ a, left.HasSort k symbols.functions Γ a ∧ right.HasSort k symbols.functions Γ a
  | Γ, .not f => f.WellFormed k symbols Γ
  | Γ, .and parts => AllWellFormed k symbols Γ parts
  | Γ, .or parts => AllWellFormed k symbols Γ parts
  | Γ, .implies a b => a.WellFormed k symbols Γ ∧ b.WellFormed k symbols Γ
  | Γ, .iff a b => a.WellFormed k symbols Γ ∧ b.WellFormed k symbols Γ
  | Γ, .forAll vars body => Γ.Admits vars ∧ body.WellFormed k symbols (Γ.bind vars)
  | Γ, .forSome vars body => Γ.Admits vars ∧ body.WellFormed k symbols (Γ.bind vars)

/-- All formulas are well-formed. -/
def AllWellFormed (k : SortId → SortId) (symbols : Symbols) : SortEnv → List Formula → Prop
  | _, [] => True
  | Γ, f :: rest => f.WellFormed k symbols Γ ∧ AllWellFormed k symbols Γ rest

end

variable {symbols : Symbols} {Γ : SortEnv}

attribute [local simp] AllWellFormed WellFormed

theorem allWellFormed_iff (fs : List Formula) : AllWellFormed k symbols Γ fs ↔ ∀ f ∈ fs, f.WellFormed k symbols Γ := by
  induction fs with
  | nil => simp
  | cons f rest ih => simp [ih]

@[simp] theorem wellFormed_top : top.WellFormed k symbols Γ := by simp

@[simp] theorem wellFormed_bot : bot.WellFormed k symbols Γ := by simp

theorem forall₂_hasSort_congr : ∀ {ts : List Term} {as bs : List SortId}, as.map k = bs.map k →
    List.Forall₂ (Term.HasSort k symbols.functions Γ) ts as → List.Forall₂ (Term.HasSort k symbols.functions Γ) ts bs
  | _, _, _, hab, .nil => by
    rw [map_eq_nil_iff.1 hab.symm]
    exact .nil
  | _, _, bs, hab, .cons h hrest => by
    cases bs with
    | nil => simp at hab
    | cons b rest =>
      rw [map_cons, map_cons, List.cons.injEq] at hab
      exact .cons (h.congr hab.1) (forall₂_hasSort_congr hab.2 hrest)

/-- An atom is well formed if its arguments have the declared sorts. -/
theorem wellFormed_atom (hp : symbols.Declares k p sorts) (hargs : List.Forall₂ (Term.HasSort k symbols.functions Γ) args sorts) :
    (atom p args).WellFormed k symbols Γ := by
  obtain ⟨symbol, hsymbol, hsorts⟩ := hp
  exact ⟨symbol, hsymbol, forall₂_hasSort_congr hsorts.symm hargs⟩

/-- More symbols keep formulas well formed. -/
theorem WellFormed.mono {a b : Symbols} (h : a.Grows b) {f : Formula} (hf : f.WellFormed k a Γ) : f.WellFormed k b Γ := by
  induction f generalizing Γ with
  | top => exact wellFormed_top
  | bot => exact wellFormed_bot
  | atom p args =>
    obtain ⟨symbol, hsymbol, hargs⟩ := hf
    have hp : a.Declares k p symbol.args := ⟨symbol, hsymbol, rfl⟩
    refine wellFormed_atom (hp.mono h) ?_
    rw [h.functions]
    exact hargs
  | eq left right =>
    rw [WellFormed] at hf ⊢
    rw [h.functions]
    exact hf
  | not f ih => exact ih hf
  | and parts ih | or parts ih =>
    exact (allWellFormed_iff parts).2 fun f hmem => ih f hmem ((allWellFormed_iff parts).1 hf f hmem)
  | implies _ _ iha ihb | iff _ _ iha ihb => exact ⟨iha hf.1, ihb hf.2⟩
  | forAll _ _ ih | forSome _ _ ih => exact ⟨hf.1, ih hf.2⟩

/-! ### Simplifying constructors -/

theorem forall_mem_pair {α : Type} {P : α → Prop} {a b : α} (ha : P a) (hb : P b) : ∀ f ∈ [a, b], P f := by
  simp [ha, hb]

variable {a b f : Formula}

theorem forall_mem_triple {P : Formula → Prop} (ha : P a) (hb : P b) (hc : P c) : ∀ f ∈ [a, b, c], P f := by
  simp [ha, hb, hc]

theorem wellFormed_mkEq {left right : Term} (hl : left.HasSort k symbols.functions Γ sort)
    (hr : right.HasSort k symbols.functions Γ sort) : (mkEq left right).WellFormed k symbols Γ := by
  unfold mkEq
  split
  · exact wellFormed_top
  · rw [WellFormed]
    exact ⟨sort, hl, hr⟩

theorem wellFormed_mkNot (h : f.WellFormed k symbols Γ) : (mkNot f).WellFormed k symbols Γ := by
  unfold mkNot
  split <;> simp_all [WellFormed]

/-- A conjunction of well-formed formulas is well formed. -/
theorem wellFormed_mkAnd (hfs : ∀ f ∈ fs, f.WellFormed k symbols Γ) : (mkAnd fs).WellFormed k symbols Γ :=
  mkAnd_of hfs wellFormed_top wellFormed_bot (fun _ => id) (fun _ => (allWellFormed_iff _).1) (fun _ h _ _ _ => h)
    fun _ _ _ => (allWellFormed_iff _).2

theorem wellFormed_mkOr (hfs : ∀ f ∈ fs, f.WellFormed k symbols Γ) : (mkOr fs).WellFormed k symbols Γ :=
  mkOr_of hfs wellFormed_top wellFormed_bot (fun _ => id) (fun _ => (allWellFormed_iff _).1) (fun _ h _ _ _ => h)
    fun _ _ _ => (allWellFormed_iff _).2

theorem wellFormed_mkImplies (ha : a.WellFormed k symbols Γ) (hb : b.WellFormed k symbols Γ) :
    (mkImplies a b).WellFormed k symbols Γ := by
  unfold mkImplies
  split <;> simp_all [WellFormed, wellFormed_mkNot]

theorem wellFormed_mkIff (ha : a.WellFormed k symbols Γ) (hb : b.WellFormed k symbols Γ) :
    (mkIff a b).WellFormed k symbols Γ := by
  unfold mkIff
  split
  case h_5 => split <;> simp [WellFormed, ha, hb]
  all_goals simp_all [wellFormed_mkNot]

theorem wellFormed_exactlyOne {parts : List Formula} (h : ∀ f ∈ parts, f.WellFormed k symbols Γ) :
    (exactlyOne parts).WellFormed k symbols Γ :=
  exactlyOne_of h wellFormed_mkNot wellFormed_mkAnd wellFormed_mkOr

/-- Quantifying over variables that are not bound yet keeps formulas well formed. -/
theorem wellFormed_mkForAll {b : List Binder} (hb : Γ.Admits b) (hf : f.WellFormed k symbols (Γ.bind b)) :
    (mkForAll b f).WellFormed k symbols Γ := by
  unfold mkForAll
  split
  · exact wellFormed_top
  · exact wellFormed_bot
  all_goals
    split
    · rename_i h
      rw [List.isEmpty_iff.1 h] at hf
      exact hf
    · simp only [WellFormed, SortEnv.bind_append] at hf ⊢
      first | exact ⟨hb, hf⟩ | exact ⟨hb.append hf.1, hf.2⟩

theorem wellFormed_mkForSome {b : List Binder} (hb : Γ.Admits b) (hf : f.WellFormed k symbols (Γ.bind b)) :
    (mkForSome b f).WellFormed k symbols Γ := by
  unfold mkForSome
  split
  · exact wellFormed_top
  · exact wellFormed_bot
  all_goals
    split
    · rename_i h
      rw [List.isEmpty_iff.1 h] at hf
      exact hf
    · simp only [WellFormed, SortEnv.bind_append] at hf ⊢
      first | exact ⟨hb, hf⟩ | exact ⟨hb.append hf.1, hf.2⟩

end Formula

/-! ## The two cases -/

mutual

theorem Term.sortIn_of_hasSort : ∀ {t : Term} {a : SortId},
    t.HasSort id functions Γ a → t.sortIn functions Γ = some a
  | .var x, _, h => by
    obtain ⟨b, hb, rfl⟩ := h
    rw [sortIn, hb]
    rfl
  | .app f args, _, h => by
    obtain ⟨symbol, hsymbol, hargs, rfl⟩ := h
    rw [sortIn, hsymbol]
    simp [sortsIn_of_haveSorts hargs]

theorem Term.sortsIn_of_haveSorts : ∀ {ts : List Term} {as : List SortId},
    Term.HaveSorts id functions Γ ts as → sortsIn functions Γ ts = as.map some
  | [], [], _ => rfl
  | _ :: _, _ :: _, h => by
    rw [sortsIn, sortIn_of_hasSort h.1, sortsIn_of_haveSorts h.2, map_cons]
  | [], _ :: _, h => by simp [Term.HaveSorts] at h
  | _ :: _, [], h => by simp [Term.HaveSorts] at h

end

theorem Formula.allWellSorted_iff (fs : List Formula) :
    allWellSorted symbols Γ fs = true ↔ ∀ f ∈ fs, f.wellSorted symbols Γ = true := by
  induction fs with
  | nil => simp [allWellSorted]
  | cons f rest ih => simp [allWellSorted, ih]

/-- Where all sorts are told apart, a well-formed formula is well-sorted. -/
theorem Formula.wellSorted_of_wellFormed {f : Formula} (h : f.WellFormed id symbols Γ) : f.wellSorted symbols Γ = true := by
  induction f generalizing Γ with
  | top | bot => rfl
  | atom p args =>
    obtain ⟨symbol, hsymbol, hargs⟩ := h
    simp [wellSorted, hsymbol, sortsIn_of_haveSorts (haveSorts_iff.2 hargs)]
  | eq left right =>
    obtain ⟨a, hl, hr⟩ := h
    simp [wellSorted, sortIn_of_hasSort hl, sortIn_of_hasSort hr]
  | not f ih => exact ih h
  | and parts ih | or parts ih =>
    exact (allWellSorted_iff parts).2 fun f hf => ih f hf ((allWellFormed_iff parts).1 h f hf)
  | implies a b iha ihb | iff a b iha ihb =>
    rw [wellSorted, Bool.and_eq_true]
    exact ⟨iha h.1, ihb h.2⟩
  | forAll vars body ih | forSome vars body ih => exact ih h.2

/-- The variables with a sort are the bound ones. -/
def SortEnv.Binds (Γ : SortEnv) (bound : List String) : Prop := ∀ x, Γ x = none ↔ x ∉ bound

namespace SortEnv.Binds

variable {Γ : SortEnv}

theorem set (h : Γ.Binds bound) (x : String) (sort : SortId) : SortEnv.Binds (Γ.set x (some sort)) (x :: bound) := by
  intro y
  by_cases hy : y = x
  · subst hy
    simp [set_same]
  · rw [Γ.set_other _ hy, h y]
    simp [hy]

theorem bind (h : Γ.Binds bound) : ∀ bs : List Binder, ∃ names, (Γ.bind bs).Binds names ∧
    ∀ x, x ∈ names ↔ x ∈ bs.map (·.name) ++ bound := by
  intro bs
  induction bs generalizing Γ bound with
  | nil => exact ⟨bound, h, fun x => by simp⟩
  | cons b rest ih =>
    obtain ⟨names, hnames, hmem⟩ := ih (h.set b.name b.sort)
    refine ⟨names, hnames, fun x => (hmem x).trans ?_⟩
    simp only [mem_append, mem_cons, map_cons]
    tauto

theorem bind_names (h : Γ.Binds bound) (bs : List Binder) : (Γ.bind bs).Binds (bs.map (·.name) ++ bound) := by
  obtain ⟨names, hnames, hmem⟩ := h.bind bs
  intro x
  rw [hnames x, hmem x]

theorem bindsAnew (h : Γ.Binds bound) : ∀ {bs : List Binder}, Γ.Admits bs → bindsAnew bound bs = true := by
  intro bs
  induction bs generalizing Γ bound with
  | nil => exact fun _ => rfl
  | cons b rest ih =>
    intro hadmits
    simp [StoreCheck.bindsAnew, (h b.name).1 hadmits.1, ih (h.set b.name b.sort) hadmits.2]

end SortEnv.Binds

mutual

theorem Term.wellScoped_of_hasSort {Γ : SortEnv} (hΓ : Γ.Binds bound) :
    ∀ {t : Term} {a : SortId}, t.HasSort k functions Γ a → t.wellScoped functions bound = true
  | .var x, _, h => by
    obtain ⟨b, hb, -⟩ := h
    rw [wellScoped, decide_eq_true_iff]
    by_contra hx
    rw [(hΓ x).2 hx] at hb
    cases hb
  | .app f args, _, h => by
    obtain ⟨symbol, hsymbol, hargs, -⟩ := h
    have hlength := (haveSorts_iff.1 hargs).length_eq
    simp [wellScoped, hsymbol, hlength, allWellScoped_of_haveSorts hΓ hargs]

theorem Term.allWellScoped_of_haveSorts {Γ : SortEnv} (hΓ : Γ.Binds bound) :
    ∀ {ts : List Term} {as : List SortId}, Term.HaveSorts k functions Γ ts as →
    allWellScoped functions bound ts = true
  | [], [], _ => by rw [allWellScoped]
  | _ :: _, _ :: _, h => by
    rw [allWellScoped, Bool.and_eq_true]
    exact ⟨wellScoped_of_hasSort hΓ h.1, allWellScoped_of_haveSorts hΓ h.2⟩
  | [], _ :: _, h => by simp [Term.HaveSorts] at h
  | _ :: _, [], h => by simp [Term.HaveSorts] at h

end

theorem Formula.allWellScoped_iff (fs : List Formula) :
    allWellScoped symbols bound fs = true ↔ ∀ f ∈ fs, f.wellScoped symbols bound = true := by
  induction fs with
  | nil => simp [allWellScoped]
  | cons f rest ih => simp [allWellScoped, ih]

/-- A well-formed formula is well-scoped, whichever sorts are told apart. -/
theorem Formula.wellScoped_of_wellFormed {f : Formula} {Γ : SortEnv} (hΓ : Γ.Binds bound) (h : f.WellFormed k symbols Γ) :
    f.wellScoped symbols bound = true := by
  induction f generalizing Γ bound with
  | top | bot => rfl
  | atom p args =>
    obtain ⟨symbol, hsymbol, hargs⟩ := h
    simp [wellScoped, hsymbol, hargs.length_eq, allWellScoped_of_haveSorts hΓ (haveSorts_iff.2 hargs)]
  | eq left right =>
    obtain ⟨a, hl, hr⟩ := h
    simp [wellScoped, wellScoped_of_hasSort hΓ hl, wellScoped_of_hasSort hΓ hr]
  | not f ih => exact ih hΓ h
  | and parts ih | or parts ih =>
    exact (allWellScoped_iff parts).2 fun f hf => ih f hf hΓ ((allWellFormed_iff parts).1 h f hf)
  | implies a b iha ihb | iff a b iha ihb =>
    rw [wellScoped, Bool.and_eq_true]
    exact ⟨iha hΓ h.1, ihb hΓ h.2⟩
  | forAll vars body ih | forSome vars body ih =>
    rw [wellScoped, Bool.and_eq_true]
    exact ⟨hΓ.bindsAnew h.1, ih (hΓ.bind_names vars) h.2⟩

end StoreCheck
