import StoreCheck.Logic.Formula

/-!
# What the simplifying constructors make

A formula that was made by the simplifying constructors is a constant or in a normal form without constants
(`Formula.Built.normal`), and in this there is nothing left to simplify (`built_formulas_normal`). `Formula.Over` says that a
formula is written with the symbols of a table and the variables `V1`, `V2`, …
-/

namespace StoreCheck

open List

variable {fs parts : List Formula} {body a b : Formula}

/-! ## Formulas of a symbol table -/

mutual

/-- The functions of the term are in the table, and its variables are called `V1`, `V2`, … -/
def Term.Over (s : Symbols) : Term → Prop
  | .var x => ∃ n, x = VarGen.nameOf n
  | .app f args => f.index < s.functions.length ∧ Term.AllOver s args

/-- All terms are over the table. -/
def Term.AllOver (s : Symbols) : List Term → Prop
  | [] => True
  | t :: rest => t.Over s ∧ Term.AllOver s rest

end

/-- The sort is in the table, and the variable is called `V1`, `V2`, … -/
def Binder.Over (s : Symbols) (b : Binder) : Prop := b.sort.index < s.sorts.length ∧ ∃ n, b.name = VarGen.nameOf n

mutual

/-- The symbols of the formula are in the table, and its variables are called `V1`, `V2`, … -/
def Formula.Over (s : Symbols) : Formula → Prop
  | .top => True
  | .bot => True
  | .atom p args => p.index < s.predicates.length ∧ Term.AllOver s args
  | .eq a b => a.Over s ∧ b.Over s
  | .not f => f.Over s
  | .and parts => Formula.AllOver s parts
  | .or parts => Formula.AllOver s parts
  | .implies a b => a.Over s ∧ b.Over s
  | .iff a b => a.Over s ∧ b.Over s
  | .forAll vars body => (∀ b ∈ vars, b.Over s) ∧ body.Over s
  | .forSome vars body => (∀ b ∈ vars, b.Over s) ∧ body.Over s

/-- All formulas are over the table. -/
def Formula.AllOver (s : Symbols) : List Formula → Prop
  | [] => True
  | f :: rest => f.Over s ∧ Formula.AllOver s rest

end

/-! ## Simplified formulas -/

namespace Formula

/-- The formula was made by the simplifying constructors. -/
inductive Built : Formula → Prop where
  | top : Built .top
  | bot : Built .bot
  | atom (p : PredId) (args : List Term) : Built (.atom p args)
  | mkEq (a b : Term) : Built (mkEq a b)
  | mkNot {f : Formula} (h : Built f) : Built (mkNot f)
  | mkAnd {parts : List Formula} (h : ∀ f ∈ parts, Built f) : Built (mkAnd parts)
  | mkOr {parts : List Formula} (h : ∀ f ∈ parts, Built f) : Built (mkOr parts)
  | mkImplies {a b : Formula} (ha : Built a) (hb : Built b) : Built (mkImplies a b)
  | mkIff {a b : Formula} (ha : Built a) (hb : Built b) : Built (mkIff a b)
  | mkForAll (vars : List Binder) {body : Formula} (h : Built body) : Built (mkForAll vars body)
  | mkForSome (vars : List Binder) {body : Formula} (h : Built body) : Built (mkForSome vars body)

mutual

/-- Junctions have two parts or more, and quantifiers bind variables. -/
def Plain : Formula → Prop
  | .top => True
  | .bot => True
  | .atom _ _ => True
  | .eq _ _ => True
  | .not f => f.Plain
  | .and parts => 2 ≤ parts.length ∧ AllPlain parts
  | .or parts => 2 ≤ parts.length ∧ AllPlain parts
  | .implies a b => a.Plain ∧ b.Plain
  | .iff a b => a.Plain ∧ b.Plain
  | .forAll vars body => vars ≠ [] ∧ body.Plain
  | .forSome vars body => vars ≠ [] ∧ body.Plain

/-- All formulas are plain. -/
def AllPlain : List Formula → Prop
  | [] => True
  | f :: rest => f.Plain ∧ AllPlain rest

end

theorem allPlain_iff (fs : List Formula) : AllPlain fs ↔ ∀ f ∈ fs, f.Plain := by
  induction fs with
  | nil => simp [AllPlain]
  | cons f rest ih => simp [AllPlain, ih]

/-- The formula is in normal form and not a constant: it holds no constant, junctions have two parts or more and none of their own
kind, quantifiers bind variables and stand under none of their own kind, two negations never meet, and the two sides of an
equality or an equivalence differ. -/
inductive Proper : Formula → Prop where
  | atom (p : PredId) (args : List Term) : Proper (.atom p args)
  | eq {a b : Term} (hne : a ≠ b) : Proper (.eq a b)
  | not {f : Formula} (h : Proper f) (hown : ∀ g, f ≠ .not g) : Proper (.not f)
  | and {parts : List Formula} (hlength : 2 ≤ parts.length) (h : ∀ f ∈ parts, Proper f) (hown : ∀ f ∈ parts, ∀ gs, f ≠ .and gs) :
      Proper (.and parts)
  | or {parts : List Formula} (hlength : 2 ≤ parts.length) (h : ∀ f ∈ parts, Proper f) (hown : ∀ f ∈ parts, ∀ gs, f ≠ .or gs) :
      Proper (.or parts)
  | implies {a b : Formula} (ha : Proper a) (hb : Proper b) : Proper (.implies a b)
  | iff {a b : Formula} (ha : Proper a) (hb : Proper b) (hne : a ≠ b) : Proper (.iff a b)
  | forAll {vars : List Binder} {body : Formula} (hvars : vars ≠ []) (h : Proper body) (hown : ∀ bs g, body ≠ .forAll bs g) :
      Proper (.forAll vars body)
  | forSome {vars : List Binder} {body : Formula} (hvars : vars ≠ []) (h : Proper body) (hown : ∀ bs g, body ≠ .forSome bs g) :
      Proper (.forSome vars body)

/-- The formula is true, false, or without constants and in normal form. -/
inductive Normal : Formula → Prop where
  | top : Normal .top
  | bot : Normal .bot
  | proper {f : Formula} (h : f.Proper) : Normal f

theorem Normal.proper_of {f : Formula} (h : f.Normal) (htop : f ≠ .top) (hbot : f ≠ .bot) : f.Proper := by
  cases h with
  | top => exact absurd rfl htop
  | bot => exact absurd rfl hbot
  | proper h => exact h

theorem Proper.plain {f : Formula} (h : f.Proper) : f.Plain := by
  induction h with
  | atom | eq => exact trivial
  | not _ _ ih => exact ih
  | and hlength _ _ ih | or hlength _ _ ih => exact ⟨hlength, (allPlain_iff _).2 ih⟩
  | implies _ _ iha ihb | iff _ _ _ iha ihb => exact ⟨iha, ihb⟩
  | forAll hvars _ _ ih | forSome hvars _ _ ih => exact ⟨hvars, ih⟩

theorem normal_mkNot {f : Formula} (h : f.Normal) : (mkNot f).Normal := by
  cases h with
  | top => exact .bot
  | bot => exact .top
  | proper h =>
    cases h with
    | not h => exact .proper h
    | _ => exact .proper (.not (by constructor <;> assumption) nofun)

theorem mem_of_mem_pairs {α : Type} {p : α × α} : ∀ {as : List α}, p ∈ pairs as → p.1 ∈ as ∧ p.2 ∈ as
  | a :: rest, h => by
    rcases mem_append.1 h with h | h
    · obtain ⟨b, hb, rfl⟩ := mem_map.1 h
      exact ⟨mem_cons_self, mem_cons_of_mem a hb⟩
    · obtain ⟨hfirst, hsecond⟩ := mem_of_mem_pairs h
      exact ⟨mem_cons_of_mem a hfirst, mem_cons_of_mem a hsecond⟩

section Parts

variable {P Q : Formula → Prop} {parts : List Formula} (hparts : ∀ f ∈ parts, P f)

include hparts

/-- What holds of the parts of a given conjunction, and of a given formula that is neither a conjunction nor a constant, holds of
all conjuncts. -/
theorem forall_conjuncts (hand : ∀ fs, P (.and fs) → ∀ f ∈ fs, Q f)
    (hother : ∀ f, P f → f ≠ .top → f ≠ .bot → (∀ gs, f ≠ .and gs) → Q f) (h : conjuncts? parts = some fs) : ∀ f ∈ fs, Q f := by
  fun_induction conjuncts? parts generalizing fs with
  | case1 =>
    cases h
    exact forall_mem_nil _
  | case2 rest ih => exact ih (forall_mem_cons.1 hparts).2 h
  | case3 => cases h
  | case4 inner rest ih =>
    obtain ⟨gs, hgs, rfl⟩ := Option.map_eq_some_iff.1 h
    obtain ⟨hinner, hrest⟩ := forall_mem_cons.1 hparts
    exact forall_mem_append.2 ⟨hand inner hinner, ih hrest hgs⟩
  | case5 f rest htop hbot hown ih =>
    obtain ⟨gs, hgs, rfl⟩ := Option.map_eq_some_iff.1 h
    obtain ⟨hf, hrest⟩ := forall_mem_cons.1 hparts
    exact forall_mem_cons.2 ⟨hother f hf htop hbot hown, ih hrest hgs⟩

theorem forall_disjuncts (hor : ∀ fs, P (.or fs) → ∀ f ∈ fs, Q f)
    (hother : ∀ f, P f → f ≠ .top → f ≠ .bot → (∀ gs, f ≠ .or gs) → Q f) (h : disjuncts? parts = some fs) : ∀ f ∈ fs, Q f := by
  fun_induction disjuncts? parts generalizing fs with
  | case1 =>
    cases h
    exact forall_mem_nil _
  | case2 rest ih => exact ih (forall_mem_cons.1 hparts).2 h
  | case3 => cases h
  | case4 inner rest ih =>
    obtain ⟨gs, hgs, rfl⟩ := Option.map_eq_some_iff.1 h
    obtain ⟨hinner, hrest⟩ := forall_mem_cons.1 hparts
    exact forall_mem_append.2 ⟨hor inner hinner, ih hrest hgs⟩
  | case5 f rest hbot htop hown ih =>
    obtain ⟨gs, hgs, rfl⟩ := Option.map_eq_some_iff.1 h
    obtain ⟨hf, hrest⟩ := forall_mem_cons.1 hparts
    exact forall_mem_cons.2 ⟨hother f hf htop hbot hown, ih hrest hgs⟩

theorem exactlyOne_of (hnot : ∀ {f}, P f → P (mkNot f)) (hand : ∀ {fs}, (∀ f ∈ fs, P f) → P (mkAnd fs))
    (hor : ∀ {fs}, (∀ f ∈ fs, P f) → P (mkOr fs)) : P (exactlyOne parts) := by
  refine hand (forall_mem_cons.2 ⟨hor hparts, forall_mem_map.2 fun p hp => hnot (hand ?_)⟩)
  obtain ⟨hfirst, hsecond⟩ := mem_of_mem_pairs hp
  simpa using ⟨hparts _ hfirst, hparts _ hsecond⟩

variable (htop : P .top) (hbot : P .bot) (hone : ∀ f, Q f → P f)

include htop hbot hone

/-- What holds of the constants and of each conjunct, and of a conjunction of two conjuncts or more, holds of the conjunction. -/
theorem mkAnd_of (hand : ∀ fs, P (.and fs) → ∀ f ∈ fs, Q f)
    (hother : ∀ f, P f → f ≠ .top → f ≠ .bot → (∀ gs, f ≠ .and gs) → Q f)
    (hmake : ∀ f g rest, (∀ h ∈ f :: g :: rest, Q h) → P (.and (f :: g :: rest))) : P (mkAnd parts) := by
  unfold mkAnd
  match hc : conjuncts? parts with
  | none => exact hbot
  | some [] => exact htop
  | some [f] => exact hone f (forall_conjuncts hparts hand hother hc f (by simp))
  | some (f :: g :: rest) => exact hmake f g rest (forall_conjuncts hparts hand hother hc)

theorem mkOr_of (hor : ∀ fs, P (.or fs) → ∀ f ∈ fs, Q f)
    (hother : ∀ f, P f → f ≠ .top → f ≠ .bot → (∀ gs, f ≠ .or gs) → Q f)
    (hmake : ∀ f g rest, (∀ h ∈ f :: g :: rest, Q h) → P (.or (f :: g :: rest))) : P (mkOr parts) := by
  unfold mkOr
  match hc : disjuncts? parts with
  | none => exact htop
  | some [] => exact hbot
  | some [f] => exact hone f (forall_disjuncts hparts hor hother hc f (by simp))
  | some (f :: g :: rest) => exact hmake f g rest (forall_disjuncts hparts hor hother hc)

end Parts

theorem normal_mkAnd (h : ∀ f ∈ parts, f.Normal) : (mkAnd parts).Normal := by
  refine mkAnd_of (Q := fun f => f.Proper ∧ ∀ gs, f ≠ .and gs) h .top .bot (fun f hf => .proper hf.1) ?_
    (fun f hf htop hbot hown => ⟨hf.proper_of htop hbot, hown⟩) ?_
  · intro fs hfs f hf
    cases hfs.proper_of nofun nofun with
    | and _ h hown => exact ⟨h f hf, hown f hf⟩
  · intro f g rest h
    exact .proper (.and (by simp) (fun f hf => (h f hf).1) fun f hf => (h f hf).2)

theorem normal_mkOr (h : ∀ f ∈ parts, f.Normal) : (mkOr parts).Normal := by
  refine mkOr_of (Q := fun f => f.Proper ∧ ∀ gs, f ≠ .or gs) h .top .bot (fun f hf => .proper hf.1) ?_
    (fun f hf htop hbot hown => ⟨hf.proper_of htop hbot, hown⟩) ?_
  · intro fs hfs f hf
    cases hfs.proper_of nofun nofun with
    | or _ h hown => exact ⟨h f hf, hown f hf⟩
  · intro f g rest h
    exact .proper (.or (by simp) (fun f hf => (h f hf).1) fun f hf => (h f hf).2)

theorem normal_mkForAll (vars : List Binder) (h : body.Normal) : (mkForAll vars body).Normal := by
  unfold mkForAll
  split
  · exact h
  · exact h
  · split
    · exact h
    · cases h.proper_of nofun nofun with
      | forAll hvars h hown => exact .proper (.forAll (append_ne_nil_of_right_ne_nil _ hvars) h hown)
  · split
    · exact h
    · rename_i htop hbot hown hvars
      exact .proper (.forAll (by simpa using hvars) (h.proper_of htop hbot) hown)

theorem normal_mkForSome (vars : List Binder) (h : body.Normal) : (mkForSome vars body).Normal := by
  unfold mkForSome
  split
  · exact h
  · exact h
  · split
    · exact h
    · cases h.proper_of nofun nofun with
      | forSome hvars h hown => exact .proper (.forSome (append_ne_nil_of_right_ne_nil _ hvars) h hown)
  · split
    · exact h
    · rename_i htop hbot hown hvars
      exact .proper (.forSome (by simpa using hvars) (h.proper_of htop hbot) hown)

theorem normal_mkImplies (ha : a.Normal) (hb : b.Normal) : (mkImplies a b).Normal := by
  unfold mkImplies
  split
  · exact hb
  · exact .top
  · exact .top
  · exact normal_mkNot ha
  · exact .proper (.implies (ha.proper_of ‹_› ‹_›) (hb.proper_of ‹_› ‹_›))

theorem normal_mkIff (ha : a.Normal) (hb : b.Normal) : (mkIff a b).Normal := by
  unfold mkIff
  split
  · exact hb
  · exact ha
  · exact normal_mkNot hb
  · exact normal_mkNot ha
  · split
    · exact .top
    · exact .proper (.iff (ha.proper_of ‹_› ‹_›) (hb.proper_of ‹_› ‹_›) ‹_›)

/-- Each simplifying constructor keeps formulas in normal form, whichever part of its arguments it brings to the top. -/
theorem Built.normal {f : Formula} (h : f.Built) : f.Normal := by
  induction h with
  | top => exact .top
  | bot => exact .bot
  | atom p args => exact .proper (.atom p args)
  | mkEq a b =>
    unfold StoreCheck.Formula.mkEq
    split
    · exact .top
    · exact .proper (.eq ‹_›)
  | mkNot _ ih => exact normal_mkNot ih
  | mkAnd _ ih => exact normal_mkAnd ih
  | mkOr _ ih => exact normal_mkOr ih
  | mkImplies _ _ iha ihb => exact normal_mkImplies iha ihb
  | mkIff _ _ iha ihb => exact normal_mkIff iha ihb
  | mkForAll vars _ ih => exact normal_mkForAll vars ih
  | mkForSome vars _ ih => exact normal_mkForSome vars ih

/-- The simplifying constructors make no junction of fewer than two parts and no quantifier without variables. -/
theorem Built.plain {f : Formula} (h : f.Built) : f.Plain := by
  cases h.normal with
  | top | bot => exact trivial
  | proper h => exact h.plain

/-! ## Rebuilding -/

mutual

/-- The formula that the simplifying constructors make of it, from its atoms up. -/
def rebuild : Formula → Formula
  | .top => .top
  | .bot => .bot
  | .atom p args => .atom p args
  | .eq a b => mkEq a b
  | .not f => mkNot f.rebuild
  | .and parts => mkAnd (rebuildAll parts)
  | .or parts => mkOr (rebuildAll parts)
  | .implies a b => mkImplies a.rebuild b.rebuild
  | .iff a b => mkIff a.rebuild b.rebuild
  | .forAll vars body => mkForAll vars body.rebuild
  | .forSome vars body => mkForSome vars body.rebuild

def rebuildAll : List Formula → List Formula
  | [] => []
  | f :: rest => f.rebuild :: rebuildAll rest

end

theorem rebuildAll_eq_self : ∀ {fs : List Formula}, (∀ f ∈ fs, f.rebuild = f) → rebuildAll fs = fs
  | [], _ => rfl
  | f :: rest, h => by
    obtain ⟨hf, hrest⟩ := forall_mem_cons.1 h
    rw [rebuildAll, hf, rebuildAll_eq_self hrest]

theorem conjuncts?_eq_self : ∀ {fs : List Formula}, (∀ f ∈ fs, f.Proper) → (∀ f ∈ fs, ∀ gs, f ≠ .and gs) →
    conjuncts? fs = some fs
  | [], _, _ => rfl
  | f :: rest, h, hown => by
    obtain ⟨hf, hrest⟩ := forall_mem_cons.1 h
    obtain ⟨hf', hrest'⟩ := forall_mem_cons.1 hown
    have ih := conjuncts?_eq_self hrest hrest'
    cases hf with
    | and => exact absurd rfl (hf' _)
    | _ => simp [conjuncts?, ih]

theorem disjuncts?_eq_self : ∀ {fs : List Formula}, (∀ f ∈ fs, f.Proper) → (∀ f ∈ fs, ∀ gs, f ≠ .or gs) →
    disjuncts? fs = some fs
  | [], _, _ => rfl
  | f :: rest, h, hown => by
    obtain ⟨hf, hrest⟩ := forall_mem_cons.1 h
    obtain ⟨hf', hrest'⟩ := forall_mem_cons.1 hown
    have ih := disjuncts?_eq_self hrest hrest'
    cases hf with
    | or => exact absurd rfl (hf' _)
    | _ => simp [disjuncts?, ih]

/-- Nothing in a formula in normal form is left to simplify. -/
theorem Proper.rebuild_eq_self {f : Formula} (h : f.Proper) : f.rebuild = f := by
  induction h with
  | atom => rfl
  | eq hne => rw [rebuild, mkEq, if_neg hne]
  | not h hown ih =>
    rw [rebuild, ih]
    cases h <;> first | rfl | exact absurd rfl (hown _)
  | @and parts hlength h hown ih =>
    rw [rebuild, rebuildAll_eq_self ih, mkAnd, conjuncts?_eq_self h hown]
    match parts, hlength with
    | _ :: _ :: _, _ => rfl
  | @or parts hlength h hown ih =>
    rw [rebuild, rebuildAll_eq_self ih, mkOr, disjuncts?_eq_self h hown]
    match parts, hlength with
    | _ :: _ :: _, _ => rfl
  | implies ha hb iha ihb =>
    rw [rebuild, iha, ihb]
    cases ha <;> cases hb <;> rfl
  | @iff a b ha hb hne iha ihb =>
    rw [rebuild, iha, ihb]
    have : mkIff a b = if a = b then .top else .iff a b := by cases ha <;> cases hb <;> rfl
    rw [this, if_neg hne]
  | forAll hvars h hown ih | forSome hvars h hown ih =>
    rw [rebuild, ih]
    cases h <;> first | exact absurd rfl (hown _ _) | simp [mkForAll, mkForSome, hvars]

end Formula

/-- Every formula that the simplifying constructors make from atoms, one of some formulas included, is true, false, or in normal
form without constants; and every formula in normal form is what the constructors make of it from its atoms up. -/
theorem built_formulas_normal :
    (∀ f : Formula, f.Built → f.Normal) ∧ (∀ parts : List Formula, (∀ f ∈ parts, f.Built) → (Formula.exactlyOne parts).Built) ∧
      ∀ f : Formula, f.Normal → f.rebuild = f := by
  refine ⟨fun f h => h.normal, fun parts h => Formula.exactlyOne_of h .mkNot .mkAnd .mkOr, fun f h => ?_⟩
  cases h with
  | top | bot => rfl
  | proper h => exact h.rebuild_eq_self

/-- That exactly one of three atoms is true, under quantifiers that are merged, is in normal form and rebuilt as it is. -/
theorem built_formulas_normal_choice :
    let atoms : List Formula := [.atom ⟨0⟩ [.var "V1"], .atom ⟨1⟩ [.var "V2"], .atom ⟨2⟩ []]
    let f := Formula.mkForAll [⟨"V1", ⟨0⟩⟩] (.mkForAll [⟨"V2", ⟨0⟩⟩] (.exactlyOne atoms))
    (∀ a ∈ atoms, a.Built) ∧ f.Built ∧ f.Normal ∧ f.rebuild = f := by
  intro atoms f
  obtain ⟨hnormal, hone, hrebuild⟩ := built_formulas_normal
  have hatoms : ∀ a ∈ atoms, a.Built := by simpa [atoms] using ⟨.atom _ _, .atom _ _, .atom _ _⟩
  have hf : f.Built := .mkForAll _ (.mkForAll _ (hone atoms hatoms))
  exact ⟨hatoms, hf, hnormal f hf, hrebuild f (hnormal f hf)⟩

end StoreCheck
