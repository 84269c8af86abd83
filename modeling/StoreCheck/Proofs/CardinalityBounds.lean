import Mathlib.Data.Set.Card
import StoreCheck.CardinalityInvariant
import StoreCheck.Proofs.Logic.Naming
import StoreCheck.Proofs.Logic.Semantics
import StoreCheck.Proofs.WellFormed
import StoreCheck.Proofs.World

/-!
# What the invariants of relations say

The invariant of a relation writes its bounds out with one variable for each target. Variables that range over a set one after
another stand for a list of its elements (`forSome_overTargets`), distinct elements for a list without repeats, and such lists
of a length exist exactly if the set is that large (`le_encard_iff`). So the invariant bounds the number of targets of each object
of the source class. The relation is named there, not given: a class that is declared before the source class, and that the
source class inherits from, may own another relation of the name, and then it is this relation whose targets are counted.
-/

namespace StoreCheck

open List ClassGraph FormulaExpr

variable {n : Nat} {types : TypeEnv} {decls : List ClassDecl}

/-! ## Sizes -/

/-- The size of the set is within the bounds. -/
def Cardinality.Admits {α : Type} (c : Cardinality) (X : Set α) : Prop :=
  (c.lower.toNat : ℕ∞) ≤ X.encard ∧ ∀ u, c.upper = some u → X.encard ≤ u.toNat

/-- A set is as large as the lists of its elements without repeats are long. -/
theorem le_encard_iff {α : Type} {X : Set α} :
    (n : ℕ∞) ≤ X.encard ↔ ∃ os : List α, os.length = n ∧ (∀ o ∈ os, o ∈ X) ∧ os.Nodup := by
  classical
  constructor
  · intro h
    obtain ⟨Y, hY, hcard⟩ := Set.exists_subset_encard_eq h
    have hfinite : Y.Finite := Set.finite_of_encard_eq_coe hcard
    refine ⟨hfinite.toFinset.toList, ?_, fun o ho => hY (by simpa using ho), Finset.nodup_toList _⟩
    rw [hfinite.encard_eq_coe_toFinset_card] at hcard
    rw [Finset.length_toList]
    exact_mod_cast hcard
  · rintro ⟨os, rfl, hos, hnodup⟩
    have hcard : (os.length : ℕ∞) = (os.toFinset : Set α).encard := by
      rw [Set.encard_coe_eq_coe_finsetCard, toFinset_card_of_nodup hnodup]
    rw [hcard]
    exact Set.encard_le_encard fun o ho => hos o (by simpa using ho)

theorem encard_le_iff {α : Type} {X : Set α} :
    X.encard ≤ n ↔ ∀ os : List α, os.length = n + 1 → (∀ o ∈ os, o ∈ X) → ¬ os.Nodup := by
  rw [← not_lt, ← ENat.add_one_le_iff (by simp), ← Nat.cast_one, ← Nat.cast_add, le_encard_iff]
  push Not
  rfl

namespace CardinalityInvariant

variable {U : Universe} {store : Store} {st : State U}

/-! ## Variables over targets -/

/-- The values after the variables have taken the objects. -/
def valued (vars : Vars U) : List String → List U.Obj → Vars U
  | y :: ys, o :: os => valued (vars.set y {o}) ys os
  | _, _ => vars

theorem valued_other (vars : Vars U) : ∀ {ys : List String} {os : List U.Obj}, x ∉ ys → valued vars ys os x = vars x
  | [], _, _ => rfl
  | _ :: _, [], _ => rfl
  | y :: ys, o :: os, hx => by
    rw [mem_cons, not_or] at hx
    rw [valued, valued_other _ hx.2, Vars.set_other _ _ hx.1]

/-- Distinct variables have the objects as their values, in order. -/
theorem map_valued (vars : Vars U) : ∀ {ys : List String} {os : List U.Obj}, ys.Nodup → os.length = ys.length →
    ys.map (valued vars ys os) = os.map fun o => {o}
  | [], [], _, _ => rfl
  | y :: ys, o :: os, hnodup, hlength => by
    obtain ⟨hy, hys⟩ := nodup_cons.1 hnodup
    rw [map_cons, map_cons, valued, valued_other _ hy, Vars.set_same, map_valued _ hys (Nat.succ.inj hlength)]

/-- The variable `x` is an object of a class from which the relation's name leads to the relation `s`. -/
structure Sees (store : Store) (r s : Relation) (types : TypeEnv) (vars : Vars U) (a : U.Obj) : Prop where
  value : vars "x" = {a}
  type : ∃ t, types.find? "x" = some t ∧ store.relationOn t.signature r.name = .ok s

variable {r s : Relation} {a : U.Obj}

theorem Sees.bind (h : Sees store r s types vars a) (hy : y ≠ "x") (t : ObjType) (X : Set U.Obj) :
    Sees store r s (types.insert y t) (vars.set y X) a := by
  obtain ⟨u, hu, hs⟩ := h.type
  refine ⟨by rw [Vars.set_other _ _ hy.symm, h.value], u, ?_, hs⟩
  rw [VarMap.find?_insert, if_neg hy.symm, hu]

theorem Sees.hasType (h : Sees store r s types vars a) : ∃ t, infer store types (targets r) = .ok t := by
  obtain ⟨u, hu, hs⟩ := h.type
  refine ⟨targetType u s, infer_deref_ok.2 ⟨u, s, ?_, hs, rfl⟩⟩
  rw [infer, TypeEnv.typeOf, hu]

/-- The targets are those of the relation that the name stands for. -/
theorem Sees.denotes (h : Sees store r s types vars a) : (targets r).Denotes store types st vars X ↔ X = st.targets s {a} := by
  obtain ⟨u, hu, hs⟩ := h.type
  have hinfer : infer store types (.var "x") = .ok u := by rw [infer, TypeEnv.typeOf, hu]
  constructor
  · rintro ⟨Y, t, s', hY, ht, hs', rfl⟩
    cases hinfer.symm.trans ht
    cases hs.symm.trans hs'
    rw [hY, h.value]
  · rintro rfl
    exact ⟨_, u, s, by rw [ObjExpr.Denotes], hinfer, hs, by rw [h.value]⟩

theorem forSome_overTargets {Q : Vars U → Prop} (hP : ∀ types vars, P types vars ↔ Q vars) :
    ∀ {ys : List String} {types : TypeEnv} {vars : Vars U}, "x" ∉ ys → Sees store r s types vars a →
      (QuantVar.ForSome store st P (overTargets r ys) types vars ↔
        ∃ os : List U.Obj, os.length = ys.length ∧ (∀ o ∈ os, o ∈ st.targets s {a}) ∧ Q (valued vars ys os))
  | [], types, vars, _, _ => by
    refine (hP types vars).trans ⟨fun h => ⟨[], rfl, by simp, h⟩, ?_⟩
    rintro ⟨os, -, -, h⟩
    exact h
  | y :: ys, _, _, hx, hsees => by
    rw [mem_cons, not_or] at hx
    obtain ⟨t, ht⟩ := hsees.hasType
    constructor
    · rintro ⟨t', X, ht', hX, o, ho, h⟩
      obtain ⟨os, hlength, hos, hQ⟩ := (forSome_overTargets hP hx.2 (hsees.bind (Ne.symm hx.1) _ _)).1 h
      refine ⟨o :: os, by simp [hlength], forall_mem_cons.2 ⟨hsees.denotes.1 hX ▸ ho, hos⟩, hQ⟩
    · rintro ⟨os, hlength, hos, hQ⟩
      cases os with
      | nil => cases hlength
      | cons o os =>
        obtain ⟨ho, hos⟩ := forall_mem_cons.1 hos
        exact ⟨t, _, ht, hsees.denotes.2 rfl, o, ho, (forSome_overTargets hP hx.2 (hsees.bind (Ne.symm hx.1) _ _)).2
          ⟨os, Nat.succ.inj hlength, hos, hQ⟩⟩

theorem forAll_overTargets {Q : Vars U → Prop} (hP : ∀ types vars, P types vars ↔ Q vars) :
    ∀ {ys : List String} {types : TypeEnv} {vars : Vars U}, "x" ∉ ys → Sees store r s types vars a →
      (QuantVar.ForAll store st P (overTargets r ys) types vars ↔
        ∀ os : List U.Obj, os.length = ys.length → (∀ o ∈ os, o ∈ st.targets s {a}) → Q (valued vars ys os))
  | [], types, vars, _, _ => by
    refine (hP types vars).trans ⟨?_, fun h => h [] rfl (by simp)⟩
    intro h os hlength _
    rwa [eq_nil_of_length_eq_zero hlength]
  | y :: ys, _, _, hx, hsees => by
    rw [mem_cons, not_or] at hx
    obtain ⟨t, ht⟩ := hsees.hasType
    constructor
    · rintro ⟨t', X, ht', hX, h⟩ os hlength hos
      cases os with
      | nil => cases hlength
      | cons o os =>
        obtain ⟨ho, hos⟩ := forall_mem_cons.1 hos
        exact (forAll_overTargets hP hx.2 (hsees.bind (Ne.symm hx.1) _ _)).1 (h o (hsees.denotes.1 hX ▸ ho)) os
          (Nat.succ.inj hlength) hos
    · intro h
      refine ⟨t, _, ht, hsees.denotes.2 rfl, fun o ho => ?_⟩
      refine (forAll_overTargets hP hx.2 (hsees.bind (Ne.symm hx.1) _ _)).2 fun os hlength hos => ?_
      exact h (o :: os) (by simp [hlength]) (forall_mem_cons.2 ⟨ho, hos⟩)

/-! ## The bounds -/

theorem length_witnesses (n : Nat) : (witnesses n).length = n := by simp [witnesses]

theorem nodup_witnesses (n : Nat) : (witnesses n).Nodup := by
  refine List.Nodup.map (fun i j h => ?_) nodup_range
  have := toString_nat_injective ((String.append_right_inj "y").1 h)
  omega

theorem x_notMem_witnesses (n : Nat) : "x" ∉ witnesses n := by
  intro h
  obtain ⟨i, -, hi⟩ := mem_map.1 h
  have hhead := congrArg (fun s => s.toList.head?) hi
  simp at hhead

theorem holds_equal_vars (x y : String) : (equal [.var x, .var y]).Holds store st types vars ↔ vars x = vars y := by
  constructor
  · rintro ⟨_, ⟨X, _, rfl, rfl, Y, _, rfl, rfl, rfl⟩, hsame⟩
    exact hsame _ (by simp) _ (by simp)
  · intro heq
    exact ⟨_, ⟨_, _, rfl, rfl, _, _, rfl, rfl, rfl⟩, by simp [heq]⟩

/-- Distinct variables that stand for a list of objects have different values exactly if the list has no repeats. -/
theorem pairwise_valued (vars : Vars U) {ys : List String} {os : List U.Obj} (hys : ys.Nodup) (hlength : os.length = ys.length) :
    (∀ p ∈ Formula.pairs ys, valued vars ys os p.1 ≠ valued vars ys os p.2) ↔ os.Nodup := by
  have hmap : (ys.map (valued vars ys os)).Nodup ↔ os.Nodup := by
    rw [map_valued vars hys hlength]
    exact nodup_map_iff Set.singleton_injective
  rw [← hmap, List.Nodup, pairwise_map]
  exact forall_mem_pairs (R := fun y z => valued vars ys os y ≠ valued vars ys os z) ys

theorem holds_atLeast (n : Nat) (h : Sees store r s types vars a) :
    (atLeast r n).Holds store st types vars ↔ (n : ℕ∞) ≤ (st.targets s {a}).encard := by
  rw [atLeast, FormulaExpr.Holds, forSome_overTargets (Q := fun v => ∀ p ∈ Formula.pairs (witnesses n), v p.1 ≠ v p.2) ?_
    (x_notMem_witnesses n) h, le_encard_iff]
  · simp only [length_witnesses]
    refine exists_congr fun os => and_congr_right fun hlength => and_congr_right fun _ => ?_
    exact pairwise_valued _ (nodup_witnesses n) (by rw [hlength, length_witnesses])
  · intro types vars
    rw [FormulaExpr.Holds, holdAll_iff, forall_mem_map]
    refine forall₂_congr fun p _ => ?_
    exact not_congr (holds_equal_vars p.1 p.2)

theorem holds_atMost (n : Nat) (h : Sees store r s types vars a) :
    (atMost r n).Holds store st types vars ↔ (st.targets s {a}).encard ≤ n := by
  unfold atMost
  split
  · rename_i hzero
    rw [FormulaExpr.Holds, h.denotes, hzero, Nat.cast_zero, nonpos_iff_eq_zero, Set.encard_eq_zero, eq_comm]
  · rw [FormulaExpr.Holds, forAll_overTargets (Q := fun v => ∃ p ∈ Formula.pairs (witnesses (n + 1)), v p.1 = v p.2) ?_
      (x_notMem_witnesses _) h, encard_le_iff]
    · simp only [length_witnesses]
      refine forall₃_congr fun os hlength _ => ?_
      rw [← pairwise_valued vars (nodup_witnesses (n + 1)) (by rw [hlength, length_witnesses])]
      simp
    · intro types vars
      rw [FormulaExpr.Holds, holdSome_iff]
      simp only [mem_map, exists_exists_and_eq_and, holds_equal_vars]

/-- The invariant of a relation bounds the targets that its name leads to. -/
theorem holds_ofRelation (hclass : store.graph.resolve (store.graph.name r.source) = .ok r.source)
    (hs : store.relationOn (.ofClass r.source) r.name = .ok s) :
    (ofRelation store r).formula.Holds store st [] (fun _ => ∅) ↔
      ∀ a ∈ st.ofClass r.source, r.cardinality.Admits (st.targets s {a}) := by
  have hinfer : infer store [] (.allOf (store.graph.name r.source)) = .ok (.ofClass r.source) := by
    rw [infer, hclass]
    rfl
  have hsees : ∀ a : U.Obj, Sees store r s (VarMap.insert [] "x" (ObjType.ofClass r.source).single)
      (Vars.set (fun _ => ∅) "x" {a}) a :=
    fun a => ⟨Vars.set_same _ _ _, _, by rw [VarMap.find?_insert, if_pos rfl], hs⟩
  have hlower : ∀ a : U.Obj, (∀ f ∈ if r.cardinality.lower > 0 then [atLeast r r.cardinality.lower.toNat] else [],
      f.Holds store st (VarMap.insert [] "x" (ObjType.ofClass r.source).single) (Vars.set (fun _ => ∅) "x" {a})) ↔
      (r.cardinality.lower.toNat : ℕ∞) ≤ (st.targets s {a}).encard := by
    intro a
    split
    · rw [forall_mem_singleton, holds_atLeast _ (hsees a)]
    · rename_i hzero
      have : r.cardinality.lower.toNat = 0 := by simpa [UInt32.lt_iff_toNat_lt] using hzero
      simp [this]
  rw [ofRelation, FormulaExpr.Holds, QuantVar.ForAll]
  simp only [hinfer, Except.ok.injEq, ObjExpr.Denotes, hclass, QuantVar.ForAll, FormulaExpr.Holds, holdAll_iff,
    forall_mem_append, exists_eq_left', existsAndEq, true_and, hlower, Cardinality.Admits]
  refine forall₂_congr fun a _ => and_congr_right fun _ => ?_
  cases r.cardinality.upper with
  | none => simp
  | some u => simp [holds_atMost _ (hsees a)]

end CardinalityInvariant

/-! ## Names of relations -/

namespace Store

theorem resolve_name (h : ofDecls decls = .ok g) {c : ClassId} (hc : c.index < g.size) :
    g.resolve (g.name c) = .ok c := by
  obtain ⟨hnames, -, found, -, hg⟩ := ofDecls_ok h
  have hnodup : g.names.Nodup := by
    rw [hg]
    exact hnames
  have hlt : c.index < g.names.length := hc
  exact (resolveIn_iff hnodup).2 (by simp [name, hlt])

theorem pairwise_closure (g : ClassGraph) (s : Signature) : (g.closure s).Pairwise fun c d => c.index < d.index := by
  refine List.Pairwise.filter _ ?_
  rw [ids, idsUpTo, pairwise_map]
  exact pairwise_lt_range

/-- From its source class the name of a relation leads to a relation, and to the relation itself exactly if no ancestor that is
declared before the source class has a relation of the name. -/
theorem WellFormed.relationOn_source {store : Store} (hs : store.WellFormed) (hg : ofDecls decls = .ok store.graph)
    (hr : r ∈ store.relations) :
    ∃ s, store.relationOn (.ofClass r.source) r.name = .ok s ∧
      (s = r ↔ ∀ c ∈ store.graph.ancestorsOf r.source, c.index < r.source.index →
        ownedIn store.relations c r.name = none) := by
  have hself : ownedIn store.relations r.source r.name = some r := (ownedIn_iff hs.keys).2 ⟨hr, rfl⟩
  have hmem : ∀ c : ClassId, c ∈ store.graph.closure (.ofClass r.source) ↔
      c = r.source ∨ c ∈ store.graph.ancestorsOf r.source := by
    intro c
    have hids : c = r.source ∨ c ∈ store.graph.ancestorsOf r.source → c ∈ store.graph.ids := by
      rintro (rfl | hc)
      · exact mem_idsUpTo.2 (hs.source r hr)
      · exact (ancestorsOf_sublist hg _).subset hc
    rw [mem_closure]
    simpa [Signature.ofClass, eq_comm] using hids
  cases hfind : (store.graph.closure (.ofClass r.source)).findSome? fun c => ownedIn store.relations c r.name with
  | none =>
    have := findSome?_eq_none_iff.1 hfind r.source ((hmem _).2 (.inl rfl))
    rw [hself] at this
    cases this
  | some s =>
    refine ⟨s, by rw [relationOn, hfind], ?_⟩
    -- the classes before the one that is found are those declared before it
    obtain ⟨before, d, after, hsplit, hd, hbefore⟩ := findSome?_eq_some_iff.1 hfind
    have hsorted := pairwise_closure store.graph (.ofClass r.source)
    rw [hsplit] at hsorted
    have hearlier : ∀ c : ClassId, (c = r.source ∨ c ∈ store.graph.ancestorsOf r.source) → c.index < d.index →
        ownedIn store.relations c r.name = none := by
      intro c hc hlt
      have hc' : c ∈ before ++ d :: after := hsplit ▸ (hmem c).2 hc
      rcases mem_append.1 hc' with hc' | hc'
      · exact hbefore c hc'
      · rcases mem_cons.1 hc' with rfl | hc'
        · exact absurd hlt (Nat.lt_irrefl _)
        · have := (pairwise_cons.1 (pairwise_append.1 hsorted).2.1).1 c hc'
          omega
    obtain ⟨hsmem, hskey⟩ := (ownedIn_iff hs.keys).1 hd
    constructor
    · rintro rfl
      have hds : s.source = d := congrArg Prod.fst hskey
      exact fun c hc hlt => hearlier c (.inr hc) (hds ▸ hlt)
    · intro hnone
      rcases Nat.lt_trichotomy d.index r.source.index with hlt | heq | hlt
      · rcases (hmem d).1 (hsplit ▸ by simp) with rfl | hanc
        · exact absurd hlt (Nat.lt_irrefl _)
        · rw [hnone d hanc hlt] at hd
          cases hd
      · rw [show d = r.source from congrArg ClassId.mk heq, hself] at hd
        exact (Option.some.inj hd).symm
      · rw [hearlier r.source (.inl rfl) hlt] at hself
        cases hself

end Store

/-- For every valid store whose invariants can be written out, every relation with bounds, and every state of the store: the
invariant of the relation is among them, and it is true exactly if each existing object of the source class has as many targets
as the bounds say, along the relation that the name of the relation stands for at its source class. This is the relation itself
exactly if no ancestor of the source class that is declared before it has a relation of the same name. -/
theorem cardinalities_counted (spec : Spec) (store : Store) (hspec : Store.ofSpec spec = .ok store) (invariants : List Invariant)
    (hinvariants : store.cardinalityInvariants = .ok invariants) (r : Relation) (hr : r ∈ store.relations)
    (hbounds : r.cardinality.isTrivial = false) :
    CardinalityInvariant.ofRelation store r ∈ invariants ∧
      ∃ s, store.relationOn (.ofClass r.source) r.name = .ok s ∧
        (s = r ↔ ∀ c ∈ store.graph.ancestorsOf r.source, c.index < r.source.index →
          Store.ownedIn store.relations c r.name = none) ∧
        ∀ (U : Universe) (st : State U),
          ((CardinalityInvariant.ofRelation store r).formula.Holds store st [] (fun _ => ∅) ↔
            ∀ a ∈ st.ofClass r.source, r.cardinality.Admits {b | st.Leads s.base s.flipped a b}) := by
  have hs := Store.wellFormed_ofSpec hspec
  obtain ⟨decls, hg⟩ := Store.graph_ofSpec hspec
  obtain ⟨s, hrelation, hself⟩ := hs.relationOn_source hg hr
  refine ⟨?_, s, hrelation, hself, fun U st => ?_⟩
  · have hall := exceptMapM_ok.mp hinvariants
    have hmem : r ∈ store.relations.filter fun r => !r.cardinality.isTrivial := List.mem_filter.mpr ⟨hr, by simp [hbounds]⟩
    obtain ⟨i, hi, hget⟩ := List.mem_iff_getElem.mp hmem
    obtain ⟨-, -, hinvariant⟩ := exceptBind_ok.mp (hall.get hi (hall.length_eq ▸ hi))
    rw [List.get_eq_getElem, hget] at hinvariant
    rw [Except.ok.inj hinvariant]
    exact List.getElem_mem _
  · rw [CardinalityInvariant.holds_ofRelation (Store.resolve_name hg (hs.source r hr)) hrelation]
    simp [State.targets]

namespace Club

/-- Persons know persons; each member of the club also knows one member in its own way, and sponsors at most two persons. -/
def spec : Spec where
  classes := [⟨"Person", []⟩, ⟨"Member", ["Person"]⟩]
  relations := [⟨"Person", "knows", "Person", .any, none⟩, ⟨"Member", "knows", "Member", .one, none⟩,
    ⟨"Member", "sponsors", "Person", ⟨0, some 2⟩, none⟩]
  actions := []
  invariants := []

def store : Store := (Store.ofSpec spec).toOption.get (by decide +kernel)

theorem ofSpec_spec : Store.ofSpec spec = .ok store := toOption_get_ok _

def knows : Relation := ⟨⟨1⟩, "knows", ⟨1⟩, ⟨1⟩, .one, none⟩

def sponsors : Relation := ⟨⟨2⟩, "sponsors", ⟨1⟩, ⟨0⟩, ⟨0, some 2⟩, none⟩

/-- What is computed of the club. -/
theorem store_facts : store.cardinalityInvariants.toOption.isSome = true ∧ knows ∈ store.relations ∧ sponsors ∈ store.relations ∧
    (∀ c ∈ store.graph.ancestorsOf ⟨1⟩, Store.ownedIn store.relations c "sponsors" = none) ∧
    store.graph.resolve (store.graph.name ⟨1⟩) = .ok ⟨1⟩ := by
  refine ⟨?_, ?_, ?_, ?_, ?_⟩
  all_goals decide +kernel

/-- One member, who knows itself as members do. -/
def lonely : State ⟨Unit, fun _ _ => True⟩ where
  alive _ := True
  linked id _ _ := id = ⟨1⟩

end Club

/-- Nobody but a member sponsors, so the bound on sponsoring is a bound on the sponsored persons of each member. -/
theorem cardinalities_counted_sponsors : Store.ofSpec Club.spec = .ok Club.store ∧
    ∃ invariants, Club.store.cardinalityInvariants = .ok invariants ∧ Club.sponsors ∈ Club.store.relations ∧
      Club.sponsors.cardinality.isTrivial = false ∧ CardinalityInvariant.ofRelation Club.store Club.sponsors ∈ invariants ∧
      ∀ (U : Universe) (st : State U),
        ((CardinalityInvariant.ofRelation Club.store Club.sponsors).formula.Holds Club.store st [] (fun _ => ∅) ↔
          ∀ a ∈ st.ofClass ⟨1⟩, Club.sponsors.cardinality.Admits {b | st.linked ⟨2⟩ a b}) := by
  obtain ⟨hsome, -, hmem, hnone, -⟩ := Club.store_facts
  obtain ⟨hin, s, -, hself, hcounted⟩ := cardinalities_counted Club.spec Club.store Club.ofSpec_spec _ (toOption_get_ok hsome)
    Club.sponsors hmem (by decide)
  cases hself.mpr fun c hc _ => hnone c hc
  exact ⟨Club.ofSpec_spec, _, toOption_get_ok hsome, hmem, by decide, hin, hcounted⟩

/-- The name that members know each other by leads to what persons know: the lonely member knows one member, as the bounds say,
and the invariant is false. -/
theorem members_miscounted_lonely : Store.ofSpec Club.spec = .ok Club.store ∧
    Club.store.cardinalityInvariants.toOption.isSome = true ∧ Club.knows ∈ Club.store.relations ∧
    Club.knows.cardinality.isTrivial = false ∧
    (∀ a ∈ Club.lonely.ofClass Club.knows.source,
      Club.knows.cardinality.Admits {b | Club.lonely.Leads Club.knows.base Club.knows.flipped a b}) ∧
    ¬ (CardinalityInvariant.ofRelation Club.store Club.knows).formula.Holds Club.store Club.lonely [] (fun _ => ∅) := by
  obtain ⟨hsome, hmem, -, -, hclass⟩ := Club.store_facts
  refine ⟨Club.ofSpec_spec, hsome, hmem, by decide, fun a _ => ?_, ?_⟩
  · have hself : {b | Club.lonely.Leads Club.knows.base Club.knows.flipped a b} = {()} :=
      Set.eq_singleton_iff_unique_mem.mpr ⟨rfl, fun _ _ => rfl⟩
    rw [hself]
    simp [Cardinality.Admits, Club.knows, Cardinality.one]
  · obtain ⟨s, hs, hid⟩ := exists_ok_of_any (x := Club.store.relationOn (.ofClass ⟨1⟩) "knows")
      (p := fun s => s.base = ⟨0⟩ && !s.flipped) (by decide +kernel)
    rw [CardinalityInvariant.holds_ofRelation hclass hs]
    intro h
    simp only [Bool.and_eq_true, decide_eq_true_eq, Bool.not_eq_true'] at hid
    have hnobody : Club.lonely.targets s {()} = ∅ := by
      refine Set.eq_empty_of_forall_notMem ?_
      rintro b ⟨a, -, hleads⟩
      rw [hid.1, hid.2] at hleads
      cases hleads
    have hlower := (h () ⟨trivial, trivial⟩).1
    rw [hnobody] at hlower
    simp [Club.knows, Cardinality.one] at hlower

end StoreCheck
