import StoreCheck.Proofs.CardinalityBounds
import StoreCheck.Proofs.Encoding.LoopMeaning

/-!
# Counting formulas count

A counting formula speaks of as many elements as it has variables; the elements are a list, and it has no repeats exactly if the
variables differ in pairs. So the formulas bound the size of a set in any structure, and the axioms on a parameter say that it is
a set of initially existing objects of its class whose size is within the bounds.
-/

namespace StoreCheck

open List Formula Counting Layout VarGen

variable {k : Nat} {sort : SortId} {g : VarGen}

variable {M : Structure} {ρ : M.Env}

theorem VarGen.forSome_binders (sorts : List SortId) (g : VarGen) (P : M.Env → Prop) (ρ : M.Env) :
    M.ForSome (binders sorts g).1.1 P ρ ↔ ∃ es : List M.Elem, es.map M.sort = sorts ∧ P (ρ.setFrom g.count es) := by
  rw [Structure.forSome_iff_not_forAll, forAll_binders]
  push Not
  rfl

namespace Counting

/-- The formula says of a term, wherever the variables taken so far have their values, that its element has the property. -/
def Tests (M : Structure) (ρ : M.Env) (g : VarGen) (member : Term → Formula) (P : M.Elem → Prop) : Prop :=
  ∀ ρ' : M.Env, Valuation.Agree g.count ρ ρ' → ∀ t : Term, (member t).Holds M ρ' ↔ P (t.eval M ρ')

theorem map_sort_iff {es : List M.Elem} : es.map M.sort = List.replicate k sort ↔ es.length = k ∧ ∀ e ∈ es, M.sort e = sort := by
  rw [eq_replicate_iff, length_map, forall_mem_map]

/-- What the variables of a counting formula say of the elements they stand for. -/
theorem holds_terms (sort : SortId) (h : Tests M ρ g member P) {es : List M.Elem} (hlength : es.length = k) :
    let terms := (binders (List.replicate k sort) g).1.2
    let ρ' := ρ.setFrom g.count es
    (∀ F ∈ terms.map member, F.Holds M ρ') = (∀ e ∈ es, P e) ∧
      ((∀ p ∈ pairs terms, p.1.eval M ρ' ≠ p.2.eval M ρ') ↔ es.Nodup) := by
  intro terms ρ'
  have heval : terms.map (Term.eval M ρ') = es := eval_binders _ g ρ es (by simp [hlength])
  have hmember := h ρ' (Valuation.agree_setFrom es ρ g.count)
  constructor
  · simp only [forall_mem_map, hmember, ← heval]
  · rw [forall_mem_pairs (R := fun s t => s.eval M ρ' ≠ t.eval M ρ') terms, ← pairwise_map, heval]
    rfl

theorem holds_atLeast (h : Tests M ρ g member P) :
    (atLeast k sort member g).1.Holds M ρ ↔ (k : ℕ∞) ≤ {e | M.sort e = sort ∧ P e}.encard := by
  change (mkForSome _ (.mkAnd (_ ++ (pairs _).map fun p => mkNot (.mkEq p.1 p.2)))).Holds M ρ ↔ _
  rw [holds_mkForSome, forSome_binders, le_encard_iff]
  refine exists_congr fun es => ?_
  rw [map_sort_iff, and_assoc]
  refine and_congr_right fun hlength => ?_
  obtain ⟨hall, hdistinct⟩ := holds_terms sort h hlength
  rw [holds_mkAnd, forall_mem_append, hall, forall_mem_map]
  simp only [holds_mkNot, holds_mkEq, hdistinct, Set.mem_ofPred_eq, forall_and, and_assoc]

theorem holds_atMost (h : Tests M ρ g member P) :
    (atMost k sort member g).1.Holds M ρ ↔ {e | M.sort e = sort ∧ P e}.encard ≤ k := by
  let vars := (binders (List.replicate (k + 1) sort) g).1
  change (mkForAll vars.1 (.mkImplies (.mkAnd (vars.2.map member))
    (.mkOr ((pairs vars.2).map fun p => mkEq p.1 p.2)))).Holds M ρ ↔ _
  rw [holds_mkForAll, forAll_binders, encard_le_iff]
  refine forall_congr' fun es => ?_
  rw [map_sort_iff, and_imp]
  refine forall_congr' fun hlength => ?_
  obtain ⟨hall, hdistinct⟩ := holds_terms sort h hlength
  rw [holds_mkImplies, holds_mkAnd, hall, holds_mkOr, ← hdistinct]
  simp only [mem_map, exists_exists_and_eq_and, holds_mkEq, Set.mem_ofPred_eq, forall₂_and, and_imp]
  push Not
  rfl

theorem tests_atom (p : PredId) (ρ : M.Env) (g : VarGen) : Tests M ρ g (fun o => .atom p [o]) fun e => M.pred p [e] :=
  fun _ _ _ => holds_atom _ _

end Counting

namespace Encode

/-- The elements of the sort of a class that the predicate holds of. -/
def membersOf (M : Structure) (L : Layout) (c : ClassId) (p : PredId) : Set M.Elem :=
  {e | M.sort e = L.classSort c ∧ M.pred p [e]}

/-- The elements that exist initially and belong to the class. -/
def initiallyOf (M : Structure) (L : Layout) (c : ClassId) : Set M.Elem :=
  {e | M.pred (L.initial.slot (L.classSort c)).pred [e] ∧ M.pred (L.classPreds.getD c.index ⟨0⟩) [e]}

theorem obeys_paramAxioms (hrun : paramAxioms L c bounds p s = .ok ((), t)) :
    M.Obeys ρ t ↔ M.Obeys ρ s ∧ membersOf M L c p ⊆ initiallyOf M L c ∧ bounds.Admits (membersOf M L c p) := by
  obtain ⟨b, o, s1, s2, lower, s3, s4, h1, h2, h3, h4, hupper⟩ := paramAxioms_ok hrun
  have htyped : M.Obeys ρ s2 ↔ M.Obeys ρ s ∧ membersOf M L c p ⊆ initiallyOf M L c := by
    rw [obeys_emit h2, Structure.obeys_congr (axioms_binder h1)]
    obtain ⟨⟨rfl, rfl⟩, -⟩ := Prod.mk.inj (binder_ok.1 h1) |>.imp_left Prod.mk.inj
    simp [Structure.ForAll, isClass, Snapshot.holds, Slot.holds, membersOf, initiallyOf, Set.subset_def, Term.eval]
  have hlower : M.Obeys ρ s4 ↔ M.Obeys ρ s2 ∧ (bounds.lower.toNat : ℕ∞) ≤ (membersOf M L c p).encard := by
    rw [obeys_emit h4, Structure.obeys_congr (axioms_fresh h3), (fresh_ok h3).1, holds_atLeast (tests_atom p ρ _)]
    rfl
  rw [Cardinality.Admits, ← and_assoc, ← and_assoc, ← htyped, ← hlower]
  obtain ⟨hnone, rfl⟩ | ⟨upper, most, s5, hsome, h5, h6⟩ := hupper
  · simp [hnone]
  · rw [obeys_emit h6, Structure.obeys_congr (axioms_fresh h5), (fresh_ok h5).1, holds_atMost (tests_atom p ρ _)]
    simp [hsome, membersOf]

end Encode

/-- In every structure the counting formulas bound the number of elements of a sort that pass a test, and the axioms of an
accepted parameter hold exactly if its predicate is a set of initially existing objects of its class, within the bounds. -/
theorem counting_formulas_count (M : Structure) (ρ : M.Env) :
    (∀ (k : Nat) (sort : SortId) (member : Term → Formula) (P : M.Elem → Prop) (g : VarGen), Counting.Tests M ρ g member P →
      ((Counting.atLeast k sort member g).1.Holds M ρ ↔ (k : ℕ∞) ≤ {e | M.sort e = sort ∧ P e}.encard) ∧
      ((Counting.atMost k sort member g).1.Holds M ρ ↔ {e | M.sort e = sort ∧ P e}.encard ≤ k)) ∧
    ∀ (L : Layout) (p : Param) (s t : Session), Encode.param L p s = .ok ((), t) →
      ∃ c, L.graph.resolve p.className = .ok c ∧ (M.Obeys ρ t ↔ M.Obeys ρ s ∧
        Encode.membersOf M L c ⟨s.symbols.predicates.length⟩ ⊆ Encode.initiallyOf M L c ∧
        p.cardinality.Admits (Encode.membersOf M L c ⟨s.symbols.predicates.length⟩)) := by
  refine ⟨fun k sort member P g h => ⟨holds_atLeast h, holds_atMost h⟩, fun L p s t hrun => ?_⟩
  obtain ⟨c, pred, s1, s2, hc, -, hpred, haxioms, rfl⟩ := Encode.param_ok hrun
  cases modifyGet_ok.mp hpred
  have hobeys := Encode.obeys_paramAxioms (M := M) (ρ := ρ) haxioms
  exact ⟨c, hc, hobeys⟩

namespace Club

/-- Two elements of each sort, of which everything is true. -/
def pair : Structure := ⟨SortId × Bool, Prod.fst, fun _ _ => (⟨0⟩, true), fun _ _ => True, fun s => ⟨(s, true), rfl⟩⟩

/-- All variables stand for the same element. -/
def fixed : pair.Env := fun _ => (⟨0⟩, true)

/-- A jury of one or two members. -/
def jury : Param := ⟨"jury", "Member", ⟨1, some 2⟩⟩

end Club

open Club

theorem counting_formulas_count_jury :
    Counting.Tests Club.pair Club.fixed ⟨0⟩ (fun o => .atom ⟨0⟩ [o]) (fun _ => True) ∧
    (2 : ℕ∞) ≤ {e : Club.pair.Elem | Club.pair.sort e = ⟨0⟩ ∧ True}.encard ∧
    ∃ t, Encode.param (Layout.ofStore Club.store).1 Club.jury (Layout.ofStore Club.store).2 = .ok ((), t) ∧
      ∃ c, (Layout.ofStore Club.store).1.graph.resolve Club.jury.className = .ok c ∧ (Club.pair.Obeys Club.fixed t →
        Club.jury.cardinality.Admits
          (Encode.membersOf Club.pair (Layout.ofStore Club.store).1 c ⟨(Layout.ofStore Club.store).2.symbols.predicates.length⟩)) := by
  have htests : Tests pair fixed ⟨0⟩ (fun o => .atom ⟨0⟩ [o]) (fun _ => True) := tests_atom _ _ _
  obtain ⟨hcount, hparam⟩ := counting_formulas_count pair fixed
  have htwo : (atLeast 2 ⟨0⟩ (fun o => .atom ⟨0⟩ [o]) ⟨0⟩).1.Holds pair fixed :=
    ⟨(⟨0⟩, true), rfl, (⟨0⟩, false), rfl, trivial, trivial, fun h => absurd (congrArg Prod.snd h) (by decide), trivial⟩
  obtain ⟨⟨⟨⟩, t⟩, ht, -⟩ := exists_ok_of_any
    (x := Encode.param (ofStore store).1 jury (ofStore store).2) (p := fun _ => true) (by decide +kernel)
  obtain ⟨c, hc, hobeys⟩ := hparam (ofStore store).1 jury (ofStore store).2 t ht
  exact ⟨htests, (hcount 2 ⟨0⟩ _ _ ⟨0⟩ htests).1.mp htwo, t, ht, c, hc, fun h => (hobeys.mp h).2.2⟩

end StoreCheck
