import StoreCheck.Class.Signature
import StoreCheck.Proofs.Class.Components

/-!
# Canonical signatures are normal forms

A set of classes and its canonical signature have one closure: a class that is dropped is an ancestor of another one, and since
there are no cycles this leads down to one that is kept (`exists_kept`). A canonical signature is made of the classes of its
closure that no other class of the closure inherits from, so it is determined by its closure, and comparing closures orders the
canonical signatures.
-/

namespace StoreCheck

open List ClassGraph

variable {c d : ClassId} {classes as bs : List ClassId} {a b : Signature}

namespace ClassGraph

variable {decls : List ClassDecl} {g : ClassGraph}

/-! ## Ancestors -/

section Ancestors

variable (h : ofDecls decls = .ok g)

include h

theorem ancestorsOf_trans (hd : d ∈ g.ancestorsOf c) (he : e ∈ g.ancestorsOf d) : e ∈ g.ancestorsOf c :=
  (mem_ancestorsOf h).2 (((mem_ancestorsOf h).1 hd).trans ((mem_ancestorsOf h).1 he))

theorem mem_ids_of_ancestor (hd : d ∈ g.ancestorsOf c) : c ∈ g.ids :=
  (mem_filter.1 ((mem_descendantsOf h).2 ((mem_ancestorsOf h).1 hd))).1

/-- An ancestor has fewer ancestors: all of them are shared, and it is none of them itself. -/
theorem length_ancestorsOf_lt (hd : d ∈ g.ancestorsOf c) : (g.ancestorsOf d).length < (g.ancestorsOf c).length := by
  have hnodup : (d :: g.ancestorsOf d).Nodup :=
    nodup_cons.2 ⟨not_mem_ancestorsOf_self h d, (ancestorsOf_sublist h d).nodup (nodup_idsUpTo _)⟩
  have hsub : d :: g.ancestorsOf d ⊆ g.ancestorsOf c :=
    cons_subset.2 ⟨hd, fun e he => ancestorsOf_trans h hd he⟩
  exact (subperm_of_subset hnodup hsub).length_le

end Ancestors

/-! ## Closures and canonical signatures -/

theorem mem_closure : c ∈ g.closure s ↔ c ∈ g.ids ∧ ∃ m ∈ s.classes, m = c ∨ c ∈ g.ancestorsOf m := by
  simp [closure, isSubclass]

theorem mem_canonical : c ∈ (g.canonical classes).classes ↔ c ∈ g.ids ∧ c ∈ classes ∧ ∀ m ∈ classes, c ∉ g.ancestorsOf m := by
  simp [canonical]

/-- Canonical signatures with the same members are equal: both list them in the order of declaration. -/
theorem canonical_congr (h : ∀ c, c ∈ (g.canonical as).classes ↔ c ∈ (g.canonical bs).classes) :
    g.canonical as = g.canonical bs := by
  refine congrArg Signature.mk (filter_congr fun c hc => Bool.eq_iff_iff.2 ?_)
  have hc' := h c
  simp only [canonical, mem_filter, hc, true_and] at hc'
  exact hc'

/-- Every class of a set is a kept one or an ancestor of one: what drops it has more ancestors. -/
theorem exists_kept (h : ofDecls decls = .ok g) (hc : c ∈ g.ids) (hmem : c ∈ classes) :
    ∃ m ∈ (g.canonical classes).classes, m = c ∨ c ∈ g.ancestorsOf m := by
  induction hn : g.ids.length - (g.ancestorsOf c).length using Nat.strongRecOn generalizing c with
  | ind n ih =>
    by_cases hkept : ∀ m ∈ classes, c ∉ g.ancestorsOf m
    · exact ⟨c, mem_canonical.2 ⟨hc, hmem, hkept⟩, .inl rfl⟩
    · push Not at hkept
      obtain ⟨d, hd, hcd⟩ := hkept
      have hlt := length_ancestorsOf_lt h hcd
      have hle := (ancestorsOf_sublist h d).length_le
      obtain ⟨m, hm, hmd⟩ := ih _ (by omega) (mem_ids_of_ancestor h hcd) hd rfl
      refine ⟨m, hm, .inr ?_⟩
      rcases hmd with rfl | hmd
      · exact hcd
      · exact ancestorsOf_trans h hmd hcd

theorem closure_eq_iff : g.closure a = g.closure b ↔ ∀ c, c ∈ g.closure a ↔ c ∈ g.closure b := by
  constructor
  · intro heq c
    rw [heq]
  · intro hmem
    refine filter_congr fun c hc => Bool.eq_iff_iff.2 ?_
    have hc' := hmem c
    simp only [closure, mem_filter, hc, true_and] at hc'
    exact hc'

theorem closure_canonical (h : ofDecls decls = .ok g) (classes : List ClassId) :
    g.closure (g.canonical classes) = g.closure ⟨classes⟩ := by
  refine closure_eq_iff.2 fun c => ?_
  rw [mem_closure, mem_closure]
  refine and_congr_right fun hc => ⟨?_, ?_⟩
  · rintro ⟨m, hm, hmc⟩
    exact ⟨m, (mem_canonical.1 hm).2.1, hmc⟩
  · rintro ⟨m, hm, hmc⟩
    have hmids : m ∈ g.ids := by
      rcases hmc with rfl | hmc
      · exact hc
      · exact mem_ids_of_ancestor h hmc
    obtain ⟨k, hk, hkm⟩ := exists_kept h hmids hm
    refine ⟨k, hk, ?_⟩
    rcases hmc with rfl | hmc
    · exact hkm
    · rcases hkm with rfl | hkm
      · exact .inr hmc
      · exact .inr (ancestorsOf_trans h hkm hmc)

theorem canonical_canonical (classes : List ClassId) : g.canonical (g.canonical classes).classes = g.canonical classes := by
  refine canonical_congr fun c => ?_
  refine mem_canonical.trans ?_
  rw [mem_canonical]
  constructor
  · rintro ⟨-, hc, -⟩
    exact hc
  · intro hc
    exact ⟨hc.1, hc, fun m hm => hc.2.2 m (mem_canonical.1 hm).2.1⟩

/-- The members of a canonical signature are the classes of its closure that no other one inherits from. -/
theorem mem_canonical_iff (h : ofDecls decls = .ok g) : c ∈ (g.canonical classes).classes ↔
      c ∈ g.closure (g.canonical classes) ∧ ∀ m ∈ g.closure (g.canonical classes), c ∉ g.ancestorsOf m := by
  constructor
  · intro hc
    refine ⟨mem_closure.2 ⟨(mem_canonical.1 hc).1, c, hc, .inl rfl⟩, fun m hm hcm => ?_⟩
    obtain ⟨-, k, hk, rfl | hmk⟩ := mem_closure.1 hm
    · exact (mem_canonical.1 hc).2.2 k (mem_canonical.1 hk).2.1 hcm
    · exact (mem_canonical.1 hc).2.2 k (mem_canonical.1 hk).2.1 (ancestorsOf_trans h hmk hcm)
  · rintro ⟨hc, hleast⟩
    obtain ⟨-, k, hk, rfl | hck⟩ := mem_closure.1 hc
    · exact hk
    · exact absurd hck (hleast k (mem_closure.2 ⟨(mem_canonical.1 hk).1, k, hk, .inl rfl⟩))

theorem canonical_of_closure_eq (h : ofDecls decls = .ok g) (heq : g.closure (g.canonical as) = g.closure (g.canonical bs)) :
    g.canonical as = g.canonical bs :=
  canonical_congr fun c => by rw [mem_canonical_iff h, mem_canonical_iff h, heq]

/-! ## Comparing -/

/-- The first signature is the more specific one, or both are equal. -/
def Specializes (g : ClassGraph) (a b : Signature) : Prop := g.compare a b = some .less ∨ g.compare a b = some .equal

theorem compare_equal_iff : g.compare a b = some .equal ↔ g.closure a = g.closure b := by
  rw [compare]
  split
  · simp [*]
  · split
    · simp [*]
    · split <;> simp [*]

theorem compare_less_iff : g.compare a b = some .less ↔ g.closure b ⊆ g.closure a ∧ g.closure a ≠ g.closure b := by
  rw [compare]
  split
  · simp [*]
  · split
    · simp_all [subset_def]
    · split <;> simp_all [subset_def]

theorem compare_greater_iff : g.compare a b = some .greater ↔ g.closure a ⊆ g.closure b ∧ g.closure a ≠ g.closure b := by
  rw [compare]
  split
  · simp [*]
  · rename_i hne
    split
    · rename_i hba
      constructor
      · intro hless
        cases hless
      · rintro ⟨hab, -⟩
        have hba' : ∀ c ∈ g.closure b, c ∈ g.closure a := by simpa using hba
        exact absurd (closure_eq_iff.2 fun c => ⟨fun hc => hab hc, hba' c⟩) hne
    · split <;> simp_all [subset_def]

theorem specializes_iff : g.Specializes a b ↔ g.closure b ⊆ g.closure a := by
  rw [Specializes, compare_less_iff, compare_equal_iff]
  constructor
  · rintro (h | h)
    · exact h.1
    · rw [h]
      exact List.Subset.refl _
  · intro h
    by_cases heq : g.closure a = g.closure b
    · exact .inr heq
    · exact .inl ⟨h, heq⟩

end ClassGraph

/-- For every class graph that is built from declarations and every set of classes: the canonical signature is a part of the set
in which no member is an ancestor of another, it has the closure of the set, and it is canonical already. A canonical signature
is determined by its closure, so comparing is a partial order on canonical signatures, where less and greater are converse. -/
theorem signatures_canonical (decls : List ClassDecl) (g : ClassGraph) (h : ClassGraph.ofDecls decls = .ok g) :
    (∀ classes, (∀ c ∈ (g.canonical classes).classes, c ∈ classes) ∧
      (∀ c ∈ (g.canonical classes).classes, ∀ d ∈ (g.canonical classes).classes, c ∉ g.ancestorsOf d) ∧
      g.closure (g.canonical classes) = g.closure ⟨classes⟩ ∧
      g.canonical (g.canonical classes).classes = g.canonical classes) ∧
    ∀ a b c, g.canonical a.classes = a → g.canonical b.classes = b → g.canonical c.classes = c →
      (g.closure a = g.closure b → a = b) ∧ g.compare a a = some .equal ∧
      (g.Specializes a b → g.Specializes b a → a = b) ∧
      (g.Specializes a b → g.Specializes b c → g.Specializes a c) ∧
      (g.compare a b = some .less ↔ g.compare b a = some .greater) := by
  refine ⟨fun classes => ⟨fun c hc => (mem_canonical.mp hc).2.1, fun c hc d hd => ?_,
    closure_canonical h classes, canonical_canonical classes⟩, fun a b c ha hb hc => ?_⟩
  · exact (mem_canonical.mp hc).2.2 d (mem_canonical.mp hd).2.1
  · have heq : g.closure a = g.closure b → a = b := by
      rw [← ha, ← hb]
      exact canonical_of_closure_eq h
    refine ⟨heq, compare_equal_iff.mpr rfl, ?_, ?_, ?_⟩
    · rw [specializes_iff, specializes_iff]
      exact fun hab hba => heq (closure_eq_iff.mpr fun c => ⟨fun hc => hba hc, fun hc => hab hc⟩)
    · rw [specializes_iff, specializes_iff, specializes_iff]
      exact fun hab hbc => List.Subset.trans hbc hab
    · rw [compare_less_iff, compare_greater_iff, ne_comm]

/-- Puppies specialize dogs, and dogs what is an animal and a pet. -/
theorem signatures_canonical_kennel : ∃ g, ClassGraph.ofDecls Kennel.classes = .ok g ∧
    g.canonical [⟨0⟩, ⟨4⟩, ⟨2⟩] = .ofClass ⟨4⟩ ∧ g.closure (.ofClass ⟨4⟩) = g.closure ⟨[⟨0⟩, ⟨4⟩, ⟨2⟩]⟩ ∧
    g.compare (.ofClass ⟨4⟩) (.ofClass ⟨2⟩) = some .less ∧ g.compare (.ofClass ⟨2⟩) ⟨[⟨0⟩, ⟨1⟩]⟩ = some .less ∧
    g.Specializes (.ofClass ⟨4⟩) ⟨[⟨0⟩, ⟨1⟩]⟩ := by
  obtain ⟨g, hg, htest⟩ := exists_ok_of_any (x := ofDecls Kennel.classes)
    (p := fun g => decide (g.canonical [⟨0⟩, ⟨4⟩, ⟨2⟩] = .ofClass ⟨4⟩ ∧ g.canonical [⟨4⟩] = .ofClass ⟨4⟩ ∧
      g.canonical [⟨2⟩] = .ofClass ⟨2⟩ ∧ g.canonical [⟨0⟩, ⟨1⟩] = ⟨[⟨0⟩, ⟨1⟩]⟩ ∧
      g.compare (.ofClass ⟨4⟩) (.ofClass ⟨2⟩) = some .less ∧ g.compare (.ofClass ⟨2⟩) ⟨[⟨0⟩, ⟨1⟩]⟩ = some .less))
    (by decide +kernel)
  obtain ⟨hset, hpuppy, hdog, hpet, hless, hless'⟩ := of_decide_eq_true htest
  obtain ⟨hcanonical, horder⟩ := signatures_canonical _ g hg
  refine ⟨g, hg, hset, hset ▸ (hcanonical [⟨0⟩, ⟨4⟩, ⟨2⟩]).2.2.1, hless, hless', ?_⟩
  exact (horder _ _ _ hpuppy hdog hpet).2.2.2.1 (.inl hless) (.inl hless')

end StoreCheck
