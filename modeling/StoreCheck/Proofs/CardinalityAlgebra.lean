import StoreCheck.Proofs.CardinalityBounds
import Mathlib.Data.ENat.Lattice
import Mathlib.Order.Interval.Set.OrdConnected
import Mathlib.Order.CompletePartialOrder

/-!
# Cardinalities as intervals of sizes

A cardinality stands for an interval of sizes, without an end if it has no upper bound. Its operations are sound for these intervals
over the whole range of the bounds (`cardinality_operations_sound`).
-/

namespace StoreCheck

open Cardinality

namespace Cardinality

variable {a b c : Cardinality}

/-- The upper end of the interval. -/
def limit (c : Cardinality) : ℕ∞ := c.upper.elim ⊤ (·.toNat)

/-- The sizes that the bounds admit. -/
def sizes (c : Cardinality) : Set ℕ∞ := Set.Icc c.lower.toNat c.limit

theorem le_limit_iff {n : ℕ∞} : n ≤ c.limit ↔ ∀ u, c.upper = some u → n ≤ u.toNat := by
  unfold limit
  cases c.upper <;> simp

theorem admits_iff {X : Set α} : c.Admits X ↔ X.encard ∈ c.sizes := and_congr_right fun _ => le_limit_iff.symm

theorem isValid_iff : c.isValid = true ↔ (c.lower.toNat : ℕ∞) ≤ c.limit := by
  unfold isValid limit
  cases c.upper <;> simp [UInt32.le_iff_toNat_le]

theorem toNat_min_words (x y : UInt32) : ((min x y).toNat : ℕ∞) = min (x.toNat : ℕ∞) y.toNat := by
  rw [UInt32.toNat_min]
  exact Nat.mono_cast.map_min

theorem toNat_max_words (x y : UInt32) : ((max x y).toNat : ℕ∞) = max (x.toNat : ℕ∞) y.toNat := by
  rw [UInt32.toNat_max]
  exact Nat.mono_cast.map_max

theorem limit_cover : (a.cover b).limit = max a.limit b.limit := by
  unfold limit cover
  cases a.upper <;> cases b.upper <;> simp [toNat_max_words]

theorem limit_inter : (a.inter b).limit = min a.limit b.limit := by
  unfold limit inter
  cases a.upper <;> cases b.upper <;> simp [toNat_min_words]

/-- A lower sum that is out of range stops at the largest word. -/
theorem lower_add_le : ((a.add b).lower.toNat : ℕ∞) ≤ a.lower.toNat + b.lower.toNat := by
  have hsum : (addSaturating a.lower b.lower).toNat ≤ a.lower.toNat + b.lower.toNat := by
    unfold addSaturating
    split
    · rw [UInt32.toNat_add]
      exact Nat.mod_le _ _
    · simp only [UInt32.size] at *
      have : (4294967295 : UInt32).toNat = 4294967295 := rfl
      omega
  exact_mod_cast hsum

/-- An upper sum that is out of range is no bound. -/
theorem le_limit_add : a.limit + b.limit ≤ (a.add b).limit := by
  unfold limit add
  cases a.upper with
  | none => simp
  | some x =>
    cases b.upper with
    | none => simp
    | some y =>
      by_cases hlt : x.toNat + y.toNat < UInt32.size
      · simp [addExact?, hlt, Nat.mod_eq_of_lt hlt]
      · simp [addExact?, hlt]

/-! ## Intervals -/

theorem lower_cover (a b : Cardinality) : ((a.cover b).lower.toNat : ℕ∞) = min (a.lower.toNat : ℕ∞) b.lower.toNat :=
  toNat_min_words _ _

theorem lower_union (a b : Cardinality) : ((a.union b).lower.toNat : ℕ∞) = max (a.lower.toNat : ℕ∞) b.lower.toNat :=
  toNat_max_words _ _

theorem sizes_subset_cover (a b : Cardinality) : a.sizes ∪ b.sizes ⊆ (a.cover b).sizes := by
  simp only [sizes, lower_cover, limit_cover]
  refine Set.union_subset (Set.Icc_subset_Icc ?_ ?_) (Set.Icc_subset_Icc ?_ ?_) <;> simp

/-- The ends of the cover are ends of one of the two, so every interval with both has what is between. -/
theorem sizes_cover_subset (ha : a.isValid = true) (hb : b.isValid = true) {sizes : Set ℕ∞} (hsizes : sizes.OrdConnected)
    (hsub : a.sizes ∪ b.sizes ⊆ sizes) : (a.cover b).sizes ⊆ sizes := by
  have hlow : ((a.cover b).lower.toNat : ℕ∞) ∈ sizes := by
    rw [lower_cover]
    rcases min_choice (a.lower.toNat : ℕ∞) b.lower.toNat with h | h <;> rw [h]
    · exact hsub (.inl ⟨le_rfl, isValid_iff.1 ha⟩)
    · exact hsub (.inr ⟨le_rfl, isValid_iff.1 hb⟩)
  have hhigh : (a.cover b).limit ∈ sizes := by
    rw [limit_cover]
    rcases max_choice a.limit b.limit with h | h <;> rw [h]
    · exact hsub (.inl ⟨isValid_iff.1 ha, le_rfl⟩)
    · exact hsub (.inr ⟨isValid_iff.1 hb, le_rfl⟩)
  exact hsizes.out hlow hhigh

theorem sizes_inter (a b : Cardinality) : (a.inter b).sizes = a.sizes ∩ b.sizes := by
  simp only [sizes, limit_inter, Set.Icc_inter_Icc]
  rw [inter, toNat_max_words]

/-! ## Sets -/

section Sets

variable {α : Type} {X Y : Set α}

theorem encard_union_le_limit (hX : X.encard ≤ a.limit) (hY : Y.encard ≤ b.limit) : (X ∪ Y).encard ≤ (a.add b).limit :=
  (Set.encard_union_le X Y).trans ((add_le_add hX hY).trans le_limit_add)

theorem Admits.add (hX : a.Admits X) (hY : b.Admits Y) (h : Disjoint X Y) : (a.add b).Admits (X ∪ Y) := by
  rw [admits_iff] at hX hY ⊢
  refine ⟨?_, encard_union_le_limit hX.2 hY.2⟩
  rw [Set.encard_union_eq h]
  exact lower_add_le.trans (add_le_add hX.1 hY.1)

theorem Admits.union (hX : a.Admits X) (hY : b.Admits Y) : (a.union b).Admits (X ∪ Y) := by
  rw [admits_iff] at hX hY ⊢
  refine ⟨?_, encard_union_le_limit hX.2 hY.2⟩
  rw [lower_union]
  exact max_le (hX.1.trans (Set.encard_le_encard Set.subset_union_left))
    (hY.1.trans (Set.encard_le_encard Set.subset_union_right))

theorem Admits.part (hX : a.Admits X) (h : Y ⊆ X) : a.subset.Admits Y := by
  rw [admits_iff] at hX ⊢
  exact ⟨zero_le, (Set.encard_le_encard h).trans hX.2⟩

end Sets

end Cardinality

/-- For all valid cardinalities, over the whole range of their bounds: covering two of them gives the least interval that contains
both, intersecting them the intersection of the intervals, adding them bounds of every union of disjoint sets within them, and
uniting them bounds of every union of sets within them, while parts of a set are within the bounds of its subsets. All but the
intersection are valid again. -/
theorem cardinality_operations_sound {a b : Cardinality} (ha : a.isValid = true) (hb : b.isValid = true) :
    (a.sizes ∪ b.sizes ⊆ (a.cover b).sizes ∧
      ∀ sizes : Set ℕ∞, sizes.OrdConnected → a.sizes ∪ b.sizes ⊆ sizes → (a.cover b).sizes ⊆ sizes) ∧
      (a.inter b).sizes = a.sizes ∩ b.sizes ∧
      (∀ (α : Type) (X Y : Set α), a.Admits X → b.Admits Y →
        (Disjoint X Y → (a.add b).Admits (X ∪ Y)) ∧ (a.union b).Admits (X ∪ Y) ∧ ∀ Z ⊆ X, a.subset.Admits Z) ∧
      (a.cover b).isValid = true ∧ (a.add b).isValid = true ∧ (a.union b).isValid = true ∧ a.subset.isValid = true := by
  refine ⟨⟨sizes_subset_cover a b, fun _ => sizes_cover_subset ha hb⟩, sizes_inter a b,
    fun α X Y hX hY => ⟨hX.add hY, hX.union hY, fun Z => hX.part⟩, ?_⟩
  rw [isValid_iff] at ha hb
  have hsum : a.limit + b.limit ≤ (a.union b).limit := le_limit_add
  simp only [isValid_iff, lower_cover, limit_cover, lower_union]
  refine ⟨?_, ?_, ?_, zero_le⟩
  · exact (min_le_left _ _).trans (ha.trans (le_max_left _ _))
  · exact lower_add_le.trans ((add_le_add ha hb).trans hsum)
  · exact max_le (ha.trans (le_self_add.trans hsum)) (hb.trans (le_add_self.trans hsum))

/-- The two sums at the end of the range: no lower bound is exceeded, and there is no upper bound any more. -/
theorem cardinality_operations_sound_limit :
    let a : Cardinality := ⟨4294967295, some 4294967295⟩
    let b : Cardinality := ⟨1, some 2⟩
    a.isValid = true ∧ b.isValid = true ∧ a.add b = ⟨4294967295, none⟩ ∧ (a.add b).isValid = true ∧
      (a.cover b).sizes = Set.Icc 1 4294967295 ∧ (a.inter b).sizes = a.sizes ∩ b.sizes := by
  intro a b
  have h := cardinality_operations_sound (a := a) (b := b) (by decide) (by decide)
  exact ⟨by decide, by decide, by decide, h.2.2.2.2.1, rfl, h.2.1⟩

end StoreCheck
