import StoreCheck.Proofs.WellFormed

/-!
# Joins and meets of signatures

The closure of a join is what both closures share, and the closure of a meet what either of them holds. Since signatures are
compared by their closures, the join is the least upper bound and the meet the greatest lower one.
-/

namespace StoreCheck

open List ClassGraph

variable {c : ClassId} {decls : List ClassDecl}

namespace ClassGraph

variable {g : ClassGraph} {a b : Signature}

/-- The class is a member of the signature or an ancestor of one. -/
def Covers (g : ClassGraph) (c : ClassId) (s : Signature) : Prop := ∃ m ∈ s.classes, m = c ∨ c ∈ g.ancestorsOf m

theorem join_eq (ha : a.isBottom = false) (hb : b.isBottom = false) :
    g.join a b = g.canonical ((g.closure a).filter (· ∈ g.closure b)) := by
  simp [join, ha, hb]

theorem joinStrict_eq_ok (ha : a.isBottom = false) (hb : b.isBottom = false) :
    g.joinStrict a b = .ok j ↔ (g.join a b).isBottom = false ∧ j = g.join a b := by
  rw [joinStrict, ha, hb]
  cases (g.join a b).isBottom <;> simp [eq_comm]

variable (h : ofDecls decls = .ok g)

include h

theorem mem_closure_iff (ha : g.canonical a.classes = a) : c ∈ g.closure a ↔ g.Covers c a := by
  refine mem_closure.trans (and_iff_right_of_imp ?_)
  rintro ⟨m, hm, rfl | hc⟩
  · rw [← ha] at hm
    exact (mem_canonical.1 hm).1
  · exact (ancestorsOf_sublist h m).subset hc

/-- Only a set without classes has the bottom. -/
theorem isBottom_canonical (hids : ∀ c ∈ classes, c ∈ g.ids) :
    (g.canonical classes).isBottom = true ↔ classes = [] := by
  rw [Signature.isBottom, List.isEmpty_iff, eq_nil_iff_forall_not_mem, eq_nil_iff_forall_not_mem]
  constructor
  · intro hnone c hc
    obtain ⟨m, hm, -⟩ := exists_kept h (hids c hc) hc
    exact hnone m hm
  · intro hnone c hc
    exact hnone c (mem_canonical.1 hc).2.1

theorem mem_closure_join (ha : a.isBottom = false) (hb : b.isBottom = false) :
    c ∈ g.closure (g.join a b) ↔ c ∈ g.closure a ∧ c ∈ g.closure b := by
  have hup : ∀ {s : Signature} {d}, d ∈ g.closure s → c ∈ g.ancestorsOf d → c ∈ g.closure s := by
    intro s d hd hc
    obtain ⟨-, m, hm, hmd⟩ := mem_closure.1 hd
    refine mem_closure.2 ⟨(ancestorsOf_sublist h d).subset hc, m, hm, .inr ?_⟩
    rcases hmd with rfl | hmd
    · exact hc
    · exact ancestorsOf_trans h hmd hc
  rw [join_eq ha hb, closure_canonical h, mem_closure]
  simp only [mem_filter, decide_eq_true_eq]
  constructor
  · rintro ⟨-, d, ⟨hda, hdb⟩, rfl | hc⟩
    · exact ⟨hda, hdb⟩
    · exact ⟨hup hda hc, hup hdb hc⟩
  · rintro ⟨hca, hcb⟩
    exact ⟨(mem_closure.1 hca).1, c, ⟨hca, hcb⟩, .inl rfl⟩

theorem isBottom_join (ha : a.isBottom = false) (hb : b.isBottom = false) :
    (g.join a b).isBottom = true ↔ ¬ ∃ c, c ∈ g.closure a ∧ c ∈ g.closure b := by
  rw [join_eq ha hb, isBottom_canonical h fun c hc => (mem_closure.1 (mem_filter.1 hc).1).1]
  simp [filter_eq_nil_iff]

theorem mem_closure_append :
    c ∈ g.closure (g.canonical (a.classes ++ b.classes)) ↔ c ∈ g.closure a ∨ c ∈ g.closure b := by
  rw [closure_canonical h, mem_closure, mem_closure, mem_closure, ← and_or_left]
  simp only [mem_append, or_and_right, exists_or]

/-- Within one component the meet has the members of both that no other one inherits from. -/
theorem meet_eq (ha : g.canonical a.classes = a) (hka : g.componentOfSignature a = some k)
    (hkb : g.componentOfSignature b = some k) :
    g.meet a b = g.canonical (a.classes ++ b.classes) ∧ (g.meet a b).isBottom = false := by
  obtain ⟨hna, hwa⟩ := componentOfSignature_some.1 hka
  obtain ⟨hnb, hwb⟩ := componentOfSignature_some.1 hkb
  have hmerged : (g.canonical (a.classes ++ b.classes)).isBottom = false := by
    cases hclasses : a.classes with
    | nil => simp [Signature.isBottom, hclasses] at hna
    | cons c rest =>
      have hc : c ∈ a.classes := hclasses ▸ mem_cons_self
      obtain ⟨m, hm, -⟩ := exists_kept h (mem_canonical.1 (ha.symm ▸ hc)).1 (mem_append_left b.classes hc)
      rw [← hclasses]
      simpa [Signature.isBottom, List.isEmpty_iff] using ne_nil_of_mem hm
  have hcomponent : g.componentOfSignature (g.canonical (a.classes ++ b.classes)) = some k := by
    refine componentOfSignature_some.2 ⟨hmerged, fun c hc => ?_⟩
    rcases mem_append.1 (mem_canonical.1 hc).2.1 with hc | hc
    · exact hwa c hc
    · exact hwb c hc
  have hmeet : g.meet a b = g.canonical (a.classes ++ b.classes) := by simp [meet, hna, hnb, hcomponent]
  exact ⟨hmeet, hmeet ▸ hmerged⟩

end ClassGraph

/-- For every class graph that is built from declarations and all canonical signatures that are not the bottom: they have a strict
join exactly if some class covers both, and it is their least upper bound in the order of specificity. Where both lie in one
component their meet is not the bottom, and it is their greatest lower bound. -/
theorem joins_least_meets_greatest (decls : List ClassDecl) (g : ClassGraph) (h : ClassGraph.ofDecls decls = .ok g)
    (a b : Signature) (ha : g.canonical a.classes = a) (hb : g.canonical b.classes = b) (hna : a.isBottom = false)
    (hnb : b.isBottom = false) :
    ((∃ j, g.joinStrict a b = .ok j) ↔ ∃ c, g.Covers c a ∧ g.Covers c b) ∧
    (∀ j, g.joinStrict a b = .ok j → g.canonical j.classes = j ∧ j.isBottom = false ∧ g.Specializes a j ∧ g.Specializes b j ∧
      ∀ s, g.Specializes a s → g.Specializes b s → g.Specializes j s) ∧
    ∀ k, g.componentOfSignature a = some k → g.componentOfSignature b = some k →
      g.canonical (g.meet a b).classes = g.meet a b ∧ (g.meet a b).isBottom = false ∧ g.Specializes (g.meet a b) a ∧
      g.Specializes (g.meet a b) b ∧ ∀ s, g.Specializes s a → g.Specializes s b → g.Specializes s (g.meet a b) := by
  refine ⟨?_, fun j hj => ?_, fun k hka hkb => ?_⟩
  · simp only [joinStrict_eq_ok hna hnb, exists_and_left, exists_eq, and_true, ← Bool.not_eq_true,
      isBottom_join h hna hnb, not_not, ClassGraph.mem_closure_iff h ha, ClassGraph.mem_closure_iff h hb]
  · obtain ⟨hnj, rfl⟩ := (joinStrict_eq_ok hna hnb).mp hj
    simp only [specializes_iff, List.subset_def, mem_closure_join h hna hnb]
    refine ⟨?_, hnj, And.left, And.right, fun s hsa hsb c hc => ⟨hsa hc, hsb hc⟩⟩
    rw [join_eq hna hnb, canonical_canonical]
  · obtain ⟨hmeet, hbottom⟩ := meet_eq h ha hka hkb
    refine ⟨by rw [hmeet, canonical_canonical], hbottom, ?_⟩
    simp only [specializes_iff, List.subset_def, hmeet, mem_closure_append h]
    exact ⟨Or.inl, Or.inr, fun s hsa hsb c hc => hc.elim (fun hc => hsa hc) fun hc => hsb hc⟩

/-- What dogs and cats share is that they are animals and pets. -/
theorem joins_least_meets_greatest_kennel : ∃ g, ClassGraph.ofDecls Kennel.classes = .ok g ∧
    g.joinStrict (.ofClass ⟨2⟩) (.ofClass ⟨3⟩) = .ok ⟨[⟨0⟩, ⟨1⟩]⟩ ∧
    (∀ s, g.Specializes (.ofClass ⟨2⟩) s → g.Specializes (.ofClass ⟨3⟩) s → g.Specializes ⟨[⟨0⟩, ⟨1⟩]⟩ s) ∧
    g.meet (.ofClass ⟨2⟩) (.ofClass ⟨3⟩) = ⟨[⟨2⟩, ⟨3⟩]⟩ ∧
    ∀ s, g.Specializes s (.ofClass ⟨2⟩) → g.Specializes s (.ofClass ⟨3⟩) → g.Specializes s ⟨[⟨2⟩, ⟨3⟩]⟩ := by
  obtain ⟨g, hg, htest⟩ := exists_ok_of_any (x := ofDecls Kennel.classes)
    (p := fun g => decide (g.canonical [⟨2⟩] = .ofClass ⟨2⟩ ∧ g.canonical [⟨3⟩] = .ofClass ⟨3⟩ ∧
      g.join (.ofClass ⟨2⟩) (.ofClass ⟨3⟩) = ⟨[⟨0⟩, ⟨1⟩]⟩ ∧ g.meet (.ofClass ⟨2⟩) (.ofClass ⟨3⟩) = ⟨[⟨2⟩, ⟨3⟩]⟩ ∧
      g.componentOf ⟨2⟩ = 0 ∧ g.componentOf ⟨3⟩ = 0)) (by decide +kernel)
  obtain ⟨hdog, hcat, hjoin, hmeet, hk, hk'⟩ := of_decide_eq_true htest
  obtain ⟨-, hleast, hgreatest⟩ := joins_least_meets_greatest _ g hg (.ofClass ⟨2⟩) (.ofClass ⟨3⟩) hdog hcat rfl rfl
  have hstrict : g.joinStrict (.ofClass ⟨2⟩) (.ofClass ⟨3⟩) = .ok ⟨[⟨0⟩, ⟨1⟩]⟩ := by
    rw [joinStrict_eq_ok rfl rfl, hjoin]
    exact ⟨rfl, rfl⟩
  have hbound := hgreatest 0 (congrArg some hk) (congrArg some hk')
  rw [hmeet] at hbound
  exact ⟨g, hg, hstrict, (hleast _ hstrict).2.2.2.2, hmeet, hbound.2.2.2.2⟩

end StoreCheck
