import StoreCheck.Proofs.Encoding.Allocation

/-!
# The sorts of types

A type of the bottom signature has no sort, every other type that inference gives has one: the sort of the component its
classes lie in. Types that are joined strictly have the same sort, unless one of them is the bottom.
-/

namespace StoreCheck

open List

variable {a b c : Option SortId} {s : SortId}

/-- The first sort is the second one, or there is none: a set without a sort is empty. -/
def Covers (a b : Option SortId) : Prop := a = none ∨ a = b

theorem Covers.refl (a : Option SortId) : Covers a a := .inr rfl

theorem Covers.trans (h : Covers a b) (h' : Covers b c) : Covers a c := by
  rcases h with h | rfl
  · exact .inl h
  · exact h'

theorem Covers.some_left (h : Covers (some s) b) : b = some s := by
  rcases h with h | h
  · cases h
  · exact h.symm

namespace Layout

variable {L : Layout} {t u v : ObjType}

theorem sortOf_congr (h : t.signature = u.signature) : L.sortOf t = L.sortOf u := by
  unfold sortOf
  rw [h]

theorem sortOf_single (t : ObjType) : L.sortOf t.single = L.sortOf t := sortOf_congr rfl

theorem sortOf_withCardinality (t : ObjType) (c : Cardinality) : L.sortOf (t.withCardinality c) = L.sortOf t :=
  sortOf_congr rfl

theorem sortOf_none_iff : L.sortOf t = .ok none ↔ t.signature.isBottom = true := by
  unfold sortOf
  split
  · simp_all
  · split <;> simp_all

/-- A type has the sort of the component that all its classes lie in. -/
theorem sortOf_some_iff :
    L.sortOf t = .ok (some s) ↔ t.signature.isBottom = false ∧
      ∃ k, L.graph.Within t.signature k ∧ s = L.componentSorts.getD k ⟨0⟩ := by
  unfold sortOf
  split
  · rename_i hb
    simp [hb]
  · rename_i hb
    have hb' : t.signature.isBottom = false := by simpa using hb
    split
    · rename_i k hk
      have hwithin := (ClassGraph.componentOfSignature_some.1 hk).2
      constructor
      · intro h
        cases h
        exact ⟨hb', k, hwithin, rfl⟩
      · rintro ⟨-, k', hk', rfl⟩
        have := ClassGraph.componentOfSignature_some.2 ⟨hb', hk'⟩
        rw [hk] at this
        cases this
        rfl
    · rename_i hnone
      constructor
      · intro h
        cases h
      · rintro ⟨-, k', hk', -⟩
        have := ClassGraph.componentOfSignature_some.2 ⟨hb', hk'⟩
        rw [hnone] at this
        cases this

/-- Only a type with classes of several hierarchies has no sort. -/
theorem exists_sortOf_iff : (∃ a, L.sortOf t = .ok a) ↔ L.graph.Uniform t.signature := by
  constructor
  · rintro ⟨_ | sort, ha⟩
    · exact .inl (sortOf_none_iff.1 ha)
    · obtain ⟨-, k, hk, -⟩ := sortOf_some_iff.1 ha
      exact .inr ⟨k, hk⟩
  · intro h
    cases hbottom : t.signature.isBottom with
    | true => exact ⟨none, sortOf_none_iff.2 hbottom⟩
    | false =>
      obtain ⟨k, hk⟩ := h.resolve_left (by simp [hbottom])
      exact ⟨some _, sortOf_some_iff.2 ⟨hbottom, k, hk, rfl⟩⟩

theorem sortOf_class (c : ClassId) (h : t.signature = .ofClass c) : L.sortOf t = .ok (some (L.classSort c)) := by
  rw [sortOf_some_iff, h]
  refine ⟨rfl, L.graph.componentOf c, fun d hd => ?_, rfl⟩
  rw [Signature.ofClass, mem_singleton] at hd
  rw [hd]

/-- A strict join covers both sides. -/
theorem sortOf_joinStrict (hg : L.graph.Coherent) (h : L.graph.joinStrict t.signature u.signature = .ok v.signature)
    (ht : L.sortOf t = .ok a) (hu : L.sortOf u = .ok b) : ∃ c, L.sortOf v = .ok c ∧ Covers a c ∧ Covers b c := by
  have hv := ClassGraph.joinStrict_ok _ h
  have isBottom_eq : ∀ w : ObjType, w.signature.isBottom = true → w.signature = .bottom := by
    intro w hw
    cases hsig : w.signature with
    | mk classes =>
      rw [hsig] at hw
      rw [show classes = [] from List.isEmpty_iff.1 hw]
      rfl
  cases a with
  | none =>
    have hbot := isBottom_eq t (sortOf_none_iff.1 ht)
    refine ⟨b, ?_, .inl rfl, .refl b⟩
    rw [← hu]
    exact sortOf_congr (by rw [hv, hbot, ClassGraph.bottom_join])
  | some s =>
    cases b with
    | none =>
      have hbot := isBottom_eq u (sortOf_none_iff.1 hu)
      refine ⟨some s, ?_, .refl _, .inl rfl⟩
      rw [← ht]
      exact sortOf_congr (by rw [hv, hbot, ClassGraph.join_bottom])
    | some s' =>
      obtain ⟨htb, k, hk, rfl⟩ := sortOf_some_iff.1 ht
      obtain ⟨hub, k', hk', rfl⟩ := sortOf_some_iff.1 hu
      have hnb : v.signature.isBottom = false := by
        rw [hv]
        unfold ClassGraph.joinStrict at h
        split at h
        · cases h
        · rename_i hcond
          simpa [htb, hub] using hcond
      have hwithin : L.graph.Within v.signature k := by
        rw [hv]
        exact hg.within_join htb hub hk
      -- some class of the join is above both sides, so both lie in its component
      have hsame : k = k' := by
        obtain ⟨c, hc⟩ : ∃ c, c ∈ v.signature.classes := by
          unfold Signature.isBottom at hnb
          cases hcl : v.signature.classes with
          | nil => simp [hcl] at hnb
          | cons c rest => exact ⟨c, by simp⟩
        rw [hv] at hc
        obtain ⟨hca, hcb⟩ := ClassGraph.join_comm_mem htb hub hc
        obtain ⟨m, hm, hma⟩ := hg.componentOf_closure hca
        obtain ⟨m', hm', hmb⟩ := hg.componentOf_closure hcb
        rw [← hk m hm, ← hma, hmb, hk' m' hm']
      subst hsame
      exact ⟨_, sortOf_some_iff.2 ⟨hnb, k, hwithin, rfl⟩, .refl _, .refl _⟩

/-- A relation starts from the sort of the sets it may be applied to. -/
theorem sortOf_relationOn (hg : L.graph.Coherent) (h : L.store.relationOn t.signature name = .ok r) (ht : L.sortOf t = .ok a) :
    a = some (L.classSort r.source) := by
  obtain ⟨m, hm, heq⟩ := hg.componentOf_closure (Store.relationOn_ok h).2
  cases a with
  | none =>
    have hbot := sortOf_none_iff.1 ht
    rw [Signature.isBottom, List.isEmpty_iff] at hbot
    rw [hbot] at hm
    cases hm
  | some s =>
    obtain ⟨-, k, hk, rfl⟩ := sortOf_some_iff.1 ht
    rw [classSort, heq, hk m hm]

/-- The sort is one of the layout, if there is one. -/
def Knows (L : Layout) (a : Option SortId) : Prop := ∀ sort, a = some sort → sort.index < sortCount L.store

theorem knows_none : L.Knows none := fun _ h => by cases h

theorem Laid.knows_class (hlaid : L.Laid symbols) {c : ClassId} (hc : c.index < L.graph.size) :
    L.Knows (some (L.classSort c)) := by
  intro sort hsort
  cases hsort
  exact hlaid.classSort_lt hc

/-- The sort of a strict join is that of one of its sides. -/
theorem knows_joinStrict (hg : L.graph.Coherent) (h : L.graph.joinStrict t.signature u.signature = .ok v.signature)
    (ht : L.sortOf t = .ok a) (hu : L.sortOf u = .ok b) (hv : L.sortOf v = .ok c) (ha : L.Knows a) (hb : L.Knows b) :
    L.Knows c := by
  obtain ⟨c', hc', hac, hbc⟩ := sortOf_joinStrict hg h ht hu
  rw [hv] at hc'
  cases hc'
  rcases hac with rfl | rfl
  · rcases hbc with rfl | rfl
    · -- the join of two bottoms is the bottom
      have hbot := sortOf_none_iff.1 ht
      have hjoin : v.signature = u.signature := by
        rw [ClassGraph.joinStrict_ok _ h, ClassGraph.join, if_pos hbot]
      rw [sortOf_congr hjoin, hu] at hv
      cases hv
      exact knows_none
    · exact hb
  · exact ha

/-! ## Sorts of objects and sorts of tuples -/

section Sorts

variable {symbols : Symbols} {type : ObjType} {sort : SortId} {id id' : RelationId} {ts ts' : TupleSort}

/-- The sort of a type is that of its component. -/
theorem Laid.sortOf_eq (hlaid : L.Laid symbols) (hpos : 0 < L.graph.componentCount)
    (hsort : L.sortOf type = .ok (some sort)) :
    ∃ component, component < L.graph.componentCount ∧ L.graph.componentOfSignature type.signature = some component ∧
      sort = ⟨component⟩ := by
  obtain ⟨hbottom, component, hwithin, rfl⟩ := sortOf_some_iff.1 hsort
  obtain ⟨c, hc⟩ : ∃ c, c ∈ type.signature.classes := by
    rw [Signature.isBottom, isEmpty_eq_false_iff_exists_mem] at hbottom
    exact hbottom
  have hlt : component < L.graph.componentCount := by
    rw [← hwithin c hc]
    exact hlaid.store.graph.componentOf_lt hpos c
  refine ⟨component, hlt, ClassGraph.componentOfSignature_some.2 ⟨hbottom, hwithin⟩, ?_⟩
  rw [hlaid.componentSorts, getD_eq_getElem?_getD, getElem?_map, getElem?_range hlt]
  rfl

/-- The ends of tuples are of the sorts of components. -/
theorem Laid.ends_eq (hlaid : L.Laid symbols) (hts : List.lookup id L.tupleSorts = some ts) :
    (∃ c, c < L.graph.componentCount ∧ ts.source = ⟨c⟩) ∧ ∃ c, c < L.graph.componentCount ∧ ts.target = ⟨c⟩ := by
  obtain ⟨i, r, hi, -, rfl⟩ := hlaid.lookup_some hts
  have hr : r ∈ L.store.relations := (mem_filter.1 (mem_of_getElem? hi)).1
  exact ⟨⟨_, hlaid.store.graph.lt _ (hlaid.store.source r hr), hlaid.classSort_eq (hlaid.store.source r hr)⟩,
    ⟨_, hlaid.store.graph.lt _ (hlaid.store.target r hr), hlaid.classSort_eq (hlaid.store.target r hr)⟩⟩

theorem Laid.componentCount_pos (hlaid : L.Laid symbols)
    (hts : List.lookup id L.tupleSorts = some ts) : 0 < L.graph.componentCount := by
  obtain ⟨⟨c, hc, -⟩, -⟩ := hlaid.ends_eq hts
  exact Nat.lt_of_le_of_lt (Nat.zero_le c) hc

/-- The sort of a component is no tuple sort. -/
theorem Shape.component_ne_tupleSort (h : L.Shape symbols) (hts : List.lookup id L.tupleSorts = some ts)
    (hlt : component < L.graph.componentCount) : (⟨component⟩ : SortId) ≠ ts.sort := by
  obtain ⟨i, r, -, -, rfl⟩ := h.lookup_some hts
  intro heq
  cases heq
  omega

/-- Objects and tuples have different sorts. -/
theorem Laid.sortOf_ne_tupleSort (hlaid : L.Laid symbols) (hsort : L.sortOf type = .ok (some sort))
    (hts : List.lookup id L.tupleSorts = some ts) : sort ≠ ts.sort := by
  obtain ⟨component, hlt, -, rfl⟩ := hlaid.sortOf_eq (hlaid.componentCount_pos hts) hsort
  exact hlaid.component_ne_tupleSort hts hlt

/-- Relations have tuple sorts of their own. -/
theorem Shape.tupleSort_inj (h : L.Shape symbols) (hts : List.lookup id L.tupleSorts = some ts)
    (hts' : List.lookup id' L.tupleSorts = some ts') (heq : ts.sort = ts'.sort) : id = id' ∧ ts = ts' := by
  obtain ⟨i, r, hi, rfl, rfl⟩ := h.lookup_some hts
  obtain ⟨j, r', hj, rfl, rfl⟩ := h.lookup_some hts'
  have hij : i = j := by simpa [tupleSortAt] using heq
  subst hij
  rw [hi] at hj
  cases hj
  exact ⟨rfl, rfl⟩

/-- A relation with an end of the sort of a type is incident to the type. -/
theorem Laid.mem_incident (hlaid : L.Laid symbols) (hsort : L.sortOf type = .ok (some sort))
    (hts : List.lookup id L.tupleSorts = some ts) (hend : ts.source = sort ∨ ts.target = sort) :
    ∃ r ∈ L.store.incidentRelations type.signature, r.id = id := by
  obtain ⟨component, -, hcomponent, rfl⟩ := hlaid.sortOf_eq (hlaid.componentCount_pos hts) hsort
  obtain ⟨i, r, hi, rfl, rfl⟩ := hlaid.lookup_some hts
  have hbase := mem_of_getElem? hi
  have hr : r ∈ L.store.relations := (mem_filter.1 hbase).1
  refine ⟨r, ?_, rfl⟩
  rw [Store.incidentRelations, show L.store.graph.componentOfSignature type.signature = some component from hcomponent]
  refine mem_filter.2 ⟨hbase, ?_⟩
  have hsource := hlaid.classSort_eq (hlaid.store.source r hr)
  have htarget := hlaid.classSort_eq (hlaid.store.target r hr)
  rcases hend with hend | hend
  · have heq : L.classSort r.source = ⟨component⟩ := hend
    rw [hsource] at heq
    cases heq
    simp [graph]
  · have heq : L.classSort r.target = ⟨component⟩ := hend
    rw [htarget] at heq
    cases heq
    simp [graph]

end Sorts

end Layout

end StoreCheck
