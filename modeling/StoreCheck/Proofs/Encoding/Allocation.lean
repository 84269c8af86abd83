import StoreCheck.Encoding.Setup
import StoreCheck.Proofs.WellFormed

/-!
# What the layout of a store looks like

Symbols are numbered in the order in which they are made, so the layout of a store can be written down: the sorts of the
components come first, then those of the base relations; the predicates of the classes come first, then those of the initial
slots; each base relation has two functions.
-/

namespace StoreCheck

open List Symbols

variable {ts : TupleSort} {symbols : Symbols} {r : Relation} {c : ClassId}

namespace Layout

/-! ## Running allocations -/

variable {σ α β : Type}

theorem mapM_cons_run (f : α → StateM σ β) (a : α) (l : List α) (s : σ) : ((a :: l).mapM f : StateM σ (List β)) s =
      ((f a s).1 :: ((l.mapM f : StateM σ (List β)) (f a s).2).1, ((l.mapM f : StateM σ (List β)) (f a s).2).2) := by
  rw [mapM_cons]
  rfl

theorem pure_run (a : α) (s : σ) : (pure a : StateM σ α) s = (a, s) := rfl

theorem get_run (s : σ) : (get : StateM σ σ) s = (s, s) := rfl

/-- Only sorts have been added, `n` of them. -/
structure AddsSorts (n : Nat) (s t : Symbols) : Prop where
  sorts : t.sorts.length = s.sorts.length + n
  predicates : t.predicates = s.predicates
  functions : t.functions = s.functions

theorem mapM_componentSort (g : ClassGraph) (components : List Nat) (s : Symbols) :
    ((components.mapM (componentSort g) : Alloc _) s).1 =
        (List.range' s.sorts.length components.length).map SortId.mk ∧
      AddsSorts components.length s ((components.mapM (componentSort g) : Alloc _) s).2 := by
  induction components generalizing s with
  | nil => exact ⟨rfl, rfl, rfl, rfl⟩
  | cons k rest ih =>
    rw [mapM_cons_run]
    obtain ⟨hids, hsorts, hpreds, hfuncs⟩ := ih (componentSort g k s).2
    have hlength : (componentSort g k s).2.sorts.length = s.sorts.length + 1 := by
      simp [componentSort, Alloc.sort, addSort]
    rw [hlength] at hids hsorts
    refine ⟨?_, ?_, hpreds, hfuncs⟩
    · rw [length_cons, range'_succ, map_cons, hids]
      rfl
    · dsimp only
      rw [length_cons]
      omega

/-- Only predicates have been added, with the given argument sorts. -/
structure AddsPredicates (args : List (List SortId)) (s t : Symbols) : Prop where
  sorts : t.sorts = s.sorts
  predicates : t.predicates.map (·.args) = s.predicates.map (·.args) ++ args
  functions : t.functions = s.functions

theorem mapM_predicates (args : α → List SortId) (make : PredId → β)
    (hf : ∀ a s, ∃ hint, f a s = (make (s.addPredicate hint (args a)).1, (s.addPredicate hint (args a)).2)) (l : List α)
    (s : Symbols) :
    ((l.mapM f : Alloc _) s).1 = (List.range' s.predicates.length l.length).map (fun i => make ⟨i⟩) ∧
      AddsPredicates (l.map args) s ((l.mapM f : Alloc _) s).2 := by
  induction l generalizing s with
  | nil => exact ⟨rfl, rfl, by simp [pure_run], rfl⟩
  | cons a rest ih =>
    rw [mapM_cons_run]
    obtain ⟨hids, hsorts, hpreds, hfuncs⟩ := ih (f a s).2
    obtain ⟨hint, heq⟩ := hf a s
    have hlength : (f a s).2.predicates.length = s.predicates.length + 1 := by
      simp [heq, addPredicate]
    have hargs : (f a s).2.predicates.map (·.args) = s.predicates.map (·.args) ++ [args a] := by
      simp [heq, addPredicate]
    rw [hlength] at hids
    refine ⟨?_, ?_, ?_, ?_⟩
    · rw [length_cons, range'_succ, map_cons, hids, heq]
      rfl
    · rw [hsorts, heq]
      rfl
    · rw [hpreds, hargs, map_cons, append_assoc]
      rfl
    · rw [hfuncs, heq]
      rfl

/-- The functions of the ends of a tuple sort are declared. -/
structure HasEnds (functions : List FuncSymbol) (ts : TupleSort) : Prop where
  left : ∃ name, functions[ts.left.index]? = some ⟨name, [ts.sort], ts.source⟩
  right : ∃ name, functions[ts.right.index]? = some ⟨name, [ts.sort], ts.target⟩

theorem HasEnds.mono (h : HasEnds fs ts) (hle : fs <+: gs) : HasEnds gs ts := by
  obtain ⟨extra, rfl⟩ := hle
  refine ⟨h.left.imp fun name hn => ?_, h.right.imp fun name hn => ?_⟩
  · rw [getElem?_append_left (List.getElem?_eq_some_iff.1 hn).1, hn]
  · rw [getElem?_append_left (List.getElem?_eq_some_iff.1 hn).1, hn]

/-- The tuple sort of the base relation in the `i`-th place, when `n` sorts come before. -/
def tupleSortAt (store : Store) (sorts : List SortId) (n i : Nat) (r : Relation) : TupleSort where
  sort := ⟨n + i⟩
  left := ⟨2 * i⟩
  right := ⟨2 * i + 1⟩
  source := sorts.getD (store.graph.componentOf r.source) ⟨0⟩
  target := sorts.getD (store.graph.componentOf r.target) ⟨0⟩

/-- Every base relation takes the next sort and the next two functions. -/
theorem mapM_relationSort (store : Store) (sorts : List SortId) (rs : List Relation) (n i : Nat) (s : Symbols)
    (hsorts : s.sorts.length = n + i) (hfuncs : s.functions.length = 2 * i) :
    ((rs.mapM (relationSort store sorts) : Alloc _) s).1 =
        rs.mapIdx (fun j r => (r.id, tupleSortAt store sorts n (i + j) r)) ∧
      ((rs.mapM (relationSort store sorts) : Alloc _) s).2.sorts.length = n + i + rs.length ∧
      ((rs.mapM (relationSort store sorts) : Alloc _) s).2.predicates = s.predicates ∧
      s.functions <+: ((rs.mapM (relationSort store sorts) : Alloc _) s).2.functions ∧
      ((rs.mapM (relationSort store sorts) : Alloc _) s).2.functions.length = 2 * (i + rs.length) ∧
      ∀ p ∈ ((rs.mapM (relationSort store sorts) : Alloc _) s).1,
        HasEnds ((rs.mapM (relationSort store sorts) : Alloc _) s).2.functions p.2 := by
  induction rs generalizing s i with
  | nil => exact ⟨rfl, hsorts, rfl, prefix_refl _, hfuncs, by simp [pure_run]⟩
  | cons r rest ih =>
    rw [mapM_cons_run]
    have hstate : (relationSort store sorts r s).2.sorts.length = n + (i + 1) ∧
        (relationSort store sorts r s).2.functions.length = 2 * (i + 1) := by
      simp [relationSort, Alloc.sort, Alloc.function, addSort, addFunction, bind, StateT.bind, pure_run, hsorts, hfuncs]
      omega
    have hentry : (relationSort store sorts r s).1 = (r.id, tupleSortAt store sorts n i r) := by
      simp [relationSort, Alloc.sort, Alloc.function, addSort, addFunction, bind, StateT.bind, pure_run, hsorts, hfuncs, tupleSortAt]
    have hends : HasEnds (relationSort store sorts r s).2.functions (tupleSortAt store sorts n i r) := by
      constructor <;>
      · simp [relationSort, Alloc.sort, Alloc.function, addSort, addFunction, bind, StateT.bind, pure_run, hsorts, hfuncs, tupleSortAt]
    have htable : s.functions <+: (relationSort store sorts r s).2.functions := by
      simp [relationSort, Alloc.sort, Alloc.function, addSort, addFunction, bind, StateT.bind, pure_run]
    obtain ⟨hids, hlength, hpreds, hfunctions, hcount, hall⟩ := ih (i + 1) (relationSort store sorts r s).2 hstate.1 hstate.2
    refine ⟨?_, ?_, hpreds, htable.trans hfunctions, ?_, ?_⟩
    · rw [mapIdx_cons, hids, hentry]
      simp [Nat.add_assoc, Nat.add_comm 1]
    · rw [hlength, length_cons]
      omega
    · rw [hcount, length_cons]
      omega
    · intro p hp
      rcases mem_cons.1 hp with rfl | hp
      · rw [hentry]
        exact hends.mono hfunctions
      · exact hall p hp

/-! ## The layout -/

/-- The number of sorts of a store: one for each component and each base relation. -/
def sortCount (store : Store) : Nat := store.graph.componentCount + store.baseRelations.length

/-- The layout of a store, written down. -/
structure Shape (L : Layout) (symbols : Symbols) : Prop where
  componentSorts : L.componentSorts = (List.range L.graph.componentCount).map SortId.mk
  classPreds : L.classPreds = (List.range L.graph.size).map PredId.mk
  tupleSorts : L.tupleSorts = L.store.baseRelations.mapIdx fun i r =>
    (r.id, tupleSortAt L.store L.componentSorts L.graph.componentCount i r)
  initial : L.initial = ⟨(List.range (sortCount L.store)).map fun i => ⟨⟨L.graph.size + i⟩, 0⟩⟩
  sorts : symbols.sorts.length = sortCount L.store
  predicates : symbols.predicates.map (·.args) =
    L.graph.ids.map (fun c => [L.classSort c]) ++ (List.range (sortCount L.store)).map fun i => [⟨i⟩]
  ends : ∀ p ∈ L.tupleSorts, HasEnds symbols.functions p.2
  functions : symbols.functions.length = 2 * L.store.baseRelations.length

/-- The layout is laid out with these symbols for a well-formed store. -/
structure Laid (L : Layout) (symbols : Symbols) : Prop extends L.Shape symbols where
  store : L.store.WellFormed

/-- The layout has the sorts of components first, then those of tuples. -/
theorem shape_alloc (store : Store) : Shape (alloc store .empty).1 (alloc store .empty).2 := by
  obtain ⟨h1, hadds1⟩ := mapM_componentSort store.graph (List.range store.graph.componentCount) .empty
  generalize hr1 : ((List.range store.graph.componentCount).mapM (componentSort store.graph) : Alloc _) .empty = r1 at h1 hadds1
  obtain ⟨componentSorts, s1⟩ := r1
  obtain ⟨h2, hadds2⟩ := mapM_predicates (f := classPred store.graph componentSorts)
    (fun c => [componentSorts.getD (store.graph.componentOf c) ⟨0⟩]) id
    (fun c s => ⟨"is_" ++ store.graph.name c, rfl⟩) store.graph.ids s1
  generalize hr2 : (store.graph.ids.mapM (classPred store.graph componentSorts) : Alloc _) s1 = r2 at h2 hadds2
  obtain ⟨classPreds, s2⟩ := r2
  have hs2sorts : s2.sorts.length = store.graph.componentCount := by
    rw [hadds2.sorts, hadds1.sorts]
    simp [empty]
  have hs2funcs : s2.functions = [] := by rw [hadds2.functions, hadds1.functions]; rfl
  obtain ⟨h3, hsorts3, hpreds3, -, hfuncs3, hends3⟩ := mapM_relationSort store componentSorts store.baseRelations
    store.graph.componentCount 0 s2 hs2sorts (by rw [hs2funcs]; rfl)
  generalize hr3 : (store.baseRelations.mapM (relationSort store componentSorts) : Alloc _) s2 = r3
    at h3 hsorts3 hpreds3 hfuncs3 hends3
  obtain ⟨tupleSorts, s3⟩ := r3
  obtain ⟨h4, hadds4⟩ := mapM_predicates (f := initialSlot) (fun sort => [sort]) (fun p => (⟨p, 0⟩ : Slot))
    (fun sort s => ⟨"existed_initially_" ++ s.sortName sort, rfl⟩) s3.sortIds s3
  generalize hr4 : (s3.sortIds.mapM initialSlot : Alloc _) s3 = r4 at h4 hadds4
  obtain ⟨slots, s4⟩ := r4
  have hrun : alloc store .empty = ({ store, componentSorts, classPreds, tupleSorts, initial := ⟨slots⟩ }, s4) := by
    simp only [alloc, bind, StateT.bind, get_run, pure_run, hr1, hr2, hr3, hr4]
  have hsortIds : s3.sortIds.length = sortCount store := by
    simp only [sortIds, length_map, length_range]
    rw [hsorts3]
    rfl
  have hpred3 : s3.predicates.length = store.graph.size := by
    rw [hpreds3]
    have := congrArg List.length hadds2.predicates
    rw [hadds1.predicates] at this
    simpa [empty, ClassGraph.ids, ClassGraph.idsUpTo] using this
  rw [hrun]
  refine ⟨?_, ?_, ?_, ?_, ?_, ?_, ?_, ?_⟩
  · dsimp only at h1 ⊢
    rw [h1]
    simp [empty, range_eq_range', graph]
  · dsimp only at h2 ⊢
    rw [h2, hadds1.predicates]
    simp [empty, range_eq_range', ClassGraph.ids, ClassGraph.idsUpTo, graph]
  · dsimp only at h3 ⊢
    rw [h3]
    simp [graph]
  · dsimp only at h4 ⊢
    rw [h4, hpred3, hsortIds]
    simp [range'_eq_map_range, graph]
  · rw [hadds4.sorts, hsorts3]
    rfl
  · rw [hadds4.predicates, hpreds3, hadds2.predicates, hadds1.predicates]
    simp [empty, sortIds, hsorts3, sortCount, classSort, graph]
  · rw [hadds4.functions]
    exact hends3
  · rw [hadds4.functions, hfuncs3, Nat.zero_add]

/-- The layout of a well-formed store is laid out. -/
theorem laid_ofStore {store : Store} (hwf : store.WellFormed) : Laid (ofStore store).1 (ofStore store).2.symbols := ⟨shape_alloc store, hwf⟩

/-! ## Tuple sorts -/

theorem mem_of_lookup [BEq α] [LawfulBEq α] {b : β} {l : List (α × β)} (h : List.lookup a l = some b) : (a, b) ∈ l := by
  induction l with
  | nil => cases h
  | cons p rest ih =>
    obtain ⟨a', b'⟩ := p
    rw [lookup_cons] at h
    split at h
    · rename_i heq
      cases h
      rw [eq_of_beq heq]
      exact mem_cons_self
    · exact mem_cons_of_mem _ (ih h)

theorem exists_lookup [BEq α] [LawfulBEq α] {b : β} {l : List (α × β)} (h : (a, b) ∈ l) : ∃ b', List.lookup a l = some b' := by
  induction l with
  | nil => cases h
  | cons p rest ih =>
    obtain ⟨a', b'⟩ := p
    rw [lookup_cons]
    split
    · exact ⟨b', rfl⟩
    · rename_i hne
      rcases mem_cons.1 h with heq | hmem
      · cases heq
        simp at hne
      · exact ih hmem

variable {L : Layout}

/-- Every tuple sort belongs to a base relation. -/
theorem Shape.lookup_some (h : L.Shape symbols) {id : RelationId} (hts : List.lookup id L.tupleSorts = some ts) :
    ∃ i r, L.store.baseRelations[i]? = some r ∧ r.id = id ∧
      ts = tupleSortAt L.store L.componentSorts L.graph.componentCount i r := by
  have hmem := mem_of_lookup hts
  rw [h.tupleSorts] at hmem
  obtain ⟨i, hi, heq⟩ := mem_mapIdx.1 hmem
  cases heq
  exact ⟨i, _, getElem?_eq_getElem hi, rfl, rfl⟩

/-- Every base relation has a tuple sort. -/
theorem Laid.lookup_base (hlaid : L.Laid symbols) (hr : r ∈ L.store.baseRelations) :
    ∃ i, L.store.baseRelations[i]? = some r ∧ List.lookup r.id L.tupleSorts =
      some (tupleSortAt L.store L.componentSorts L.graph.componentCount i r) := by
  obtain ⟨i, hi⟩ := getElem?_of_mem hr
  have hentry : (r.id, tupleSortAt L.store L.componentSorts L.graph.componentCount i r) ∈ L.tupleSorts := by
    rw [hlaid.tupleSorts]
    obtain ⟨hlt, heq⟩ := List.getElem?_eq_some_iff.1 hi
    exact mem_mapIdx.2 ⟨i, hlt, by rw [heq]⟩
  obtain ⟨ts, hts⟩ := exists_lookup hentry
  obtain ⟨j, r', hj, hid, rfl⟩ := hlaid.lookup_some hts
  have heq : r' = r := hlaid.store.eq_of_id_eq (mem_filter.1 (mem_of_getElem? hj)).1 (mem_filter.1 hr).1 hid
  subst heq
  exact ⟨j, hj, hts⟩

end Layout

namespace TupleSort

/-- The sort of the end that a relation starts from. -/
def nearSort (ts : TupleSort) (flipped : Bool) : SortId := if flipped then ts.target else ts.source

/-- The sort of the end that a relation leads to. -/
def farSort (ts : TupleSort) (flipped : Bool) : SortId := if flipped then ts.source else ts.target

end TupleSort

namespace Layout

variable {L : Layout}

/-- A relation reads the tuples of its base between the sorts of its classes. -/
theorem Laid.ends_of_base (hlaid : L.Laid symbols) (hr : r ∈ L.store.relations)
    (hts : List.lookup r.base L.tupleSorts = some ts) :
    ts.nearSort r.flipped = L.classSort r.source ∧ ts.farSort r.flipped = L.classSort r.target := by
  obtain ⟨i, b, hb, hid, rfl⟩ := hlaid.lookup_some hts
  have hmem : b ∈ L.store.relations := (mem_filter.1 (mem_of_getElem? hb)).1
  cases hinv : r.inverseOf with
  | none =>
    have hbase : b = r := hlaid.store.eq_of_id_eq hmem hr (by simpa [Relation.base, hinv] using hid)
    subst hbase
    simp [TupleSort.nearSort, TupleSort.farSort, Relation.flipped, hinv, tupleSortAt, classSort, graph]
  | some id =>
    obtain ⟨base, hbase, hbid, -, hsource, htarget⟩ := hlaid.store.inverse r hr id hinv
    have heq : b = base := hlaid.store.eq_of_id_eq hmem hbase (by simpa [Relation.base, hinv, hbid] using hid)
    subst heq
    simp [TupleSort.nearSort, TupleSort.farSort, Relation.flipped, hinv, tupleSortAt, classSort, graph, hsource, htarget]

/-- The tuples of a base relation lead between the sorts of its classes. -/
theorem Laid.ends_base (hlaid : L.Laid symbols) (hr : r ∈ L.store.baseRelations)
    (hts : List.lookup r.id L.tupleSorts = some ts) :
    ts.source = L.classSort r.source ∧ ts.target = L.classSort r.target := by
  obtain ⟨i, b, hi, hid, rfl⟩ := hlaid.lookup_some hts
  have heq : b = r := hlaid.store.eq_of_id_eq (mem_filter.1 (mem_of_getElem? hi)).1 (mem_filter.1 hr).1 hid
  subst heq
  exact ⟨rfl, rfl⟩

theorem Shape.length_predicates (h : L.Shape symbols) :
    symbols.predicates.length = L.graph.size + sortCount L.store := by
  have hlength := congrArg List.length h.predicates
  simpa [ClassGraph.ids, ClassGraph.idsUpTo] using hlength

theorem Shape.mem_sorts (h : L.Shape symbols) : sort ∈ L.sorts ↔ sort.index < sortCount L.store := by
  rw [Layout.sorts, Snapshot.sorts, h.initial]
  simp only [length_map, length_range, mem_map, mem_range]
  exact ⟨fun ⟨i, hi, heq⟩ => heq ▸ hi, fun hi => ⟨sort.index, hi, rfl⟩⟩

theorem Laid.classSort_eq (hlaid : L.Laid symbols) (hc : c.index < L.graph.size) :
    L.classSort c = ⟨L.graph.componentOf c⟩ := by
  have hlt : L.graph.componentOf c < L.graph.componentCount := hlaid.store.graph.lt c hc
  rw [classSort, hlaid.componentSorts, getD_eq_getElem?_getD, getElem?_map, getElem?_range hlt]
  rfl

theorem Laid.classSort_lt (hlaid : L.Laid symbols) (hc : c.index < L.graph.size) :
    (L.classSort c).index < sortCount L.store := by
  rw [hlaid.classSort_eq hc]
  exact Nat.lt_of_lt_of_le (hlaid.store.graph.lt c hc) (Nat.le_add_right _ _)

/-- Every relation of the store has a tuple sort: its own or that of the relation it is the inverse of. -/
theorem Laid.exists_tupleSort (hlaid : L.Laid symbols) {r : Relation} (hr : r ∈ L.store.relations) :
    ∃ ts, List.lookup r.base L.tupleSorts = some ts := by
  cases hinverse : r.inverseOf with
  | none =>
    obtain ⟨i, -, hts⟩ := hlaid.lookup_base (r := r) (mem_filter.2 ⟨hr, by rw [hinverse]; rfl⟩)
    exact ⟨_, by rw [Relation.base, hinverse]; exact hts⟩
  | some b =>
    obtain ⟨base, hbase, rfl, hnone, -, -⟩ := hlaid.store.inverse r hr b hinverse
    obtain ⟨i, -, hts⟩ := hlaid.lookup_base (r := base) (mem_filter.2 ⟨hbase, by rw [hnone]; rfl⟩)
    exact ⟨_, by rw [Relation.base, hinverse]; exact hts⟩

theorem Shape.tupleSort_lt (h : L.Shape symbols) {id : RelationId}
    (hts : List.lookup id L.tupleSorts = some ts) : ts.sort.index < sortCount L.store := by
  obtain ⟨i, base, hi, -, rfl⟩ := h.lookup_some hts
  exact Nat.add_lt_add_left (List.getElem?_eq_some_iff.1 hi).1 _

theorem Laid.ends_lt (hlaid : L.Laid symbols) {id : RelationId}
    (hts : List.lookup id L.tupleSorts = some ts) :
    ts.source.index < sortCount L.store ∧ ts.target.index < sortCount L.store := by
  obtain ⟨i, base, hi, -, rfl⟩ := hlaid.lookup_some hts
  have hbase : base ∈ L.store.relations := (mem_filter.1 (mem_of_getElem? hi)).1
  exact ⟨hlaid.classSort_lt (hlaid.store.source base hbase), hlaid.classSort_lt (hlaid.store.target base hbase)⟩

end Layout

end StoreCheck
