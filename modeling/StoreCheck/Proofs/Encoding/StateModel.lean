import StoreCheck.Proofs.Encoding.GoalMeaning

/-!
# The structure of a universe

Every universe of objects is shown by a structure that obeys the base axioms. An object is shown once in each component. Sorts must
not be empty, so every component has one more object, which belongs to all its classes and never exists. Tuples are the pairs of
objects of the classes of a relation, so that there is exactly one tuple between any two such objects.

The class predicates are fixed by the universe; all other predicates are left open (`Universe.model`). With the initial
predicates read off a state, the structure shows the state (`State.model_shows`).
-/

namespace StoreCheck

open List Universe

variable {store : Store} {symbols : Symbols} {ts : TupleSort}

/-! ## Elements -/

namespace Universe

/-- An object as seen in a component or, without an object, one that never exists. -/
@[ext]
structure Point (U : Universe) where
  component : Nat
  object : Option U.Obj

/-- The point belongs to the class. -/
def Point.IsOf {U : Universe} (p : U.Point) (g : ClassGraph) (c : ClassId) : Prop :=
  p.component = g.componentOf c ∧ ∀ o, p.object = some o → U.isOf c o

variable {c : ClassId}

theorem isOf_some {U : Universe} {g : ClassGraph} {o : U.Obj} : Point.IsOf ⟨g.componentOf c, some o⟩ g c ↔ U.isOf c o := by
  simp [Point.IsOf]

/-- The points belong to the classes of the base relation in the `i`-th place. -/
def Joined {U : Universe} (store : Store) (i : Nat) (x y : U.Point) : Prop :=
  ∃ r, store.baseRelations[i]? = some r ∧ x.IsOf store.graph r.source ∧ y.IsOf store.graph r.target

/-- Points, and for every base relation the pairs of points of its classes. -/
inductive Element (U : Universe) (store : Store) where
  | point (p : U.Point)
  | pair (i : Nat) (x y : U.Point) (joined : Joined store i x y)

namespace Element

variable {U : Universe}

/-- The sort of an element: points of components come first, then pairs, then what belongs to no component. -/
def sort : U.Element store → SortId
  | .point p => if p.component < store.graph.componentCount then ⟨p.component⟩ else ⟨p.component + store.baseRelations.length⟩
  | .pair i _ _ _ => ⟨store.graph.componentCount + i⟩

/-- The left end of a pair. -/
def left : U.Element store → U.Element store
  | .point p => .point p
  | .pair _ x _ _ => .point x

/-- The right end of a pair. -/
def right : U.Element store → U.Element store
  | .point p => .point p
  | .pair _ _ y _ => .point y

/-- The functions with even numbers give left ends, the others right ends. -/
def ends (f : FuncId) : List (U.Element store) → U.Element store
  | [e] => if f.index % 2 = 0 then e.left else e.right
  | _ => .point ⟨0, none⟩

theorem exists_sort (s : SortId) : ∃ e : U.Element store, e.sort = s := by
  obtain ⟨k⟩ := s
  by_cases hk : k < store.graph.componentCount
  · exact ⟨.point ⟨k, none⟩, if_pos hk⟩
  by_cases hi : k - store.graph.componentCount < store.baseRelations.length
  · generalize hr : store.baseRelations[k - store.graph.componentCount] = r
    have joined : Joined store (k - store.graph.componentCount) (U := U) ⟨store.graph.componentOf r.source, none⟩
        ⟨store.graph.componentOf r.target, none⟩ := by
      refine ⟨r, hr ▸ getElem?_eq_getElem hi, ⟨rfl, ?_⟩, rfl, ?_⟩ <;> simp
    exact ⟨.pair _ _ _ joined, congrArg SortId.mk (Nat.add_sub_cancel' (Nat.le_of_not_lt hk))⟩
  · have hout : ¬ k - store.baseRelations.length < store.graph.componentCount := by omega
    exact ⟨.point ⟨k - store.baseRelations.length, none⟩, (if_neg hout).trans (congrArg SortId.mk (by dsimp only; omega))⟩

theorem eq_point_of_sort {e : U.Element store} (h : e.sort = ⟨k⟩) (hk : k < store.graph.componentCount) :
    ∃ object, e = .point ⟨k, object⟩ := by
  cases e with
  | point p =>
    rw [sort] at h
    split at h
    · cases h
      exact ⟨p.object, rfl⟩
    · cases h
      omega
  | pair i x y joined =>
    cases h
    omega

theorem eq_pair_of_sort {e : U.Element store} (h : e.sort = ⟨store.graph.componentCount + i⟩)
    (hi : i < store.baseRelations.length) : ∃ x y joined, e = .pair i x y joined := by
  cases e with
  | point p =>
    rw [sort] at h
    have := congrArg SortId.index h
    split at this <;> dsimp only at this <;> omega
  | pair j x y joined =>
    have := congrArg SortId.index h
    rw [sort] at this
    dsimp only at this
    obtain rfl : j = i := by omega
    exact ⟨x, y, joined, rfl⟩

end Element

/-- The structure of a universe, given the meaning of all predicates other than those of classes. -/
def model (U : Universe) (store : Store) (I : PredId → List (U.Element store) → Prop) : Structure where
  Elem := U.Element store
  sort := Element.sort
  func := Element.ends
  pred p args := if p.index < store.graph.size then ∃ x, args = [.point x] ∧ x.IsOf store.graph ⟨p.index⟩ else I p args
  inhabited := Element.exists_sort

variable {U : Universe} {L : Layout}

theorem Element.sort_point_of_isOf (hs : L.store.WellFormed) (hc : c.index < L.graph.size) {x : U.Point}
    (hx : x.IsOf L.graph c) : (Element.point x : U.Element L.store).sort = ⟨L.graph.componentOf c⟩ := by
  rw [Element.sort, hx.1]
  exact if_pos (hs.graph.lt c hc)

/-- The functions give points of the sorts of the ends. -/
theorem model_fits (hlaid : L.Laid symbols) : (U.model L.store I).Fits symbols := by
  intro f symbol hf args hargs
  obtain ⟨hlt, -⟩ := List.getElem?_eq_some_iff.1 hf
  rw [hlaid.functions] at hlt
  have hi : f.index / 2 < L.store.baseRelations.length := by omega
  have hr := getElem?_eq_getElem hi
  have hbase := (mem_filter.1 (mem_of_getElem? hr)).1
  have hends := hlaid.ends (_, _) (hlaid.tupleSorts ▸ mem_mapIdx.2 ⟨f.index / 2, hi, rfl⟩)
  obtain ⟨⟨_, hleft⟩, ⟨_, hright⟩⟩ := hends
  have harg : symbol.args = [⟨L.graph.componentCount + f.index / 2⟩] → ∃ x y joined, args = [.pair (f.index / 2) x y joined] := by
    intro h
    rw [h] at hargs
    obtain ⟨e, rfl⟩ : ∃ e, args = [e] := length_eq_one_iff.1 (by simpa using congrArg List.length hargs)
    obtain ⟨x, y, joined, rfl⟩ := Element.eq_pair_of_sort (List.cons.inj hargs).1 hi
    exact ⟨x, y, joined, rfl⟩
  rcases Nat.mod_two_eq_zero_or_one f.index with hmod | hmod
  · have hindex : 2 * (f.index / 2) = f.index := by omega
    rw [show (Layout.tupleSortAt _ _ _ _ _).left.index = f.index from hindex, hf] at hleft
    cases hleft
    obtain ⟨x, y, ⟨r, hr', hx, hy⟩, rfl⟩ := harg rfl
    cases hr.symm.trans hr'
    change Element.sort (Element.ends f [_]) = _
    rw [Element.ends, if_pos hmod]
    exact (Element.sort_point_of_isOf hlaid.store (hlaid.store.source _ hbase) hx).trans (hlaid.classSort_eq (hlaid.store.source _ hbase)).symm
  · have hindex : 2 * (f.index / 2) + 1 = f.index := by omega
    rw [show (Layout.tupleSortAt _ _ _ _ _).right.index = f.index from hindex, hf] at hright
    cases hright
    obtain ⟨x, y, ⟨r, hr', hx, hy⟩, rfl⟩ := harg rfl
    cases hr.symm.trans hr'
    change Element.sort (Element.ends f [_]) = _
    rw [Element.ends, if_neg (by omega)]
    exact (Element.sort_point_of_isOf hlaid.store (hlaid.store.target _ hbase) hy).trans (hlaid.classSort_eq (hlaid.store.target _ hbase)).symm

theorem model_isOf (hlaid : L.Laid symbols) (hc : c.index < L.graph.size) (e : U.Element L.store) :
    L.IsOf (U.model L.store I) c e ↔ ∃ x, e = .point x ∧ x.IsOf L.graph c := by
  have hpred : L.classPreds.getD c.index ⟨0⟩ = ⟨c.index⟩ := by
    rw [hlaid.classPreds]
    simp [hc]
  change (U.model L.store I).pred (L.classPreds.getD c.index ⟨0⟩) [e] ↔ _
  rw [hpred]
  change (if c.index < L.graph.size then ∃ x, [e] = [.point x] ∧ Point.IsOf x L.graph c else _) ↔ _
  rw [if_pos hc]
  simp

theorem model_ends (hlaid : L.Laid symbols) {id : RelationId} (hts : List.lookup id L.tupleSorts = some ts)
    (e : U.Element L.store) : ts.Left (U.model L.store I) e = e.left ∧ ts.Right (U.model L.store I) e = e.right := by
  obtain ⟨i, r, -, -, rfl⟩ := hlaid.lookup_some hts
  have hleft : (2 * i) % 2 = 0 := by omega
  have hright : ¬ (2 * i + 1) % 2 = 0 := by omega
  exact ⟨if_pos hleft, if_neg hright⟩

/-- The tuples of a relation are the pairs of points of its classes. -/
theorem model_tuple (hlaid : L.Laid symbols) {id : RelationId} (hts : List.lookup id L.tupleSorts = some ts) :
    ∃ i r, L.store.baseRelations[i]? = some r ∧ r.id = id ∧ ts.source = L.classSort r.source ∧ ts.target = L.classSort r.target ∧
      ∀ e : U.Element L.store, e.sort = ts.sort ↔
        ∃ x y joined, e = .pair i x y joined ∧ x.IsOf L.graph r.source ∧ y.IsOf L.graph r.target := by
  obtain ⟨i, r, hr, hid, rfl⟩ := hlaid.lookup_some hts
  refine ⟨i, r, hr, hid, rfl, rfl, fun e => ?_⟩
  constructor
  · intro he
    obtain ⟨x, y, ⟨r', hr', hx, hy⟩, rfl⟩ := Element.eq_pair_of_sort he (List.getElem?_eq_some_iff.1 hr).1
    cases hr.symm.trans hr'
    exact ⟨x, y, _, rfl, hx, hy⟩
  · rintro ⟨x, y, joined, rfl, -, -⟩
    rfl

end Universe

/-! ## States -/

variable {U : Universe}

/-- What exists in a state. -/
def Universe.Element.Exists {store : Store} (st : State U) : U.Element store → Prop
  | .point p => ∃ o, p.object = some o ∧ st.alive o
  | .pair i x y _ => ∃ r a b, store.baseRelations[i]? = some r ∧ x.object = some a ∧ y.object = some b ∧ st.linked r.id a b

namespace State

/-- The structure of a state, given the meaning of all predicates that come after the initial ones. -/
def model (st : State U) (store : Store) (I : PredId → List (U.Element store) → Prop) : Structure :=
  U.model store fun p args =>
    if p.index < store.graph.size + Layout.sortCount store then ∃ e, args = [e] ∧ e.Exists st else I p args

/-- The structure of a state as a view of it. -/
def view (st : State U) (store : Store) (I : PredId → List (U.Element store) → Prop) (cs : Contexts) : View where
  M := st.model store I
  U := U
  emb sort o := .point ⟨sort.index, some o⟩
  st := st
  cs := cs
  as := []

variable {L : Layout} {st : State U}

theorem at_initial (hlaid : L.Laid symbols) {sort : SortId} (hsort : sort.index < Layout.sortCount L.store)
    (e : U.Element L.store) : (L.initial.slot sort).At (st.model L.store I) [] e ↔ e.Exists st := by
  have hslot : L.initial.slot sort = ⟨⟨L.graph.size + sort.index⟩, 0⟩ := by
    rw [hlaid.initial, Snapshot.slot]
    simp [hsort]
  rw [hslot]
  change (if L.graph.size + sort.index < L.graph.size then _ else
    if L.graph.size + sort.index < L.graph.size + Layout.sortCount L.store then ∃ e', [e] = [e'] ∧ e'.Exists st else _) ↔ _
  rw [if_neg (by omega), if_pos (by omega)]
  simp

theorem model_pred {p : PredId} (hp : L.graph.size + Layout.sortCount L.store ≤ p.index) (args : List (U.Element L.store)) :
    (st.model L.store I).pred p args ↔ I p args := by
  change (if p.index < L.graph.size then _ else
    if p.index < L.graph.size + Layout.sortCount L.store then _ else I p args) ↔ _
  rw [if_neg (by omega), if_neg (by omega)]

theorem model_ends (hlaid : L.Laid symbols) {id : RelationId} (hts : List.lookup id L.tupleSorts = some ts)
    (e : U.Element L.store) : ts.Left (st.model L.store I) e = e.left ∧ ts.Right (st.model L.store I) e = e.right :=
  Universe.model_ends hlaid hts e

/-- The tuples of a relation of a sound state are whole, and there is one between any two objects. -/
theorem model_joins (hlaid : L.Laid symbols) (hsound : st.Sound L.store) {r : Relation}
    (hr : r ∈ L.store.baseRelations) (hts : List.lookup r.id L.tupleSorts = some ts) : ts.Joins (st.model L.store I) L r := by
  have hsource := hlaid.store.source r (mem_filter.1 hr).1
  have htarget := hlaid.store.target r (mem_filter.1 hr).1
  obtain ⟨i, r', hi, hid, -, -, htuple⟩ := model_tuple (U := U) hlaid hts
  cases hlaid.store.eq_of_id_eq (mem_filter.1 (mem_of_getElem? hi)).1 (mem_filter.1 hr).1 hid
  have hends : ∀ e : U.Element L.store, ts.Left (st.model L.store I) e = e.left ∧ ts.Right (st.model L.store I) e = e.right :=
    model_ends hlaid hts
  refine ⟨fun t ht => ?_, fun t ht u hu hleft hright => ?_, fun x _ y _ hx hy => ?_, fun t ht hslot => ?_⟩
  · obtain ⟨x, y, joined, rfl, hx, hy⟩ := (htuple t).1 ht
    rw [(hends _).1, (hends _).2]
    exact ⟨(model_isOf hlaid hsource _).2 ⟨x, rfl, hx⟩, (model_isOf hlaid htarget _).2 ⟨y, rfl, hy⟩⟩
  · obtain ⟨x, y, joined, rfl, -, -⟩ := (htuple t).1 ht
    obtain ⟨x', y', joined', rfl, -, -⟩ := (htuple u).1 hu
    rw [(hends _).1, (hends _).1] at hleft
    rw [(hends _).2, (hends _).2] at hright
    cases hleft
    cases hright
    rfl
  · obtain ⟨a, rfl, ha⟩ := (model_isOf hlaid hsource x).1 hx
    obtain ⟨b, rfl, hb⟩ := (model_isOf hlaid htarget y).1 hy
    have joined : Universe.Joined L.store i a b := ⟨r, hi, ha, hb⟩
    exact ⟨.pair i a b joined, (htuple _).2 ⟨a, b, joined, rfl, ha, hb⟩, (hends _).1, (hends _).2⟩
  · obtain ⟨x, y, joined, rfl, -, -⟩ := (htuple t).1 ht
    rw [(hends _).1, (hends _).2]
    obtain ⟨r', a, b, hi', ha, hb, hlinked⟩ := (at_initial hlaid (hlaid.tupleSort_lt hts) _).1 hslot
    cases hi.symm.trans hi'
    obtain ⟨⟨halive, -⟩, ⟨halive', -⟩⟩ := hsound r hr a b hlinked
    have hlt := hlaid.ends_lt hts
    exact ⟨(at_initial hlaid hlt.1 _).2 ⟨a, ha, halive⟩, (at_initial hlaid hlt.2 _).2 ⟨b, hb, halive'⟩⟩

/-- The structure of a sound state obeys the base axioms. -/
theorem model_founds (hlaid : L.Laid symbols)
    (hclosed : ∀ c, ∀ p ∈ L.graph.parentsOf c, ∀ o, U.isOf c o → U.isOf p o) (hsound : st.Sound L.store) :
    L.Founds (st.model L.store I) where
  inherits c hc parent hparent e _ he := by
    obtain ⟨hlt, hcomponent⟩ := hlaid.store.graph.parents c parent hparent
    obtain ⟨x, rfl, hx⟩ := (model_isOf hlaid (ClassGraph.mem_idsUpTo.1 hc) e).1 he
    refine (model_isOf hlaid hlt _).2 ⟨x, rfl, hx.1.trans hcomponent.symm, fun o ho => ?_⟩
    exact hclosed c parent hparent o (hx.2 o ho)
  joins r hr ts hts := model_joins hlaid hsound hr hts

/-- The structure of a sound state shows the state. -/
theorem model_shows (hlaid : L.Laid symbols) (hsound : st.Sound L.store) (cs : Contexts) :
    (st.view L.store I cs).Shows L L.initial where
  injective sort a b h := by
    cases h
    rfl
  ends id ts hts t ht := by
    obtain ⟨⟨_, hleft⟩, ⟨_, hright⟩⟩ := hlaid.ends (id, ts) (Layout.mem_of_lookup hts)
    have hfits : (st.model L.store I).Fits symbols := model_fits hlaid
    exact ⟨hfits ts.left _ hleft [t] (congrArg (· :: []) ht), hfits ts.right _ hright [t] (congrArg (· :: []) ht)⟩
  sort c hc o _ := by
    rw [hlaid.classSort_eq hc]
    exact if_pos (hlaid.store.graph.lt c hc)
  alive c hc e he := by
    have hlt := hlaid.classSort_lt hc
    rw [hlaid.classSort_eq hc] at he hlt ⊢
    obtain ⟨object, rfl⟩ := Universe.Element.eq_point_of_sort he (hlaid.store.graph.lt c hc)
    constructor
    · rintro ⟨hslot, hisOf⟩
      obtain ⟨o, rfl, halive⟩ := (at_initial hlaid hlt _).1 hslot
      obtain ⟨x, hx, hisOf⟩ := (model_isOf hlaid hc _).1 hisOf
      cases hx
      exact ⟨o, ⟨halive, hisOf.2 o rfl⟩, rfl⟩
    · rintro ⟨o, ⟨halive, hisOf⟩, heq⟩
      cases heq
      exact ⟨(at_initial hlaid hlt _).2 ⟨o, rfl, halive⟩,
        (model_isOf hlaid hc _).2 ⟨_, rfl, isOf_some.2 hisOf⟩⟩
  linked id ts hts x y := by
    obtain ⟨i, r, hi, rfl, hsource, htarget, htuple⟩ := model_tuple (U := U) hlaid hts
    have hr : r ∈ L.store.baseRelations := mem_of_getElem? hi
    have hrs := hlaid.store.source r (mem_filter.1 hr).1
    have hrt := hlaid.store.target r (mem_filter.1 hr).1
    have hends : ∀ e : U.Element L.store, ts.Left (st.model L.store I) e = e.left ∧ ts.Right (st.model L.store I) e = e.right :=
      model_ends hlaid hts
    have hat : ∀ e : U.Element L.store, (L.initial.slot ts.sort).At (st.model L.store I) [] e ↔ e.Exists st :=
      at_initial hlaid (hlaid.tupleSort_lt hts)
    rw [hsource, htarget, hlaid.classSort_eq hrs, hlaid.classSort_eq hrt]
    constructor
    · rintro ⟨t, ht, hslot, rfl, rfl⟩
      obtain ⟨⟨k, _⟩, ⟨l, _⟩, joined, rfl, ⟨rfl, -⟩, ⟨rfl, -⟩⟩ := (htuple t).1 ht
      obtain ⟨r', a, b, hi', rfl, rfl, hlinked⟩ := (hat _).1 hslot
      cases hi.symm.trans hi'
      exact ⟨a, b, hlinked, (hends (.pair i _ _ joined)).1.symm, (hends (.pair i _ _ joined)).2.symm⟩
    · rintro ⟨a, b, hlinked, rfl, rfl⟩
      obtain ⟨⟨-, ha⟩, ⟨-, hb⟩⟩ := hsound r hr a b hlinked
      have hleft := (isOf_some (g := L.graph)).2 ha
      have hright := (isOf_some (g := L.graph)).2 hb
      have joined : Universe.Joined L.store i _ _ := ⟨r, hi, hleft, hright⟩
      refine ⟨.pair i _ _ joined, (htuple _).2 ⟨_, _, joined, rfl, hleft, hright⟩, ?_, ?_⟩
      · exact (hat (.pair i _ _ joined)).2 ⟨r, a, b, hi, rfl, rfl, hlinked⟩
      · exact hends (.pair i _ _ joined)

end State

end StoreCheck
