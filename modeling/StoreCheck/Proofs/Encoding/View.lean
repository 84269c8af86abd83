import StoreCheck.Proofs.Encoding.Membership
import StoreCheck.Proofs.Encoding.TypeSorts
import StoreCheck.Proofs.World

/-!
# Structures that show a state

A view is a structure together with a state of the store that it shows at a position: objects are elements, and the slots of a
snapshot hold of the existing objects and tuples. A value stands for a set of objects when it holds of the elements that show
them. `View.stands_objValue` says that the value of an expression without choices stands for the set that the expression
denotes.
-/

namespace StoreCheck

open List Encode Layout

variable {a : Option SortId} {v : ObjValue} {σ : Snapshot} {symbols : Symbols}

theorem exists_right_of_forall₂ {α β : Type} {R : α → β → Prop} {l : List α} {m : List β} (h : List.Forall₂ R l m) {a : α}
    (ha : a ∈ l) : ∃ b ∈ m, R a b := by
  induction h with
  | nil => cases ha
  | cons hr _ ih =>
    rcases mem_cons.1 ha with rfl | ha
    · exact ⟨_, mem_cons_self, hr⟩
    · obtain ⟨b, hb, hab⟩ := ih ha
      exact ⟨b, mem_cons_of_mem _ hb, hab⟩

theorem exists_left_of_forall₂ {α β : Type} {R : α → β → Prop} {l : List α} {m : List β} (h : List.Forall₂ R l m) {b : β}
    (hb : b ∈ m) : ∃ a ∈ l, R a b :=
  exists_right_of_forall₂ h.flip hb

/-- A structure, the state of the store that it shows, and the position at which it does. -/
structure View where
  M : Structure
  U : Universe
  /-- The element of a sort that an object is shown as; an object with classes of several components is shown in each. -/
  emb : SortId → U.Obj → M.Elem
  st : State U
  cs : Contexts
  /-- The position: the objects that the loops are at. -/
  as : List M.Elem

namespace View

/-- The structure shows the state by the snapshot. -/
structure Shows (V : View) (L : Layout) (σ : Snapshot) : Prop where
  injective : ∀ s a b, V.emb s a = V.emb s b → a = b
  ends : ∀ id ts, List.lookup id L.tupleSorts = some ts → ∀ t, V.M.sort t = ts.sort →
    V.M.sort (ts.Left V.M t) = ts.source ∧ V.M.sort (ts.Right V.M t) = ts.target
  sort : ∀ c : ClassId, c.index < L.graph.size → ∀ o, V.U.isOf c o → V.M.sort (V.emb (L.classSort c) o) = L.classSort c
  alive : ∀ c : ClassId, c.index < L.graph.size → ∀ e, V.M.sort e = L.classSort c →
    ((σ.slot (L.classSort c)).At V.M V.as e ∧ L.IsOf V.M c e ↔ ∃ o ∈ V.st.ofClass c, V.emb (L.classSort c) o = e)
  linked : ∀ id ts, List.lookup id L.tupleSorts = some ts → ∀ x y,
    (∃ t, V.M.sort t = ts.sort ∧ (σ.slot ts.sort).At V.M V.as t ∧ ts.Left V.M t = x ∧ ts.Right V.M t = y) ↔
      ∃ a b, V.st.linked id a b ∧ V.emb ts.source a = x ∧ V.emb ts.target b = y

/-- The value stands for the set: it holds of the elements of the sort that show its objects, and of nothing without a sort. -/
def Stands (V : View) (L : Layout) (ρ : V.M.Env) (v : ObjValue) (X : Set V.U.Obj) : Option SortId → Prop
  | none => X = ∅ ∧ ∀ e, ¬ v.Holds L V.M V.cs ρ V.as e
  | some s => (∀ o ∈ X, V.M.sort (V.emb s o) = s) ∧
      ∀ e, V.M.sort e = s → (v.Holds L V.M V.cs ρ V.as e ↔ ∃ o ∈ X, V.emb s o = e)

variable {V : View} {L : Layout} {ρ : V.M.Env}

theorem Stands.mono (h : V.Stands L ρ v X a) (hc : Covers a b) : V.Stands L ρ v X b := by
  rcases hc with rfl | rfl
  · obtain ⟨rfl, hnone⟩ := h
    cases b with
    | none => exact ⟨rfl, hnone⟩
    | some s =>
      refine ⟨fun o ho => absurd ho (Set.notMem_empty o), fun e _ => ?_⟩
      constructor
      · intro he
        exact absurd he (hnone e)
      · rintro ⟨o, ho, -⟩
        exact absurd ho (Set.notMem_empty o)
  · exact h

theorem Shows.stands_ofClass (h : V.Shows L σ) {c : ClassId} (hc : c.index < L.graph.size) :
    V.Stands L ρ (.ofClass c (σ.slot (L.classSort c))) (V.st.ofClass c) (some (L.classSort c)) := by
  refine ⟨fun o ho => h.sort c hc o ho.2, fun e he => ?_⟩
  exact h.alive c hc e he

variable {ts : TupleSort}

theorem sort_near (hends : ∀ id ts, List.lookup id L.tupleSorts = some ts → ∀ t, V.M.sort t = ts.sort →
      V.M.sort (ts.Left V.M t) = ts.source ∧ V.M.sort (ts.Right V.M t) = ts.target) {id : RelationId}
    (hts : List.lookup id L.tupleSorts = some ts) (flipped : Bool) (ht : V.M.sort t = ts.sort) :
    V.M.sort (ts.Near V.M flipped t) = ts.nearSort flipped ∧ V.M.sort (ts.Far V.M flipped t) = ts.farSort flipped := by
  obtain ⟨hl, hr⟩ := hends id ts hts t ht
  cases flipped
  · exact ⟨hl, hr⟩
  · exact ⟨hr, hl⟩

/-- The existing tuples of a relation show the pairs that it leads along. -/
theorem Shows.leads (h : V.Shows L σ) {id : RelationId} (hts : List.lookup id L.tupleSorts = some ts)
    (flipped : Bool) (x y : V.M.Elem) :
    (∃ t, V.M.sort t = ts.sort ∧ (σ.slot ts.sort).At V.M V.as t ∧ ts.Near V.M flipped t = x ∧ ts.Far V.M flipped t = y) ↔
      ∃ a b, V.st.Leads id flipped a b ∧ V.emb (ts.nearSort flipped) a = x ∧ V.emb (ts.farSort flipped) b = y := by
  cases flipped
  · exact h.linked id ts hts x y
  · constructor
    · rintro ⟨t, ht, hslot, hx, hy⟩
      obtain ⟨a, b, hab, ha, hb⟩ := (h.linked id ts hts y x).1 ⟨t, ht, hslot, hy, hx⟩
      exact ⟨b, a, hab, hb, ha⟩
    · rintro ⟨a, b, hab, ha, hb⟩
      obtain ⟨t, ht, hslot, hl, hr⟩ := (h.linked id ts hts y x).2 ⟨b, a, hab, hb, ha⟩
      exact ⟨t, ht, hslot, hr, hl⟩

/-- Following a relation stands for its image. -/
theorem Shows.stands_deref (h : V.Shows L σ) (hlaid : L.Laid symbols) (hr : r ∈ L.store.relations)
    (hts : List.lookup r.base L.tupleSorts = some ts) (hv : V.Stands L ρ v X (some (L.classSort r.source))) :
    V.Stands L ρ (.deref v r.base r.flipped (σ.slot ts.sort)) (V.st.targets r X) (some (L.classSort r.target)) := by
  obtain ⟨hnear, hfar⟩ := hlaid.ends_of_base hr hts
  have hleads := h.leads hts r.flipped
  rw [hnear, hfar] at hleads
  refine ⟨fun o ho => ?_, fun e he => ?_⟩
  · obtain ⟨a, -, hlead⟩ := ho
    obtain ⟨t, ht, -, -, hfart⟩ := (hleads _ _).2 ⟨a, o, hlead, rfl, rfl⟩
    rw [← hfart, (sort_near h.ends hts r.flipped ht).2, hfar]
  · rw [ObjValue.Holds]
    simp only [hts, Option.some.injEq, exists_eq_left']
    constructor
    · rintro ⟨t, ht, hslot, hfart, hin⟩
      have hsort : V.M.sort (ts.Near V.M r.flipped t) = L.classSort r.source := by
        rw [(sort_near h.ends hts r.flipped ht).1, hnear]
      obtain ⟨a, ha, heq⟩ := (hv.2 _ hsort).1 hin
      obtain ⟨a', b, hlead, ha', hb⟩ := (hleads _ _).1 ⟨t, ht, hslot, rfl, hfart⟩
      have : a = a' := h.injective _ _ _ (heq.trans ha'.symm)
      subst this
      exact ⟨b, ⟨a, ha, hlead⟩, hb⟩
    · rintro ⟨b, ⟨a, ha, hlead⟩, rfl⟩
      obtain ⟨t, ht, hslot, hn, hf⟩ := (hleads _ _).2 ⟨a, b, hlead, rfl, rfl⟩
      refine ⟨t, ht, hslot, hf, ?_⟩
      rw [hn]
      exact (hv.2 _ (hv.1 a ha)).2 ⟨a, ha, rfl⟩

/-! ## Unions -/

theorem holds_unionValue (vs : List ObjValue) (e : V.M.Elem) :
    (unionValue vs).Holds L V.M V.cs ρ V.as e ↔ ∃ v ∈ vs, v.Holds L V.M V.cs ρ V.as e := by
  have hfilter : (∃ v ∈ vs.filter (!·.isEmpty), v.Holds L V.M V.cs ρ V.as e) ↔
      ∃ v ∈ vs, v.Holds L V.M V.cs ρ V.as e := by
    constructor
    · rintro ⟨v, hv, he⟩
      exact ⟨v, (mem_filter.1 hv).1, he⟩
    · rintro ⟨v, hv, he⟩
      refine ⟨v, mem_filter.2 ⟨hv, ?_⟩, he⟩
      cases v <;> simp_all [ObjValue.isEmpty, ObjValue.Holds]
  rw [← hfilter]
  unfold unionValue
  split
  · simp_all [ObjValue.Holds]
  · simp_all
  · rw [ObjValue.Holds, ObjValue.holdsSome_iff]

/-- The union of values stands for the union of sets. -/
theorem stands_union {vs : List ObjValue} {Xs : List (Set V.U.Obj)} {a : Option SortId}
    (h : List.Forall₂ (fun v X => V.Stands L ρ v X a) vs Xs) :
    V.Stands L ρ (unionValue vs) {o | ∃ Y ∈ Xs, o ∈ Y} a := by
  cases a with
  | none =>
    refine ⟨?_, fun e he => ?_⟩
    · ext o
      simp only [Set.mem_ofPred_eq, Set.mem_empty_iff_false, iff_false, not_exists, not_and]
      intro Y hY
      obtain ⟨v, -, hv⟩ := exists_left_of_forall₂ h hY
      rw [hv.1]
      exact Set.notMem_empty o
    · obtain ⟨v, hv, he⟩ := (holds_unionValue vs e).1 he
      obtain ⟨X, -, hX⟩ := exists_right_of_forall₂ h hv
      exact hX.2 e he
  | some s =>
    refine ⟨fun o ⟨Y, hY, ho⟩ => ?_, fun e he => ?_⟩
    · obtain ⟨v, -, hv⟩ := exists_left_of_forall₂ h hY
      exact hv.1 o ho
    · rw [holds_unionValue]
      constructor
      · rintro ⟨v, hv, hve⟩
        obtain ⟨X, hX, hstands⟩ := exists_right_of_forall₂ h hv
        obtain ⟨o, ho, heq⟩ := (hstands.2 e he).1 hve
        exact ⟨o, ⟨X, hX, ho⟩, heq⟩
      · rintro ⟨o, ⟨Y, hY, ho⟩, heq⟩
        obtain ⟨v, hv, hstands⟩ := exists_left_of_forall₂ h hY
        exact ⟨v, hv, (hstands.2 e he).2 ⟨o, ho, heq⟩⟩

/-! ## Scopes and expressions -/

/-- The variables in scope stand for the values, in terms of the variables taken so far. -/
structure ScopeStands (V : View) (L : Layout) (ρ : V.M.Env) (n : Nat) (scope : Scope) (vars : Vars V.U) : Prop where
  stands : ∀ x b, scope.find? x = some b → ∃ a, L.sortOf b.type = .ok a ∧ V.Stands L ρ b.value (vars x) a
  settled : ∀ x b, scope.find? x = some b → b.value.Settled n

section Expressions

variable {symbols : Symbols} {s : Session} {scope : Scope} {vars : Vars V.U} {n : Nat}

/-- What is shown of the value of an expression without choices. -/
structure Means (V : View) (L : Layout) (ρ : V.M.Env) (n : Nat) (scope : Scope) (vars : Vars V.U) (e : ObjExpr)
    (v : ObjValue) (X : Set V.U.Obj) (a : Option SortId) : Prop where
  stands : V.Stands L ρ v X a
  settled : v.Settled n
  denotes : ∀ Y, e.Denotes L.store scope.types V.st vars Y ↔ Y = X

variable {t : ObjType} {s' : Session}

theorem means_var (hscope : V.ScopeStands L ρ n scope vars) {e : ObjExpr}
    (he : ∀ Y, e.Denotes L.store scope.types V.st vars Y ↔ Y = vars name) (ht : scope.types.typeOf name = .ok t)
    (hrun : boundValue scope name s = .ok (v, s')) :
    s' = s ∧ ∃ X a, L.sortOf t = .ok a ∧ V.Means L ρ n scope vars e v X a := by
  obtain ⟨b, hb, heq⟩ := boundValue_ok hrun
  cases heq
  have htype : t = b.type := by
    unfold TypeEnv.typeOf at ht
    rw [Scope.find?_types, hb] at ht
    simpa using ht.symm
  subst htype
  obtain ⟨a, ha, hstands⟩ := hscope.stands name b hb
  exact ⟨rfl, vars name, a, ha, hstands, hscope.settled name b hb, he⟩

theorem means_objValues {es : List ObjExpr} {acc : ObjType} {a : Option SortId} {vs : List ObjValue} (hs : L.store.WellFormed)
    (hes : ∀ e ∈ es, ∀ {t s' v}, infer L.store scope.types e = .ok t → objValue L true scope e s = .ok (v, s') →
      s' = s ∧ ∃ X a, L.sortOf t = .ok a ∧ V.Means L ρ n scope vars e v X a)
    (ha : L.sortOf acc = .ok a) (ht : inferUnion L.store scope.types acc es = .ok t)
    (hrun : objValues L true scope es s = .ok (vs, s')) :
    s' = s ∧ ∃ Xs b, L.sortOf t = .ok b ∧ Covers a b ∧ List.Forall₂ (fun v X => V.Stands L ρ v X b) vs Xs ∧
      ObjValue.AllSettled n vs ∧ ∀ Ys, ObjExpr.DenoteAll L.store scope.types V.st vars es Ys ↔ Ys = Xs := by
  induction es generalizing acc a vs with
  | nil =>
    cases ht
    cases pure_ok.1 hrun
    exact ⟨rfl, [], a, ha, .refl a, .nil, trivial, fun Ys => by rw [ObjExpr.DenoteAll]⟩
  | cons e rest ih =>
    obtain ⟨he, hrest⟩ := forall_mem_cons.1 hes
    obtain ⟨u, w, hu, hw, ht⟩ := inferUnion_cons_ok.1 ht
    obtain ⟨v1, s1, h1, hrun⟩ := bind_ok.1 hrun
    obtain ⟨vs', s2, h2, hrun⟩ := bind_ok.1 hrun
    cases pure_ok.1 hrun
    obtain ⟨hs1, X, b, hb, hX⟩ := he hu h1
    rw [hs1] at h2
    obtain ⟨c, hc, hac, hbc⟩ := sortOf_joinStrict hs.graph (unionType_ok hw) ha hb
    obtain ⟨hs2, Xs, d, hd, hcd, hall, hset, hden⟩ := ih hrest hc ht h2
    refine ⟨hs2, X :: Xs, d, hd, hac.trans hcd, .cons (hX.stands.mono (hbc.trans hcd)) hall, ⟨hX.settled, hset⟩, ?_⟩
    intro Ys
    constructor
    · rintro ⟨Y1, Ys', rfl, h1, h2⟩
      rw [(hX.denotes Y1).1 h1, (hden Ys').1 h2]
    · rintro rfl
      exact ⟨X, Xs, rfl, (hX.denotes X).2 rfl, (hden Xs).2 rfl⟩

/-- The value of an expression in a formula stands for the one set that the expression denotes. -/
theorem means_objValue {v : ObjValue} (hlaid : L.Laid symbols) (hshows : V.Shows L s.snapshot)
    (hscope : V.ScopeStands L ρ n scope vars) (e : ObjExpr) (ht : infer L.store scope.types e = .ok t)
    (hrun : objValue L true scope e s = .ok (v, s')) :
    s' = s ∧ ∃ X a, L.sortOf t = .ok a ∧ V.Means L ρ n scope vars e v X a := by
  induction e generalizing t v s' with
  | allOf className =>
    obtain ⟨c, hc, ht⟩ := exceptBind_ok.1 ht
    cases ht
    obtain ⟨c', hc', hrun⟩ := typedBind_ok.1 hrun
    cases hc.symm.trans hc'
    cases pure_ok.1 hrun
    have hlt : c.index < L.graph.size := ClassGraph.resolveIn_lt hc
    refine ⟨rfl, V.st.ofClass c, _, sortOf_class c rfl, hshows.stands_ofClass hlt, by simp [ObjValue.Settled], ?_⟩
    intro Y
    constructor
    · rintro ⟨c', hc', rfl⟩
      cases hc.symm.trans hc'
      rfl
    · rintro rfl
      exact ⟨c, hc, rfl⟩
  | var name | iterator name =>
    exact means_var hscope (fun Y => by rw [ObjExpr.Denotes]) ht hrun
  | subset source | oneOf source =>
    exact (throw_ok.1 (bind_ok.1 hrun).choose_spec.choose_spec.1).elim
  | union parts ih =>
    rw [infer_union] at ht
    obtain ⟨vs, s1, h1, hrun⟩ := bind_ok.1 hrun
    cases pure_ok.1 hrun
    obtain ⟨hs1, Xs, b, hb, -, hall, hset, hden⟩ := means_objValues hlaid.store ih (sortOf_none_iff.2 rfl) ht h1
    refine ⟨hs1, _, b, hb, stands_union hall, ObjValue.settled_unionValue hset, fun Y => ?_⟩
    constructor
    · rintro ⟨Ys, hYs, rfl⟩
      rw [(hden Ys).1 hYs]
    · rintro rfl
      exact ⟨Xs, (hden Xs).2 rfl, rfl⟩
  | deref source relation ih =>
    obtain ⟨u, r, hu, hr, rfl⟩ := infer_deref_ok.1 ht
    obtain ⟨v1, s1, h1, h2⟩ := bind_ok.1 hrun
    obtain ⟨rfl, X, a, ha, hX⟩ := ih hu h1
    obtain ⟨u', r', ts, hu', hr', hts, heq⟩ := derefValue_ok h2
    cases hu.symm.trans hu'
    cases hr.symm.trans hr'
    cases heq
    cases sortOf_relationOn hlaid.store.graph hr ha
    have hstands := hshows.stands_deref hlaid (Store.relationOn_ok hr).1 hts hX.stands
    refine ⟨rfl, _, _, sortOf_class r.target rfl, hstands, hX.settled, ?_⟩
    intro Y
    constructor
    · rintro ⟨Z, u', r', hZ, hu', hr', rfl⟩
      cases hu.symm.trans hu'
      cases hr.symm.trans hr'
      rw [(hX.denotes Z).1 hZ]
    · rintro rfl
      exact ⟨X, u, r, (hX.denotes X).2 rfl, hu, hr, rfl⟩

end Expressions

end View

/-! ## The state that a model shows -/

namespace Structure

variable (M : Structure) (L : Layout)

/-- The elements of a structure as objects. -/
def objects : Universe := ⟨M.Elem, fun c e => M.sort e = L.classSort c ∧ L.IsOf M c e⟩

/-- The state that a structure shows by a snapshot outside all loops. -/
def stateAt (σ : Snapshot) : State (M.objects L) where
  alive e := (σ.slot (M.sort e)).At M [] e
  linked id x y := ∃ ts t, List.lookup id L.tupleSorts = some ts ∧ M.sort t = ts.sort ∧ (σ.slot ts.sort).At M [] t ∧
    ts.Left M t = x ∧ ts.Right M t = y

/-- A structure as a view of the state that it shows. -/
def view (cs : Contexts) (σ : Snapshot) : View where
  M := M
  U := M.objects L
  emb _ := id
  st := M.stateAt L σ
  cs := cs
  as := []

variable {M L}

/-- The view of a structure shows what holds in it. -/
theorem view_shows (hlaid : L.Laid symbols) (hfits : M.Fits symbols) (cs : Contexts) (σ : Snapshot) :
    (M.view L cs σ).Shows L σ where
  injective _ _ _ h := h
  ends id ts hts t ht := by
    obtain ⟨⟨_, hleft⟩, ⟨_, hright⟩⟩ := hlaid.ends (id, ts) (mem_of_lookup hts)
    exact ⟨hfits ts.left _ hleft [t] (congrArg (· :: []) ht), hfits ts.right _ hright [t] (congrArg (· :: []) ht)⟩
  sort _ _ _ h := h.1
  alive c _ e he := by
    constructor
    · rintro ⟨hslot, hclass⟩
      refine ⟨e, ⟨?_, he, hclass⟩, rfl⟩
      change (σ.slot (M.sort e)).At M [] e
      rw [show M.sort e = L.classSort c from he]
      exact hslot
    · rintro ⟨_, ⟨halive, hsort, hclass⟩, rfl⟩
      refine ⟨?_, hclass⟩
      rw [← show M.sort _ = L.classSort c from hsort]
      exact halive
  linked id ts hts x y := by
    constructor
    · rintro ⟨t, ht, hslot, hx, hy⟩
      exact ⟨x, y, ⟨ts, t, hts, ht, hslot, hx, hy⟩, rfl, rfl⟩
    · rintro ⟨_, _, ⟨ts', t, hts', ht, hslot, hx, hy⟩, rfl, rfl⟩
      rw [hts] at hts'
      cases hts'
      exact ⟨t, ht, hslot, hx, hy⟩

end Structure

end StoreCheck
