import StoreCheck.Proofs.Induction
import StoreCheck.Proofs.Scope
import StoreCheck.Proofs.Steps

/-!
# Types depend on signatures alone

Two walks over the same action may bound the sizes of sets differently and list the variables in another order, but what they
resolve hangs on the signatures only. `TypeEnv.Alike` says that two environments bind the same variables with the same
signatures; in alike environments every expression has a type in both or in neither, with the same signature.
-/

namespace StoreCheck

variable {a c u t acc : ObjType} {g : ClassGraph} {b env' : TypeEnv} {x name : String} {store : Store} {e : ObjExpr}

/-! ## Signatures of combined types -/

namespace ClassGraph

variable (g : ClassGraph)

theorem join_bottom (a : Signature) : g.join a .bottom = a := by
  obtain ⟨classes⟩ := a
  cases classes <;> simp [join, Signature.isBottom, Signature.bottom]

theorem bottom_join (a : Signature) : g.join .bottom a = a := by
  simp [join, Signature.isBottom, Signature.bottom]

/-- Where the strict join is defined it is the join. -/
theorem joinStrict_ok {a b c : Signature} (h : g.joinStrict a b = .ok c) : c = g.join a b := by
  unfold joinStrict at h
  split at h
  · cases h
  · cases h
    rfl

end ClassGraph

theorem ObjType.join_ok {b : ObjType} (h : a.join g b = .ok c) : g.joinStrict a.signature b.signature = .ok c.signature := by
  obtain ⟨s, hs, h⟩ := exceptBind_ok.1 h
  cases h
  exact hs

theorem unionType_ok {b : ObjType} (h : unionType g a b = .ok c) : g.joinStrict a.signature b.signature = .ok c.signature := by
  obtain ⟨s, hs, h⟩ := exceptBind_ok.1 h
  cases h
  exact hs

theorem Cardinality.empty_union (c : Cardinality) : empty.union c = c := by
  obtain ⟨lower, upper⟩ := c
  have hlower : max 0 lower = lower := if_pos UInt32.zero_le
  cases upper with
  | none => simp [union, empty, add, hlower]
  | some u => simp [union, empty, add, addExact?, hlower, UInt32.toNat_lt_size]

theorem unionType_bottom (g : ClassGraph) (t : ObjType) : unionType g .bottom t = .ok t := by
  have hjoin : g.joinStrict .bottom t.signature = .ok t.signature := by
    simp [ClassGraph.joinStrict, ClassGraph.join, Signature.isBottom, Signature.bottom]
  unfold unionType
  rw [show ObjType.bottom = ⟨.bottom, .empty⟩ from rfl, hjoin, Cardinality.empty_union]
  rfl

/-! ## Alike environments -/

namespace TypeEnv

/-- The signature of a variable, if it is bound. -/
def signatureOf? (env : TypeEnv) (name : String) : Option Signature := (env.find? name).map (·.signature)

/-- The environments bind the same variables, with the same signatures. -/
def Alike (a b : TypeEnv) : Prop := ∀ name, a.signatureOf? name = b.signatureOf? name

variable {a : TypeEnv} {t : ObjType}

theorem Alike.symm (h : a.Alike b) : b.Alike a := fun x => (h x).symm

theorem Alike.trans {c : TypeEnv} (h : a.Alike b) (h' : b.Alike c) : a.Alike c := fun x => (h x).trans (h' x)

theorem signatureOf?_insert (env : TypeEnv) (n x : String) (t : ObjType) :
    TypeEnv.signatureOf? (env.insert n t) x = if x = n then some t.signature else env.signatureOf? x := by
  unfold signatureOf?
  rw [VarMap.find?_insert]
  split <;> rfl

theorem Alike.insert (h : a.Alike b) (n : String) (hs : t.signature = u.signature) :
    TypeEnv.Alike (VarMap.insert a n t) (VarMap.insert b n u) := by
  intro x
  rw [signatureOf?_insert, signatureOf?_insert, h x, hs]

theorem contains_eq (a : TypeEnv) (x : String) : a.contains x = (a.signatureOf? x).isSome := by
  simp [VarMap.contains, signatureOf?]

theorem Alike.contains (h : a.Alike b) (x : String) : a.contains x = b.contains x := by
  rw [contains_eq, contains_eq, h x]

theorem Alike.find? (h : a.Alike b) (ht : a.find? x = some t) : ∃ u, b.find? x = some u ∧ u.signature = t.signature := by
  have hx := h x
  unfold signatureOf? at hx
  rw [ht, Option.map_some] at hx
  exact Option.map_eq_some_iff.1 hx.symm

theorem Alike.find?_none (h : a.Alike b) (ht : a.find? x = none) : b.find? x = none := by
  have hx := h x
  unfold signatureOf? at hx
  rw [ht, Option.map_none] at hx
  exact Option.map_eq_none_iff.1 hx.symm

theorem Alike.typeOf (h : a.Alike b) (ht : a.typeOf x = .ok t) : ∃ u, b.typeOf x = .ok u ∧ u.signature = t.signature := by
  unfold TypeEnv.typeOf at ht ⊢
  cases hx : VarMap.find? a x with
  | none => simp [hx] at ht
  | some t' =>
    obtain ⟨u, hu, hs⟩ := h.find? hx
    simp only [hx, Except.ok.injEq] at ht
    subst ht
    exact ⟨u, by simp [hu], hs⟩

end TypeEnv

/-! ## Where paths meet -/

/-- The signature after one more path; a path that does not bind the variable adds nothing. -/
def ClassGraph.joinPath (g : ClassGraph) : Option Signature → Option Signature → Option Signature
  | some a, some b => some (g.join a b)
  | some a, _ => some a
  | _, b => b

theorem ClassGraph.joinPath_none (g : ClassGraph) (a : Option Signature) : g.joinPath a none = a := by
  cases a <;> rfl

/-- The signatures of a variable on the paths before, and on one more; unbound counts as the bottom. -/
theorem ClassGraph.getD_joinPath (g : ClassGraph) (a b : Option Signature) :
    (g.joinPath a b).getD .bottom = g.join (a.getD .bottom) (b.getD .bottom) := by
  cases a with
  | none => simp [joinPath, g.bottom_join]
  | some a =>
    cases b with
    | none => simp [joinPath, g.join_bottom]
    | some b => rfl

theorem ClassGraph.isSome_joinPath (g : ClassGraph) (a b : Option Signature) :
    (g.joinPath a b).isSome = (a.isSome || b.isSome) := by
  cases a <;> cases b <;> rfl

/-! ## Types of expressions -/

theorem TypeEnv.find?_of_typeOf {types : TypeEnv} (h : types.typeOf name = .ok t) : types.find? name = some t := by
  unfold TypeEnv.typeOf at h
  split at h
  · rename_i u hu
    cases h
    exact hu
  · cases h

/-- The relation that a name stands for is one of the store, and its source is a class that the signature's objects belong to. -/
theorem Store.relationOn_ok (h : store.relationOn s name = .ok r) :
    r ∈ store.relations ∧ r.source ∈ store.graph.closure s := by
  unfold Store.relationOn at h
  split at h
  · rename_i r' hfind
    cases h
    obtain ⟨c, hc, howned⟩ := List.exists_of_findSome?_eq_some hfind
    have hsource := List.find?_some howned
    simp only [Bool.and_eq_true, decide_eq_true_eq] at hsource
    exact ⟨List.mem_of_find?_eq_some howned, hsource.1 ▸ hc⟩
  · cases h

section Infer

variable {env : TypeEnv}

theorem infer_subset_ok :
    infer store env (.subset e) = .ok t ↔ ∃ u, infer store env e = .ok u ∧ t = u.withCardinality u.cardinality.subset := by
  rw [infer, exceptBind_ok]
  simp [pure, Except.pure, eq_comm]

theorem infer_oneOf_ok : infer store env (.oneOf e) = .ok t ↔ ∃ u, infer store env e = .ok u ∧ t = u.single := by
  rw [infer, exceptBind_ok]
  simp [pure, Except.pure, eq_comm]

theorem infer_deref_ok : infer store env (.deref e name) = .ok t ↔
      ∃ u r, infer store env e = .ok u ∧ store.relationOn u.signature name = .ok r ∧ t = targetType u r := by
  rw [infer, exceptBind_ok]
  simp only [exceptBind_ok, pure, Except.pure, Except.ok.injEq]
  constructor
  · rintro ⟨u, hu, r, hr, rfl⟩
    exact ⟨u, r, hu, hr, rfl⟩
  · rintro ⟨u, r, hu, hr, rfl⟩
    exact ⟨u, hu, r, hr, rfl⟩

/-- The union starts from the type of the empty set, which adds nothing. -/
theorem infer_union (es : List ObjExpr) : infer store env (.union es) = inferUnion store env .bottom es := by
  cases es with
  | nil => rw [infer, inferUnion]
  | cons e rest => simp only [infer, inferUnion, unionType_bottom, bind, Except.bind]

theorem inferUnion_cons_ok : inferUnion store env acc (e :: rest) = .ok t ↔
      ∃ u v, infer store env e = .ok u ∧ unionType store.graph acc u = .ok v ∧ inferUnion store env v rest = .ok t := by
  rw [inferUnion, exceptBind_ok]
  simp only [exceptBind_ok]
  constructor
  · rintro ⟨u, hu, v, hv, h⟩
    exact ⟨u, v, hu, hv, h⟩
  · rintro ⟨u, v, hu, hv, h⟩
    exact ⟨u, hu, v, hv, h⟩

theorem unionType_alike {a' b b' : ObjType} (h : unionType g a b = .ok c) (ha : a'.signature = a.signature)
    (hb : b'.signature = b.signature) : ∃ c', unionType g a' b' = .ok c' ∧ c'.signature = c.signature := by
  have hs := unionType_ok h
  refine ⟨⟨c.signature, a'.cardinality.union b'.cardinality⟩, ?_, rfl⟩
  unfold unionType
  rw [ha, hb, hs]
  rfl

theorem inferUnion_alike
    (hes : ∀ e ∈ es, ∀ t, infer store env e = .ok t → ∃ u, infer store env' e = .ok u ∧ u.signature = t.signature)
    {acc acc' : ObjType} (hacc : acc'.signature = acc.signature) (ht : inferUnion store env acc es = .ok t) :
    ∃ u, inferUnion store env' acc' es = .ok u ∧ u.signature = t.signature := by
  induction es generalizing acc acc' with
  | nil =>
    cases ht
    exact ⟨acc', rfl, hacc⟩
  | cons e rest ih =>
    obtain ⟨he, hrest⟩ := List.forall_mem_cons.1 hes
    obtain ⟨u, v, hu, hv, ht⟩ := inferUnion_cons_ok.1 ht
    obtain ⟨u', hu', hs⟩ := he u hu
    obtain ⟨v', hv', hs'⟩ := unionType_alike hv hacc hs
    obtain ⟨w, hw, hs''⟩ := ih hrest hs' ht
    exact ⟨w, inferUnion_cons_ok.2 ⟨u', v', hu', hv', hw⟩, hs''⟩

/-- In alike environments an expression has types with the same signature. -/
theorem infer_alike (h : env.Alike env') (e : ObjExpr) (ht : infer store env e = .ok t) :
    ∃ u, infer store env' e = .ok u ∧ u.signature = t.signature := by
  induction e generalizing t with
  | allOf className =>
    exact ⟨t, ht, rfl⟩
  | var name | iterator name =>
    exact h.typeOf ht
  | subset source ih =>
    obtain ⟨u, hu, rfl⟩ := infer_subset_ok.1 ht
    obtain ⟨v, hv, hs⟩ := ih hu
    exact ⟨_, infer_subset_ok.2 ⟨v, hv, rfl⟩, hs⟩
  | oneOf source ih =>
    obtain ⟨u, hu, rfl⟩ := infer_oneOf_ok.1 ht
    obtain ⟨v, hv, hs⟩ := ih hu
    exact ⟨_, infer_oneOf_ok.2 ⟨v, hv, rfl⟩, hs⟩
  | union parts ih =>
    rw [infer_union] at ht ⊢
    exact inferUnion_alike ih rfl ht
  | deref source name ih =>
    obtain ⟨u, r, hu, hr, rfl⟩ := infer_deref_ok.1 ht
    obtain ⟨v, hv, hs⟩ := ih hu
    rw [← hs] at hr
    exact ⟨_, infer_deref_ok.2 ⟨v, r, hv, hr, rfl⟩, rfl⟩

/-- Two types of one expression in alike environments have the same signature. -/
theorem infer_signature_eq (h : env.Alike env') (ht : infer store env e = .ok t) (hu : infer store env' e = .ok u) :
    u.signature = t.signature := by
  obtain ⟨v, hv, hs⟩ := infer_alike h e ht
  rw [hu] at hv
  cases hv
  exact hs

end Infer

end StoreCheck
