import StoreCheck.Proofs.CardinalityAlgebra
import StoreCheck.Proofs.Class.Lattice
import StoreCheck.Proofs.Encoding.Allocation

/-!
# What the type of an expression says of its set

The signature of a type says to which classes the objects of a set belong, and the cardinality how many there are. Each
construct of expressions keeps to this: a join is covered by both signatures, and the targets of at most one object along a
relation to at most one object are at most one. Only the lower bound of a pick is too high, as nothing can be picked from an
empty set.
-/

namespace StoreCheck

open Cardinality ObjExpr

variable {c : ClassId} {g : ClassGraph} {decls : List ClassDecl} {p : Prop} {r : Relation}

variable {U : Universe} {X Y : Set U.Obj}

/-! ## Classes -/

/-- The objects belong to every class of the signature; the bottom has no objects. -/
def Signature.Classifies (s : Signature) (X : Set U.Obj) : Prop := ∀ o ∈ X, s.isBottom = false ∧ ∀ c ∈ s.classes, U.isOf c o

namespace Signature.Classifies

variable {a b : Signature}

theorem isOf (h : a.Classifies X) (hU : U.Closed g) (ho : o ∈ X) (hc : c ∈ g.closure a) : U.isOf c o := by
  obtain ⟨-, m, hm, rfl | hancestor⟩ := ClassGraph.mem_closure.1 hc
  · exact (h o ho).2 m hm
  · exact hU m c hancestor o ((h o ho).2 m hm)

theorem ofClass (h : ∀ o ∈ X, U.isOf c o) : (Signature.ofClass c).Classifies X :=
  fun o ho => ⟨rfl, by simpa [Signature.ofClass] using h o ho⟩

theorem union (hg : ClassGraph.ofDecls decls = .ok g) (hU : U.Closed g) (hX : a.Classifies X) (hY : b.Classifies Y)
    (h : g.joinStrict a b = .ok j) : j.Classifies (X ∪ Y) := by
  intro o ho
  have hnot : ∀ {s : Signature} {Z : Set U.Obj}, s.Classifies Z → s = .bottom → o ∉ Z := by
    rintro s Z hZ rfl hoZ
    cases (hZ o hoZ).1
  have hbottom : ∀ s : Signature, s.isBottom = true → s = .bottom := by
    rintro ⟨classes⟩ hs
    exact congrArg Signature.mk (List.isEmpty_iff.1 hs)
  cases ha : a.isBottom with
  | true =>
    rw [g.joinStrict_ok h, hbottom a ha, g.bottom_join]
    exact hY o (ho.resolve_left (hnot hX (hbottom a ha)))
  | false =>
    cases hb : b.isBottom with
    | true =>
      rw [g.joinStrict_ok h, hbottom b hb, g.join_bottom]
      exact hX o (ho.resolve_right (hnot hY (hbottom b hb)))
    | false =>
      obtain ⟨hj, rfl⟩ := (ClassGraph.joinStrict_eq_ok ha hb).1 h
      refine ⟨hj, fun c hc => ?_⟩
      have hids : c ∈ g.ids := by
        rw [ClassGraph.join_eq ha hb] at hc
        exact (ClassGraph.mem_canonical.1 hc).1
      -- a class of the join is in the closures of both
      obtain ⟨hca, hcb⟩ := (ClassGraph.mem_closure_join hg ha hb).1 (ClassGraph.mem_closure.2 ⟨hids, c, hc, .inl rfl⟩)
      exact ho.elim (hX.isOf hU · hca) (hY.isOf hU · hcb)

end Signature.Classifies

/-! ## Types -/

/-- The set is of the type. It has to be as large as the lower bound only if `sure`. -/
structure ObjType.Describes (t : ObjType) (sure : Prop) (X : Set U.Obj) : Prop where
  classes : t.signature.Classifies X
  atMost : ∀ u, t.cardinality.upper = some u → X.encard ≤ u.toNat
  atLeast : sure → (t.cardinality.lower.toNat : ℕ∞) ≤ X.encard

theorem Cardinality.encard_le_one {c : Cardinality} (h : c.atMostOne = true) (hX : ∀ u, c.upper = some u → X.encard ≤ u.toNat) :
    X.encard ≤ 1 := by
  rw [atMostOne] at h
  split at h
  · rename_i u hu
    refine (hX u hu).trans ?_
    exact_mod_cast UInt32.le_iff_toNat_le.1 (of_decide_eq_true h)
  · cases h

namespace ObjType.Describes

variable {store : Store} {a b t : ObjType}

theorem part (h : t.Describes p Y) (hsub : X ⊆ Y) : (t.withCardinality t.cardinality.subset).Describes True X where
  classes := fun o ho => h.classes o (hsub ho)
  atMost := fun u hu => (Set.encard_le_encard hsub).trans (h.atMost u hu)
  atLeast := fun _ => zero_le

/-- One object is picked, unless there is none. -/
theorem pick (h : t.Describes p Y) (hX : Picks Y X) : t.single.Describes Y.Nonempty X where
  classes := fun o ho => h.classes o (hX.1 ho)
  atMost := fun u hu => by
    cases hu
    exact Set.encard_le_one_iff.2 fun a b ha hb => hX.2.2 a ha b hb
  atLeast := fun hY => Set.one_le_encard_iff_nonempty.2 (hX.2.1 hY)

theorem union (hg : ClassGraph.ofDecls decls = .ok store.graph) (hU : U.Closed store.graph) (hX : a.Describes p X)
    (hY : b.Describes q Y) (h : unionType store.graph a b = .ok t) : t.Describes (p ∧ q) (X ∪ Y) := by
  obtain ⟨j, hj, h⟩ := exceptBind_ok.1 h
  cases h
  refine ⟨hX.classes.union hg hU hY.classes hj, ?_, ?_⟩
  · exact le_limit_iff.1 (encard_union_le_limit (le_limit_iff.2 hX.atMost)
      (le_limit_iff.2 hY.atMost))
  rintro ⟨hp, hq⟩
  change ((if a.cardinality.lower ≤ b.cardinality.lower then _ else _ : UInt32).toNat : ℕ∞) ≤ _
  split
  · exact (hY.atLeast hq).trans (Set.encard_le_encard Set.subset_union_right)
  · exact (hX.atLeast hp).trans (Set.encard_le_encard Set.subset_union_left)

end ObjType.Describes

/-! ## Relations -/

/-- Objects start a relation if they exist, and what it leads to belongs to its target class. -/
theorem State.Sound.leads {st : State U} (h : st.Sound store) (hs : store.WellFormed) (hr : r ∈ store.relations)
    (hleads : st.Leads r.base r.flipped a b) : st.alive a ∧ U.isOf r.target b := by
  unfold Relation.base Relation.flipped at hleads
  cases hinverse : r.inverseOf with
  | none =>
    rw [hinverse] at hleads
    obtain ⟨ha, hb⟩ := h r (List.mem_filter.2 ⟨hr, by rw [hinverse]; rfl⟩) a b hleads
    exact ⟨ha.1, hb.2⟩
  | some id =>
    rw [hinverse] at hleads
    obtain ⟨base, hbase, rfl, hnone, hback, -⟩ := hs.inverse r hr id hinverse
    obtain ⟨hb, ha⟩ := h base (List.mem_filter.2 ⟨hbase, by rw [hnone]; rfl⟩) b a hleads
    exact ⟨ha.1, hback ▸ hb.2⟩

/-- Every object of its source class has as many targets along a relation as the relation declares. -/
def State.Bounded (st : State U) (store : Store) : Prop := ∀ r ∈ store.relations, ∀ a ∈ st.ofClass r.source,
  r.cardinality.Admits {b | st.Leads r.base r.flipped a b}

theorem ObjType.Describes.targets {store : Store} {st : State U} (hs : store.WellFormed) (hU : U.Closed store.graph)
    (hsound : st.Sound store) (hbounds : st.Bounded store) {t : ObjType} (h : t.Describes p X)
    (hr : store.relationOn t.signature name = .ok r) : (targetType t r).Describes True (st.targets r X) := by
  obtain ⟨hmem, hsource⟩ := Store.relationOn_ok hr
  refine ⟨.ofClass ?_, fun u hu => ?_, fun _ => ?_⟩
  · rintro o ⟨a, -, hleads⟩
    exact (hsound.leads hs hmem hleads).2
  · unfold targetType at hu
    split at hu
    · rename_i hone
      obtain ⟨hfew, hsingle⟩ := Bool.and_eq_true_iff.1 hone
      cases hu
      refine Set.encard_le_one_iff.2 ?_
      rintro b b' ⟨a, ha, hb⟩ ⟨a', ha', hb'⟩
      have hsame : a = a' := Set.encard_le_one_iff.1 (encard_le_one hfew h.atMost) a a' ha ha'
      have hin : a ∈ st.ofClass r.source := ⟨(hsound.leads hs hmem hb).1, h.classes.isOf hU ha hsource⟩
      exact Set.encard_le_one_iff.1 (encard_le_one hsingle (hbounds r hmem a hin).2) b b' hb (hsame ▸ hb')
    · cases hu
  · unfold targetType
    split <;> exact zero_le

/-! ## Expressions -/

mutual

/-- The sets that have to offer an object for the expression to be as large as its type says. -/
def ObjExpr.sources : ObjExpr → List ObjExpr
  | .oneOf source => [source]
  | .union parts => sourcesAll parts
  | _ => []

/-- The sets that have to offer an object for all expressions. -/
def ObjExpr.sourcesAll : List ObjExpr → List ObjExpr
  | [] => []
  | e :: rest => e.sources ++ sourcesAll rest

end

section

variable {store : Store}

theorem ObjExpr.describes_inferUnion (hg : ClassGraph.ofDecls decls = .ok store.graph) (hU : U.Closed store.graph)
    (hes : ∀ e ∈ es, ∀ {t X}, infer store types e = .ok t → e.Denotes store types st vars X →
      t.Describes (∀ s ∈ e.sources, ¬ s.Denotes store types st vars ∅) X) {acc t : ObjType} (hX : acc.Describes p X)
    (ht : inferUnion store types acc es = .ok t) (hXs : DenoteAll store types st vars es Xs) :
    t.Describes (p ∧ ∀ s ∈ sourcesAll es, ¬ s.Denotes store types st vars ∅) (X ∪ {o | ∃ Y ∈ Xs, o ∈ Y}) := by
  induction es generalizing acc p X Xs with
  | nil =>
    cases ht
    rw [DenoteAll] at hXs
    simpa [hXs, sourcesAll] using hX
  | cons e rest ih =>
    obtain ⟨he, hrest⟩ := List.forall_mem_cons.1 hes
    obtain ⟨Y, Ys, rfl, hY, hYs⟩ := hXs
    obtain ⟨u, v, hu, hv, ht⟩ := inferUnion_cons_ok.1 ht
    have h := ih hrest (hX.union hg hU (he hu hY) hv) ht hYs
    simpa [sourcesAll, or_imp, forall_and, and_assoc, Set.ofPred_or, Set.union_assoc] using h

end

/-- For every valid store, every expression that has a type, and every state of the store in which the declared cardinalities of
relations hold and the values of variables are of their types: a set that the expression denotes is of the type of the
expression. Its objects belong to every class of the signature and it is no larger than the upper bound; it is as large as the
lower bound too, if no set that the expression picks one object of can be empty. -/
theorem inferred_types_describe (spec : Spec) (store : Store) (hspec : Store.ofSpec spec = .ok store) (types : TypeEnv)
    (U : Universe) (hU : U.Closed store.graph) (st : State U) (hsound : st.Sound store) (hbounds : st.Bounded store)
    (vars : Vars U) (hvars : ∀ x t, types.find? x = some t → t.Describes True (vars x)) (e : ObjExpr) (t : ObjType)
    (ht : infer store types e = .ok t) (X : Set U.Obj) (hX : e.Denotes store types st vars X) :
    t.Describes (∀ s ∈ e.sources, ¬ s.Denotes store types st vars ∅) X := by
  have hs := Store.wellFormed_ofSpec hspec
  obtain ⟨decls, hg⟩ := Store.graph_ofSpec hspec
  induction e generalizing t X with
  | allOf className =>
    obtain ⟨c, hc, rfl⟩ := hX
    obtain ⟨c', hc', ht⟩ := exceptBind_ok.mp ht
    cases hc.symm.trans hc'
    cases ht
    exact ⟨.ofClass fun o ho => ho.2, by rintro u ⟨⟩, fun _ => zero_le⟩
  | var name | iterator name =>
    obtain ⟨hclasses, hmost, hleast⟩ := hvars name t (TypeEnv.find?_of_typeOf ht)
    rw [Denotes] at hX
    exact hX ▸ ⟨hclasses, hmost, fun _ => hleast trivial⟩
  | subset source ih =>
    obtain ⟨Y, hY, hsub⟩ := hX
    obtain ⟨u, hu, rfl⟩ := infer_subset_ok.mp ht
    obtain ⟨hclasses, hmost, hleast⟩ := (ih u hu Y hY).part hsub
    exact ⟨hclasses, hmost, fun _ => hleast trivial⟩
  | oneOf source ih =>
    obtain ⟨Y, hY, hpicks⟩ := hX
    obtain ⟨u, hu, rfl⟩ := infer_oneOf_ok.mp ht
    obtain ⟨hclasses, hmost, hleast⟩ := (ih u hu Y hY).pick hpicks
    refine ⟨hclasses, hmost, fun hsources => hleast (Set.nonempty_iff_ne_empty.mpr ?_)⟩
    rintro rfl
    exact hsources source (by simp [sources]) hY
  | union parts ih =>
    obtain ⟨Xs, hXs, rfl⟩ := hX
    rw [infer_union] at ht
    have hempty : ObjType.bottom.Describes True (∅ : Set U.Obj) :=
      ⟨fun o ho => absurd ho (Set.notMem_empty o), fun u _ => by simp, fun _ => zero_le⟩
    simpa [sources] using describes_inferUnion hg hU (fun e he t X ht hX => ih e he t ht X hX) hempty ht hXs
  | deref source name ih =>
    obtain ⟨Y, u, r, hY, hu, hr, rfl⟩ := hX
    obtain ⟨u', r', hu', hr', rfl⟩ := infer_deref_ok.mp ht
    cases hu.symm.trans hu'
    cases hr.symm.trans hr'
    obtain ⟨hclasses, hmost, hleast⟩ := (ih u hu Y hY).targets hs hU hsound hbounds hr
    exact ⟨hclasses, hmost, fun _ => hleast trivial⟩

namespace Club

/-- The club before anybody has joined. -/
def vacant : State ⟨Unit, fun _ _ => True⟩ where
  alive _ := False
  linked _ _ _ := False

/-- A variable for one member. -/
def types : TypeEnv := [("m", ⟨.ofClass ⟨1⟩, .one⟩)]

/-- The member, with all whom it sponsors. -/
def circle : ObjExpr := .union [.oneOf (.var "m"), .deref (.var "m") "sponsors"]

theorem typing_facts : store.relations = [⟨⟨0⟩, "knows", ⟨0⟩, ⟨0⟩, .any, none⟩, knows, sponsors] ∧
    infer store [] (.oneOf (.allOf "Person")) = .ok ⟨.ofClass ⟨0⟩, .one⟩ ∧
    store.relationOn (.ofClass ⟨1⟩) "sponsors" = .ok sponsors ∧ store.graph.resolve "Person" = .ok ⟨0⟩ ∧
    infer store types circle = .ok ⟨.ofClass ⟨0⟩, ⟨1, none⟩⟩ := by
  refine ⟨?_, ?_, ?_, ?_, ?_⟩
  all_goals decide +kernel

end Club

open Club

/-- The lonely member and those it sponsors are persons, and at least one. -/
theorem inferred_types_describe_circle : Store.ofSpec Club.spec = .ok Club.store ∧ Club.lonely.Sound Club.store ∧
    Club.lonely.Bounded Club.store ∧
    Club.circle.Denotes Club.store Club.types Club.lonely (fun _ => {()}) {()} ∧
    infer Club.store Club.types Club.circle = .ok ⟨.ofClass ⟨0⟩, ⟨1, none⟩⟩ ∧
    ObjType.Describes (U := ⟨Unit, fun _ _ => True⟩) ⟨.ofClass ⟨0⟩, ⟨1, none⟩⟩ True {()} := by
  obtain ⟨hrelations, -, hsponsors, -, ht⟩ := typing_facts
  have hone : ∀ X : Set Unit, X.encard ≤ 1 := fun X => Set.encard_le_one_iff.mpr fun _ _ _ _ => rfl
  have hsound : lonely.Sound store := fun _ _ _ _ _ => ⟨⟨trivial, trivial⟩, trivial, trivial⟩
  have hbounds : lonely.Bounded store := by
    simp only [State.Bounded, hrelations, List.forall_mem_cons]
    refine ⟨fun a _ => ⟨zero_le, by rintro u ⟨⟩⟩, fun a _ => ⟨?_, ?_⟩, fun a _ => ⟨zero_le, ?_⟩, List.forall_mem_nil _⟩
    · exact Set.one_le_encard_iff_nonempty.mpr ⟨(), rfl⟩
    · rintro u ⟨⟩
      exact hone _
    · rintro u ⟨⟩
      exact (hone _).trans (by decide)
  have hX : circle.Denotes store types lonely (fun _ => {()}) {()} := by
    have hnone : lonely.targets sponsors {()} = ∅ := by
      refine Set.eq_empty_of_forall_notMem ?_
      rintro b ⟨a, -, hleads⟩
      cases hleads
    refine ⟨[{()}, ∅], ⟨_, _, rfl, ⟨{()}, rfl, subset_rfl, id, fun _ _ _ _ => rfl⟩, ∅, [], rfl, ?_, rfl⟩, ?_⟩
    · exact ⟨{()}, _, sponsors, rfl, rfl, hsponsors, hnone.symm⟩
    · exact Set.ext fun _ => ⟨fun _ => ⟨{()}, List.mem_cons_self, rfl⟩, fun _ => rfl⟩
  have hvars : ∀ x t, types.find? x = some t →
      t.Describes (U := ⟨Unit, fun _ _ => True⟩) True {()} := by
    intro x t hfind
    rw [types, VarMap.find?, List.lookup_cons] at hfind
    split at hfind <;> cases hfind
    exact ⟨.ofClass fun _ _ => trivial, by rintro u ⟨⟩; exact hone _, fun _ => by simp [Cardinality.one]⟩
  obtain ⟨hclasses, hmost, hleast⟩ := inferred_types_describe spec store ofSpec_spec _ _
    (fun _ _ _ _ _ => trivial) _ hsound hbounds _ hvars _ _ ht _ hX
  refine ⟨ofSpec_spec, hsound, hbounds, hX, ht, hclasses, hmost, fun _ => hleast ?_⟩
  simp [circle, sources, sourcesAll, Denotes]

/-- While the club is vacant no person can be picked, though the type says exactly one. -/
theorem pick_miscounted_vacant : Store.ofSpec Club.spec = .ok Club.store ∧ Club.vacant.Sound Club.store ∧
    Club.vacant.Bounded Club.store ∧
    infer Club.store [] (.oneOf (.allOf "Person")) = .ok ⟨.ofClass ⟨0⟩, .one⟩ ∧
    (ObjExpr.oneOf (.allOf "Person")).Denotes Club.store [] Club.vacant (fun _ => ∅) ∅ ∧
    ¬ Cardinality.one.Admits (∅ : Set Unit) := by
  obtain ⟨-, ht, -, hclass, -⟩ := typing_facts
  refine ⟨ofSpec_spec, fun r _ a b h => h.elim, fun r _ a ha => ha.1.elim, ht, ⟨∅, ⟨⟨0⟩, hclass, ?_⟩, ?_⟩, ?_⟩
  · exact (Set.eq_empty_of_forall_notMem fun o ho => ho.1).symm
  · exact ⟨subset_rfl, id, fun a ha => ha.elim⟩
  · simp [Cardinality.Admits, Cardinality.one]

end StoreCheck
