import Mathlib.Data.List.Induction
import StoreCheck.Proofs.Class.Signatures
import StoreCheck.Proofs.Typing

/-!
# Stores made from specifications are well formed

A class and its ancestors lie in one component, and a signature that some class dominates lies in one as well. The relations of
a store carry their places as ids, and an inverse leads from and to the components of its base.
-/

namespace StoreCheck

open List

variable {c : ClassId} {s : Signature} {decls : List RelationDecl} {i : Nat} {spec : Spec} {store : Store}

namespace ClassGraph

variable {g : ClassGraph}

/-- Where there is a component at all, every class counts as one of a component. -/
theorem Coherent.componentOf_lt (hg : g.Coherent) (hpos : 0 < g.componentCount) (c : ClassId) :
    g.componentOf c < g.componentCount := by
  rcases Nat.lt_or_ge c.index g.size with hlt | hge
  · exact hg.lt c hlt
  · rw [hg.unknown c hge]
    exact hpos

/-- In a graph that was built from declarations, a property of the parents of a class that parent edges hand on holds of all its
ancestors. -/
theorem ancestorsOf_induction {decls : List ClassDecl} (h : ofDecls decls = .ok g) {c : ClassId} {P : ClassId → Prop}
    (hstart : ∀ p ∈ g.parentsOf c, P p) (hstep : ∀ m, P m → ∀ p ∈ g.parentsOf m, P p) : ∀ d ∈ g.ancestorsOf c, P d := by
  obtain ⟨hnames, hparents, -⟩ := ofDecls_ok h
  intro d hd
  rw [mem_ancestorsOf h, ← edge_eq hnames hparents] at hd
  induction hd with
  | single hp => exact hstart _ hp
  | tail _ hp ih => exact hstep _ ih _ hp

/-- In a graph that was built from declarations, only classes have parents, and these are ancestors. -/
theorem parents_ofDecls {decls : List ClassDecl} (h : ofDecls decls = .ok g) (hp : p ∈ g.parentsOf c) :
    c.index < g.size ∧ p ∈ g.ancestorsOf c := by
  obtain ⟨hnames, hparents, -⟩ := ofDecls_ok h
  rw [mem_ancestorsOf h, ← edge_eq hnames hparents, ← size_ofDecls h]
  exact ⟨Edge.lt hp, .single hp⟩

end ClassGraph

/-! ## Signatures -/

namespace ClassGraph

variable {g : ClassGraph}

theorem Coherent.componentOf_closure (hg : g.Coherent) (h : c ∈ g.closure s) :
    ∃ m ∈ s.classes, g.componentOf c = g.componentOf m := by
  obtain ⟨-, m, hm, rfl | hc⟩ := mem_closure.1 h
  · exact ⟨m, hm, rfl⟩
  · exact ⟨m, hm, hg.component m c hc⟩

/-- All members of the signature lie in the component. -/
def Within (g : ClassGraph) (s : Signature) (component : Nat) : Prop := ∀ c ∈ s.classes, g.componentOf c = component

/-- The signature is the bottom, or all its classes lie in one component. -/
def Uniform (g : ClassGraph) (s : Signature) : Prop := s.isBottom = true ∨ ∃ k, g.Within s k

theorem componentOfSignature_some : g.componentOfSignature s = some component ↔ s.isBottom = false ∧ g.Within s component := by
  obtain ⟨classes⟩ := s
  cases classes with
  | nil => simp [componentOfSignature, Signature.isBottom]
  | cons c rest =>
    simp only [componentOfSignature, Signature.isBottom, Within, isEmpty_cons, true_and, forall_mem_cons]
    constructor
    · intro h
      split at h
      · rename_i hall
        cases h
        simp only [all_eq_true, beq_iff_eq] at hall
        exact ⟨rfl, hall⟩
      · cases h
    · rintro ⟨rfl, hrest⟩
      simpa using hrest

theorem Coherent.within_join (hg : g.Coherent) {a b : Signature} (ha : a.isBottom = false) (hb : b.isBottom = false)
    (hk : g.Within a k) : g.Within (g.join a b) k := by
  intro c hc
  rw [join, ha, hb] at hc
  simp only [Bool.false_eq_true, if_false, canonical, mem_filter, Bool.and_eq_true, decide_eq_true_eq] at hc
  obtain ⟨m, hm, heq⟩ := hg.componentOf_closure hc.2.1.1
  rw [heq]
  exact hk m hm

theorem join_comm_mem {a b : Signature} (ha : a.isBottom = false) (hb : b.isBottom = false) (hc : c ∈ (g.join a b).classes) :
    c ∈ g.closure a ∧ c ∈ g.closure b := by
  rw [join, ha, hb] at hc
  simp only [Bool.false_eq_true, if_false, canonical, mem_filter, Bool.and_eq_true, decide_eq_true_eq] at hc
  exact hc.2.1

end ClassGraph

/-! ## Relations -/

/-- What a relation is found by: its class and its name. -/
def Relation.key (r : Relation) : ClassId × String := (r.source, r.name)

namespace Store

variable {g : ClassGraph} {relations after : List Relation} {decl : RelationDecl} {r : Relation} {name : String}

theorem isSome_ownedIn : (ownedIn relations c name).isSome = true ↔ (c, name) ∈ relations.map Relation.key := by
  simp [ownedIn, Relation.key]

/-- Where keys are distinct, a class has one relation of a name. -/
theorem ownedIn_iff (hkeys : (relations.map Relation.key).Nodup) :
    ownedIn relations c name = some r ↔ r ∈ relations ∧ r.key = (c, name) := by
  have hfound : ∀ {r'}, ownedIn relations c name = some r' → r' ∈ relations ∧ r'.key = (c, name) := fun h =>
    ⟨mem_of_find?_eq_some h, by simpa [Relation.key] using find?_some h⟩
  refine ⟨hfound, ?_⟩
  rintro ⟨hr, hkey⟩
  obtain ⟨r', h⟩ := Option.isSome_iff_exists.1 (isSome_ownedIn.2 (mem_map.2 ⟨r, hr, hkey⟩))
  rw [h, inj_on_of_nodup_map hkeys (hfound h).1 hr ((hfound h).2.trans hkey.symm)]

/-- The relation stands for the declaration at its place; an inverse is not resolved yet. -/
structure Placed (g : ClassGraph) (i : Nat) (decl : RelationDecl) (r : Relation) : Prop where
  id : r.id = ⟨i⟩
  name : r.name = decl.name
  source : g.resolve decl.source = .ok r.source
  target : g.resolve decl.target = .ok r.target
  cardinality : r.cardinality = decl.cardinality
  valid : decl.cardinality.isValid = true
  inverse : r.inverseOf = none

/-- A relation is added only if its class has none of its name. -/
theorem addRelation_ok : addRelation g relations decl = .ok after ↔
    ∃ r, Placed g relations.length decl r ∧ r.key ∉ relations.map Relation.key ∧ after = relations ++ [r] := by
  unfold addRelation
  constructor
  · intro h
    obtain ⟨source, hsource, h⟩ := exceptBind_ok.1 h
    obtain ⟨target, htarget, h⟩ := exceptBind_ok.1 h
    simp only at h
    split at h
    · cases h
    rename_i hvalid
    split at h
    · cases h
    rename_i hnone
    cases h
    refine ⟨_, ⟨rfl, rfl, hsource, htarget, rfl, by simpa using hvalid, rfl⟩, fun hkey => hnone ?_, rfl⟩
    exact isSome_ownedIn.2 hkey
  · rintro ⟨⟨id, name, source, target, cardinality, inverseOf⟩, ⟨rfl, rfl, hsource, htarget, rfl, hvalid, rfl⟩, hkey, rfl⟩
    refine exceptBind_ok.2 ⟨source, hsource, exceptBind_ok.2 ⟨target, htarget, ?_⟩⟩
    have hnone : ¬ (ownedIn relations source decl.name).isSome = true := fun h => hkey (isSome_ownedIn.1 h)
    simp [hvalid, hnone, pure, Except.pure]

/-- The relations stand for the declarations, one each, and their keys are distinct. -/
theorem placed_foldlM {decls : List RelationDecl} (h : decls.foldlM (addRelation g) [] = .ok relations) :
    (relations.map Relation.key).Nodup ∧ relations.length = decls.length ∧
      ∀ (i : Nat) decl r, decls[i]? = some decl → relations[i]? = some r → Placed g i decl r := by
  induction decls using List.reverseRecOn generalizing relations with
  | nil =>
    cases h
    simp
  | append_singleton decls last ih =>
    rw [foldlM_append] at h
    obtain ⟨before, hbefore, h⟩ := exceptBind_ok.1 h
    obtain ⟨r, hr, hkey, rfl⟩ := addRelation_ok.1 (by simpa using h)
    obtain ⟨hnodup, hlength, hplaced⟩ := ih hbefore
    refine ⟨?_, by simp [hlength], fun i decl r' hdecl hr' => ?_⟩
    · rw [map_append]
      exact hnodup.append (nodup_singleton _) (disjoint_singleton.2 hkey)
    · rw [getElem?_append] at hdecl hr'
      grind

/-- What holds of a store that was made from a specification. -/
structure WellFormed (s : Store) : Prop where
  graph : s.graph.Coherent
  keys : (s.relations.map Relation.key).Nodup
  id : ∀ (i : Nat) (r : Relation), s.relations[i]? = some r → r.id = ⟨i⟩
  source : ∀ r ∈ s.relations, r.source.index < s.graph.size
  target : ∀ r ∈ s.relations, r.target.index < s.graph.size
  /-- An inverse leads back along its base. -/
  inverse : ∀ r ∈ s.relations, ∀ b, r.inverseOf = some b → ∃ base ∈ s.relations, base.id = b ∧ base.inverseOf = none ∧
    base.source = r.target ∧ s.graph.componentOf base.target = s.graph.componentOf r.source

/-- A relation is determined by its id. -/
theorem WellFormed.eq_of_id_eq {s : Store} (hs : s.WellFormed) (hr : r ∈ s.relations) (hr' : r' ∈ s.relations) (h : r.id = r'.id) :
    r = r' := by
  obtain ⟨i, hi⟩ := getElem?_of_mem hr
  obtain ⟨j, hj⟩ := getElem?_of_mem hr'
  rw [hs.id i r hi, hs.id j r' hj] at h
  cases h
  rw [hi] at hj
  exact Option.some.inj hj

/-- An inverse is resolved to a relation of its target class that is no inverse itself and points back. -/
theorem resolveInverse_ok :
    resolveInverse g decls relations r decl name = .ok b ↔ ∃ base, ownedIn relations r.target name = some base ∧
      base.id = b ∧ (∀ baseDecl, decls[base.id.index]? = some baseDecl → baseDecl.inverseOf = none) ∧ base.id ≠ r.id ∧
      (g.isSubclass r.source base.target = true ∨ g.isSubclass base.target r.source = true) := by
  simp only [resolveInverse]
  cases hbase : ownedIn relations r.target name with
  | none => simp [throw, throwThe, MonadExceptOf.throw]
  | some base =>
    have hstop : ∀ {α : Type} (e : TypeError), (throw e : Except TypeError α) = .error e := fun _ => rfl
    simp only [hstop, bind, Except.bind, pure, Except.pure, Option.some.injEq, exists_eq_left']
    cases hdecl : decls[base.id.index]? with
    | none => grind
    | some baseDecl =>
      simp only [Option.some.injEq, forall_eq']
      cases baseDecl.inverseOf <;> grind

theorem getElem?_of_mapM_ok {α β ε : Type} {f : α → Except ε β} {l : List α} {bs : List β} (h : l.mapM f = .ok bs) {b : β}
    (hb : bs[i]? = some b) : ∃ a, l[i]? = some a ∧ f a = .ok b := by
  have hall := exceptMapM_ok.1 h
  obtain ⟨hi, rfl⟩ := List.getElem?_eq_some_iff.1 hb
  have hi' : i < l.length := hall.length_eq ▸ hi
  exact ⟨_, getElem?_eq_getElem hi', hall.get hi' hi⟩

theorem getElem?_mapM_ok {α β ε : Type} {f : α → Except ε β} {l : List α} {bs : List β} (h : l.mapM f = .ok bs) {a : α}
    (ha : l[i]? = some a) : ∃ b, bs[i]? = some b ∧ f a = .ok b := by
  have hall := exceptMapM_ok.1 h
  obtain ⟨hi, rfl⟩ := List.getElem?_eq_some_iff.1 ha
  have hi' : i < bs.length := hall.length_eq ▸ hi
  exact ⟨_, getElem?_eq_getElem hi', hall.get hi hi'⟩

theorem linkInverse_ok (h : linkInverse g decls relations r decl = .ok linked) :
    (decl.inverseOf = none ∧ linked = r) ∨ ∃ baseName b, decl.inverseOf = some baseName ∧
      resolveInverse g decls relations r decl baseName = .ok b ∧ linked = { r with inverseOf := some b } := by
  unfold linkInverse at h
  cases hd : decl.inverseOf with
  | none =>
    rw [hd] at h
    cases h
    exact .inl ⟨rfl, rfl⟩
  | some baseName =>
    rw [hd] at h
    obtain ⟨b, hb, h⟩ := exceptBind_ok.1 h
    cases h
    exact .inr ⟨baseName, b, rfl, hb, rfl⟩

theorem graph_ofSpec (h : ofSpec spec = .ok store) : ∃ decls, ClassGraph.ofDecls decls = .ok store.graph := by
  obtain ⟨g, hg, h⟩ := exceptBind_ok.1 h
  obtain ⟨linked, -, h⟩ := exceptBind_ok.1 h
  obtain ⟨-, -, h⟩ := exceptBind_ok.1 h
  obtain ⟨-, -, h⟩ := exceptBind_ok.1 h
  cases h
  exact ⟨_, hg⟩

/-- A store that is built from a specification is well formed. -/
theorem wellFormed_ofSpec (h : ofSpec spec = .ok store) : store.WellFormed := by
  obtain ⟨g, hg, h⟩ := exceptBind_ok.1 h
  obtain ⟨linked, hlinked, h⟩ := exceptBind_ok.1 h
  obtain ⟨-, -, h⟩ := exceptBind_ok.1 h
  obtain ⟨-, -, h⟩ := exceptBind_ok.1 h
  cases h
  obtain ⟨relations, hrelations, hlinked⟩ := exceptBind_ok.1 hlinked
  have hgraph := ClassGraph.coherent_ofDecls hg
  obtain ⟨hnodup, hlength, hplaced⟩ := placed_foldlM hrelations
  -- each relation of the store is a placed one, linked to its base
  have hfrom : ∀ (i : Nat) (r : Relation), linked[i]? = some r → ∃ r' decl, relations[i]? = some r' ∧
      spec.relations[i]? = some decl ∧ linkInverse g spec.relations relations r' decl = .ok r := by
    intro i r hr
    obtain ⟨⟨r', decl⟩, hzip, hlink⟩ := getElem?_of_mapM_ok hlinked hr
    obtain ⟨h1, h2⟩ := getElem?_zip_eq_some.1 hzip
    exact ⟨r', decl, h1, h2, hlink⟩
  have hsame : ∀ {r' r : Relation} {decl}, linkInverse g spec.relations relations r' decl = .ok r →
      r.id = r'.id ∧ r.key = r'.key ∧ r.target = r'.target := by
    intro r' r decl hlink
    rcases linkInverse_ok hlink with ⟨-, rfl⟩ | ⟨_, b, -, -, rfl⟩
    · exact ⟨rfl, rfl, rfl⟩
    · exact ⟨rfl, rfl, rfl⟩
  have hkeys : linked.map Relation.key = relations.map Relation.key := by
    have hall : List.Forall₂ (· = ·) (linked.map Relation.key) (((relations.zip spec.relations).map Prod.fst).map Relation.key) := by
      rw [forall₂_map_left_iff, forall₂_map_right_iff, forall₂_map_right_iff]
      exact ((exceptMapM_ok.1 hlinked).imp fun p r hlink => (hsame hlink).2.1).flip
    rwa [forall₂_eq_eq_eq, map_fst_zip (Nat.le_of_eq hlength)] at hall
  refine ⟨hgraph, hkeys ▸ hnodup, fun i r hr => ?_, fun r hr => ?_, fun r hr => ?_, fun r hr b hb => ?_⟩
  · obtain ⟨r', decl, hr', hdecl, hlink⟩ := hfrom i r hr
    exact (hsame hlink).1.trans (hplaced i decl r' hdecl hr').id
  · obtain ⟨i, hi⟩ := getElem?_of_mem hr
    obtain ⟨r', decl, hr', hdecl, hlink⟩ := hfrom i r hi
    rw [show r.source = r'.source from congrArg Prod.fst (hsame hlink).2.1]
    exact ClassGraph.resolveIn_lt (hplaced i decl r' hdecl hr').source
  · obtain ⟨i, hi⟩ := getElem?_of_mem hr
    obtain ⟨r', decl, hr', hdecl, hlink⟩ := hfrom i r hi
    rw [(hsame hlink).2.2]
    exact ClassGraph.resolveIn_lt (hplaced i decl r' hdecl hr').target
  · obtain ⟨i, hi⟩ := getElem?_of_mem hr
    obtain ⟨r', decl, hr', hdecl, hlink⟩ := hfrom i r hi
    rcases linkInverse_ok hlink with ⟨-, rfl⟩ | ⟨baseName, b', -, hresolve, rfl⟩
    · rw [(hplaced i decl r hdecl hr').inverse] at hb
      cases hb
    · cases hb
      obtain ⟨base, hbase, hid, hnone, -, hsub⟩ := resolveInverse_ok.1 hresolve
      obtain ⟨hmem, hkey⟩ := (ownedIn_iff hnodup).1 hbase
      obtain ⟨j, hj, rfl⟩ := getElem_of_mem hmem
      have hj' := getElem?_eq_getElem hj
      have hjd := getElem?_eq_getElem (hlength ▸ hj)
      have hplace := hplaced j _ _ hjd hj'
      have hzip : (relations.zip spec.relations)[j]? = some (_, _) := getElem?_zip_eq_some.2 ⟨hj', hjd⟩
      obtain ⟨base', hbase', hlink'⟩ := getElem?_mapM_ok hlinked hzip
      -- the base is no inverse itself, so linking leaves it as it is
      rcases linkInverse_ok hlink' with ⟨-, rfl⟩ | ⟨_, _, hsome, -, -⟩
      · refine ⟨_, mem_of_getElem? hbase', hid, hplace.inverse, congrArg Prod.fst hkey, ?_⟩
        simp only [ClassGraph.isSubclass, Bool.or_eq_true, decide_eq_true_eq] at hsub
        rcases hsub with (heq | hanc) | (heq | hanc)
        · exact congrArg g.componentOf heq.symm
        · exact hgraph.component _ _ hanc
        · exact congrArg g.componentOf heq
        · exact (hgraph.component _ _ hanc).symm
      · rw [hnone _ (by rw [hplace.id]; exact hjd)] at hsome
        cases hsome

end Store

end StoreCheck
