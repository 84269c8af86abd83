import StoreCheck.Proofs.WellFormed
import StoreCheck.Proofs.WriteSet

/-!
# Which specifications are accepted

`Spec.WellFormed` says what a specification has to obey in terms of its declarations alone. Validation checks it in passes: classes,
relations one after another against those before, inverses against all relations, and names. Each pass succeeds exactly if its
part of the conditions holds, so a store is made exactly from the well-formed specifications.
-/

namespace StoreCheck

open List Store

variable {decls : List ClassDecl} {a b : String} {c : ClassId}

/-- The names stand for one class, or for two of which one inherits from the other. -/
def ClassDecl.Related (decls : List ClassDecl) (a b : String) : Prop :=
  ∃ c d : ClassId, (decls.map (·.name))[c.index]? = some a ∧ (decls.map (·.name))[d.index]? = some b ∧
    (c = d ∨ Relation.TransGen (Inherits decls) c d ∨ Relation.TransGen (Inherits decls) d c)

/-- The second relation is declared as what the first one, an inverse of the given name, reads backwards. -/
structure RelationDecl.Inverts (classes : List ClassDecl) (decl : RelationDecl) (name : String) (base : RelationDecl) : Prop where
  source : base.source = decl.target
  name : base.name = name
  inverseOf : base.inverseOf = none
  back : ClassDecl.Related classes decl.source base.target

/-- Both ends are declared classes, and the bounds admit some size. -/
structure RelationDecl.Sound (classes : List ClassDecl) (decl : RelationDecl) : Prop where
  source : decl.source ∈ classes.map (·.name)
  target : decl.target ∈ classes.map (·.name)
  bounds : decl.cardinality.isValid = true

/-- What a specification has to obey. -/
structure Spec.WellFormed (spec : Spec) : Prop where
  classNames : (spec.classes.map (·.name)).Nodup
  parents : ∀ d ∈ spec.classes, ∀ p ∈ d.parents, p ∈ spec.classes.map (·.name)
  acyclic : ∀ c, ¬ Relation.TransGen (ClassDecl.Inherits spec.classes) c c
  relations : ∀ r ∈ spec.relations, r.Sound spec.classes
  relationNames : (spec.relations.map fun r => (r.source, r.name)).Nodup
  inverses : ∀ r ∈ spec.relations, ∀ name, r.inverseOf = some name → ∃ base ∈ spec.relations, r.Inverts spec.classes name base
  actionNames : (spec.actions.map (·.name)).Nodup
  invariantNames : (spec.invariants.map (·.name)).Nodup

/-! ## Classes -/

namespace ClassGraph

variable {g : ClassGraph}

theorem exists_ofDecls_iff : (∃ g, ofDecls decls = .ok g) ↔ (decls.map (·.name)).Nodup ∧
    (∀ d ∈ decls, ∀ p ∈ d.parents, p ∈ decls.map (·.name)) ∧ ∀ c, ¬ Relation.TransGen (ClassDecl.Inherits decls) c c := by
  constructor
  · rintro ⟨g, h⟩
    obtain ⟨hnames, hparents, -⟩ := ofDecls_ok h
    refine ⟨hnames, ?_, fun c hc => not_mem_ancestorsOf_self h c ((mem_ancestorsOf h).2 hc)⟩
    refine forall_left_of_forall₂ (fun d cs hcs => ?_) (exceptMapM_ok.1 hparents)
    obtain ⟨ds, hds, -⟩ := exceptBind_ok.1 hcs
    exact forall_left_of_forall₂ (fun p c hc => isSome_idxOf?.1 (Option.isSome_of_mem (resolveIn_ok.1 hc)))
      (exceptMapM_ok.1 hds)
  · rintro ⟨hnames, hknown, hacyclic⟩
    obtain ⟨parents, hparents⟩ := exists_resolved hknown
    rw [← edge_eq hnames hparents] at hacyclic
    obtain ⟨found, hsearch⟩ := (Search.search_ok_iff (edge_lt hparents) (Nat.lt_succ_self _)).2 hacyclic
    exact ⟨_, ofDecls_of_search hnames hparents hsearch⟩

variable (h : ofDecls decls = .ok g)

include h

theorem resolve_iff : g.resolve a = .ok c ↔ (decls.map (·.name))[c.index]? = some a := by
  obtain ⟨hnames, -, found, -, hg⟩ := ofDecls_ok h
  rw [hg]
  exact resolveIn_iff hnames

theorem exists_resolve_iff : (∃ c, g.resolve a = .ok c) ↔ a ∈ decls.map (·.name) := by
  simp only [resolve_iff h, mem_iff_getElem?]
  exact ⟨fun ⟨c, hc⟩ => ⟨c.index, hc⟩, fun ⟨i, hi⟩ => ⟨⟨i⟩, hi⟩⟩

theorem resolve_inj (ha : g.resolve a = .ok c) (hb : g.resolve b = .ok c) : a = b := by
  rw [resolve_iff h] at ha hb
  exact Option.some.inj (ha.symm.trans hb)

theorem related_iff (ha : g.resolve a = .ok c) (hb : g.resolve b = .ok d) :
    ClassDecl.Related decls a b ↔ g.isSubclass c d = true ∨ g.isSubclass d c = true := by
  simp only [ClassDecl.Related, ← resolve_iff h, ha, hb, isSubclass, Bool.or_eq_true, decide_eq_true_eq, mem_ancestorsOf h,
    Except.ok.injEq]
  grind

end ClassGraph

/-! ## Relations -/

namespace Store

variable {classes : List ClassDecl} {g : ClassGraph} {decls : List RelationDecl} {relations : List Relation} {decl : RelationDecl}
  {r : Relation}

theorem Placed.of_decl (h : decls.foldlM (addRelation g) [] = .ok relations) (hdecl : decl ∈ decls) :
    ∃ i r, decls[i]? = some decl ∧ relations[i]? = some r ∧ Placed g i decl r := by
  obtain ⟨-, hlength, hplaced⟩ := placed_foldlM h
  obtain ⟨i, hi, rfl⟩ := getElem_of_mem hdecl
  have hi' := getElem?_eq_getElem (hlength ▸ hi)
  exact ⟨i, _, getElem?_eq_getElem hi, hi', hplaced i _ _ (getElem?_eq_getElem hi) hi'⟩

theorem Placed.of_mem (h : decls.foldlM (addRelation g) [] = .ok relations) (hr : r ∈ relations) :
    ∃ i decl, decls[i]? = some decl ∧ relations[i]? = some r ∧ Placed g i decl r := by
  obtain ⟨-, hlength, hplaced⟩ := placed_foldlM h
  obtain ⟨i, hi, rfl⟩ := getElem_of_mem hr
  have hi' := getElem?_eq_getElem (hlength ▸ hi)
  exact ⟨i, _, hi', getElem?_eq_getElem hi, hplaced i _ _ hi' (getElem?_eq_getElem hi)⟩

variable (hg : ClassGraph.ofDecls classes = .ok g)

include hg

theorem mem_keys (h : decls.foldlM (addRelation g) [] = .ok relations) (ha : g.resolve a = .ok c) :
    (c, name) ∈ relations.map Relation.key ↔ (a, name) ∈ decls.map fun decl => (decl.source, decl.name) := by
  rw [mem_map, mem_map]
  constructor
  · rintro ⟨r, hr, hkey⟩
    obtain ⟨i, decl, hdecl, -, hplaced⟩ := Placed.of_mem h hr
    cases hkey
    exact ⟨decl, mem_of_getElem? hdecl, by rw [ClassGraph.resolve_inj hg hplaced.source ha, hplaced.name]⟩
  · rintro ⟨decl, hdecl, hkey⟩
    obtain ⟨i, r, -, hr, hplaced⟩ := Placed.of_decl h hdecl
    cases hkey
    cases ha.symm.trans hplaced.source
    exact ⟨r, mem_of_getElem? hr, by rw [Relation.key, hplaced.name]⟩

theorem exists_addRelation_iff (h : decls.foldlM (addRelation g) [] = .ok relations) :
    (∃ after, addRelation g relations decl = .ok after) ↔
      decl.Sound classes ∧ (decl.source, decl.name) ∉ decls.map fun decl => (decl.source, decl.name) := by
  simp only [addRelation_ok]
  constructor
  · rintro ⟨-, r, hr, hkey, -⟩
    exact ⟨⟨(ClassGraph.exists_resolve_iff hg).1 ⟨_, hr.source⟩, (ClassGraph.exists_resolve_iff hg).1 ⟨_, hr.target⟩, hr.valid⟩,
      fun hmem => hkey ((mem_keys hg h hr.source).2 (hr.name ▸ hmem))⟩
  · rintro ⟨⟨hsource, htarget, hvalid⟩, hnew⟩
    obtain ⟨s, hs⟩ := (ClassGraph.exists_resolve_iff hg).2 hsource
    obtain ⟨t, ht⟩ := (ClassGraph.exists_resolve_iff hg).2 htarget
    exact ⟨_, ⟨⟨relations.length⟩, decl.name, s, t, decl.cardinality, none⟩, ⟨rfl, rfl, hs, ht, rfl, hvalid, rfl⟩,
      fun hmem => hnew ((mem_keys hg h hs).1 hmem), rfl⟩

theorem exists_foldlM_iff : (∃ relations, decls.foldlM (addRelation g) [] = .ok relations) ↔
    (∀ decl ∈ decls, decl.Sound classes) ∧ (decls.map fun decl => (decl.source, decl.name)).Nodup := by
  induction decls using List.reverseRecOn with
  | nil => simp [pure, Except.pure]
  | append_singleton decls last ih =>
    rw [map_append, nodup_append_comm, map_singleton, singleton_append, nodup_cons, forall_mem_append,
      forall_mem_singleton, foldlM_append]
    constructor
    · rintro ⟨after, h⟩
      obtain ⟨before, hbefore, h⟩ := exceptBind_ok.1 h
      obtain ⟨hsound, hkeys⟩ := ih.1 ⟨before, hbefore⟩
      obtain ⟨hlast, hnew⟩ := (exists_addRelation_iff hg hbefore).1 ⟨after, by simpa using h⟩
      exact ⟨⟨hsound, hlast⟩, hnew, hkeys⟩
    · rintro ⟨⟨hsound, hlast⟩, hnew, hkeys⟩
      obtain ⟨before, hbefore⟩ := ih.2 ⟨hsound, hkeys⟩
      obtain ⟨after, hafter⟩ := (exists_addRelation_iff hg hbefore).2 ⟨hlast, hnew⟩
      exact ⟨after, exceptBind_ok.2 ⟨before, hbefore, by simpa using hafter⟩⟩

/-- An inverse can be linked if and only if it names a relation with its ends the other way round. -/
theorem exists_linkInverse_iff (h : decls.foldlM (addRelation g) [] = .ok relations) (hdecl : decls[i]? = some decl)
    (hr : Placed g i decl r) : (∃ linked, linkInverse g decls relations r decl = .ok linked) ↔
      ∀ name, decl.inverseOf = some name → ∃ base ∈ decls, decl.Inverts classes name base := by
  unfold linkInverse
  cases hinverse : decl.inverseOf with
  | none => simp
  | some name =>
    have hresolve : (∃ linked, (do return { r with inverseOf := some (← resolveInverse g decls relations r decl name) } :
        Except TypeError Relation) = .ok linked) ↔ ∃ b, resolveInverse g decls relations r decl name = .ok b := by
      simp [exceptBind_ok, pure, Except.pure]
    simp only [hresolve, resolveInverse_ok, ownedIn_iff (placed_foldlM h).1, Option.some.injEq, forall_eq']
    constructor
    · rintro ⟨-, base, ⟨hbase, hkey⟩, -, hnone, -, hback⟩
      obtain ⟨j, baseDecl, hj, -, hplaced⟩ := Placed.of_mem h hbase
      obtain ⟨hsource, hname⟩ := Prod.mk.inj hkey
      exact ⟨baseDecl, mem_of_getElem? hj, ClassGraph.resolve_inj hg (hsource ▸ hplaced.source) hr.target,
        hplaced.name.symm.trans hname, hnone _ (hplaced.id ▸ hj), (ClassGraph.related_iff hg hr.source hplaced.target).2 hback⟩
    · rintro ⟨baseDecl, hbase, hinverts⟩
      obtain ⟨j, base, hj, hmem, hplaced⟩ := Placed.of_decl h hbase
      have hsource : base.source = r.target :=
        Except.ok.inj (hplaced.source.symm.trans (hinverts.source ▸ hr.target))
      refine ⟨_, base, ⟨mem_of_getElem? hmem, ?_⟩, rfl, fun other hother => ?_, ?_,
        (ClassGraph.related_iff hg hr.source hplaced.target).1 hinverts.back⟩
      · rw [Relation.key, hsource, hplaced.name, hinverts.name]
      · rw [hplaced.id] at hother
        cases hj.symm.trans hother
        exact hinverts.inverseOf
      · rw [hplaced.id, hr.id]
        rintro heq
        cases heq
        cases hj.symm.trans hdecl
        rw [hinverts.inverseOf] at hinverse
        cases hinverse

theorem exists_resolveRelations_iff : (∃ linked, resolveRelations g decls = .ok linked) ↔
    (∃ relations, decls.foldlM (addRelation g) [] = .ok relations) ∧
      ∀ decl ∈ decls, ∀ name, decl.inverseOf = some name → ∃ base ∈ decls, decl.Inverts classes name base := by
  constructor
  · rintro ⟨linked, h⟩
    obtain ⟨relations, hrelations, h⟩ := exceptBind_ok.1 h
    refine ⟨⟨relations, hrelations⟩, fun decl hdecl => ?_⟩
    obtain ⟨i, r, hi, hr, hplaced⟩ := Placed.of_decl hrelations hdecl
    have hzip : (relations.zip decls)[i]? = some (r, decl) := getElem?_zip_eq_some.2 ⟨hr, hi⟩
    obtain ⟨r', -, hr'⟩ := getElem?_mapM_ok h hzip
    exact (exists_linkInverse_iff hg hrelations hi hplaced).1 ⟨r', hr'⟩
  · rintro ⟨⟨relations, hrelations⟩, hinverses⟩
    obtain ⟨linked, hlinked⟩ := exists_exceptMapM_ok (f := fun p : Relation × RelationDecl => linkInverse g decls relations p.1 p.2)
      (l := relations.zip decls) fun p hp => by
        obtain ⟨i, hi⟩ := getElem?_of_mem hp
        obtain ⟨hr, hdecl⟩ := getElem?_zip_eq_some.1 hi
        exact (exists_linkInverse_iff hg hrelations hdecl ((placed_foldlM hrelations).2.2 i _ _ hdecl hr)).2
          (hinverses _ (mem_of_getElem? hdecl))
    exact ⟨linked, exceptBind_ok.2 ⟨relations, hrelations, hlinked⟩⟩

end Store

theorem Store.checkNames_ok : checkNames kind names = .ok () ↔ names.Nodup := by
  have hnone := @firstRepeat?_none [] names
  rw [checkNames]
  cases hrepeat : firstRepeat? [] names <;> simp_all

/-- A store is made from a specification exactly if it is well formed. In the store, every relation has a base, which is no inverse;
a relation that is one leads to the class where its base starts, and from the component that its base leads to. -/
theorem specs_accepted_iff (spec : Spec) : ((∃ store, Store.ofSpec spec = .ok store) ↔ spec.WellFormed) ∧
    ∀ store, Store.ofSpec spec = .ok store → ∀ r ∈ store.relations, ∃ base ∈ store.baseRelations, base.id = r.base ∧
      (r.flipped = false → base = r) ∧ (r.flipped = true → r.target = base.source ∧
        store.graph.componentOf r.source = store.graph.componentOf base.target ∧
        store.graph.componentOf r.target = store.graph.componentOf base.source) := by
  refine ⟨⟨?_, fun h => ?_⟩, fun store h r hr => ?_⟩
  · rintro ⟨store, h⟩
    obtain ⟨g, hg, h⟩ := exceptBind_ok.mp h
    obtain ⟨linked, hlinked, h⟩ := exceptBind_ok.mp h
    obtain ⟨⟨⟩, hactions, h⟩ := exceptBind_ok.mp h
    obtain ⟨⟨⟩, hinvariants, -⟩ := exceptBind_ok.mp h
    obtain ⟨hnames, hparents, hacyclic⟩ := ClassGraph.exists_ofDecls_iff.mp ⟨g, hg⟩
    obtain ⟨hrelations, hinverses⟩ := (exists_resolveRelations_iff hg).mp ⟨linked, hlinked⟩
    obtain ⟨hsound, hkeys⟩ := (exists_foldlM_iff hg).mp hrelations
    exact ⟨hnames, hparents, hacyclic, hsound, hkeys, hinverses, checkNames_ok.mp hactions, checkNames_ok.mp hinvariants⟩
  · obtain ⟨g, hg⟩ := ClassGraph.exists_ofDecls_iff.mpr ⟨h.classNames, h.parents, h.acyclic⟩
    obtain ⟨linked, hlinked⟩ := (exists_resolveRelations_iff hg).mpr
      ⟨(exists_foldlM_iff hg).mpr ⟨h.relations, h.relationNames⟩, h.inverses⟩
    exact ⟨_, exceptBind_ok.mpr ⟨g, hg, exceptBind_ok.mpr ⟨linked, hlinked, exceptBind_ok.mpr
      ⟨⟨⟩, checkNames_ok.mpr h.actionNames, exceptBind_ok.mpr ⟨⟨⟩, checkNames_ok.mpr h.invariantNames, rfl⟩⟩⟩⟩⟩
  · have hwf := wellFormed_ofSpec h
    cases hinverse : r.inverseOf with
    | none =>
      refine ⟨r, List.mem_filter.mpr ⟨hr, by rw [hinverse]; rfl⟩, by rw [Relation.base, hinverse]; rfl, fun _ => rfl, ?_⟩
      simp [Relation.flipped, hinverse]
    | some b =>
      obtain ⟨base, hbase, hid, hnone, hsource, htarget⟩ := hwf.inverse r hr b hinverse
      refine ⟨base, List.mem_filter.mpr ⟨hbase, by rw [hnone]; rfl⟩, by rw [Relation.base, hinverse]; exact hid, ?_,
        fun _ => ⟨hsource.symm, htarget.symm, congrArg _ hsource.symm⟩⟩
      simp [Relation.flipped, hinverse]

/-- The specification of the hotel is accepted, and the guests of a room are found by reading stays backwards. -/
theorem specs_accepted_iff_hotel : Hotel.spec.WellFormed ∧ ∀ r ∈ Hotel.store.relations, ∃ base ∈ Hotel.store.baseRelations,
    base.id = r.base ∧ (r.flipped = false → base = r) ∧ (r.flipped = true → r.target = base.source ∧
      Hotel.store.graph.componentOf r.source = Hotel.store.graph.componentOf base.target ∧
      Hotel.store.graph.componentOf r.target = Hotel.store.graph.componentOf base.source) :=
  ⟨(specs_accepted_iff Hotel.spec).1.mp ⟨Hotel.store, Hotel.ofSpec_spec⟩, (specs_accepted_iff Hotel.spec).2 _ Hotel.ofSpec_spec⟩

end StoreCheck
