import StoreCheck.Proofs.Alignment
import StoreCheck.Proofs.WellFormed

/-!
# Properties that all types of an action have

A property of signatures is hereditary (`ClassGraph.Hereditary`) if the bottom and every class have it and joins keep it. Such a
property passes from the variables to every type that is inferred (`infer_hereditary`) and over every statement
(`Flow.all_statement`), so that it holds of every type of an action.

That all classes of a signature are declared is hereditary. The effect analysis starts from such types and keeps them, so it notes
effects on classes and relations of the store only (`Block.effects_declared`).
-/

namespace StoreCheck

open List

variable {x : String}

/-- The bottom and all classes have the property, and joins keep it. -/
structure ClassGraph.Hereditary (g : ClassGraph) (P : Signature → Prop) : Prop where
  bottom : P .bottom
  ofClass : ∀ c : ClassId, c.index < g.size → P (.ofClass c)
  join : ∀ {a b}, P a → P b → P (g.join a b)

/-- The signatures of all variables have the property. -/
def TypeEnv.All (P : Signature → Prop) (env : TypeEnv) : Prop := ∀ x s, env.signatureOf? x = some s → P s

variable {store : Store} {P : Signature → Prop}

/-! ## Joins -/

namespace ClassGraph.Hereditary

variable {g : ClassGraph} (hP : g.Hereditary P)
include hP

theorem joinPath {a b : Option Signature} (ha : ∀ s ∈ a, P s) (hb : ∀ s ∈ b, P s) : ∀ s ∈ g.joinPath a b, P s := by
  cases a with
  | none => exact hb
  | some a =>
    cases b with
    | none => exact ha
    | some b =>
      rintro s ⟨⟩
      exact hP.join (ha a rfl) (hb b rfl)

/-- The join over several paths has the property if the signatures on all of them do. -/
theorem joinPaths {paths : List (Option Signature)} {start : Option Signature} (hpaths : ∀ path ∈ paths, ∀ s ∈ path, P s)
    (hstart : ∀ s ∈ start, P s) : ∀ s ∈ paths.foldl g.joinPath start, P s := by
  induction paths generalizing start with
  | nil => exact hstart
  | cons path rest ih =>
    obtain ⟨hpath, hrest⟩ := forall_mem_cons.1 hpaths
    exact ih hrest (hP.joinPath hstart hpath)

theorem joinType {a b c : ObjType} (h : a.join g b = .ok c) (ha : P a.signature) (hb : P b.signature) : P c.signature := by
  rw [joinStrict_ok _ (ObjType.join_ok h)]
  exact hP.join ha hb

end ClassGraph.Hereditary

/-- Joins climb to common ancestors and stay in the component. -/
theorem ClassGraph.Coherent.hereditary_uniform {g : ClassGraph} (hg : g.Coherent) : g.Hereditary g.Uniform := by
  refine ⟨.inl rfl, fun c _ => .inr ⟨g.componentOf c, forall_mem_singleton.2 rfl⟩, ?_⟩
  intro a b ha hb
  unfold join
  split
  · exact hb
  · rename_i hna
    split
    · exact ha
    · rename_i hnb
      obtain ⟨k, hk⟩ := ha.resolve_left hna
      have hjoin := hg.within_join (by simpa using hna) (by simpa using hnb) hk
      rw [join, if_neg hna, if_neg hnb] at hjoin
      exact .inr ⟨k, hjoin⟩

/-! ## Inference -/

namespace TypeEnv.All

variable {env : TypeEnv} {t : ObjType}

theorem nil : TypeEnv.All P [] := fun _ _ h => by cases h

theorem insert (h : env.All P) (x : String) (ht : P t.signature) : TypeEnv.All P (VarMap.insert env x t) := by
  intro y s hs
  rw [TypeEnv.signatureOf?_insert] at hs
  split at hs
  · cases hs
    exact ht
  · exact h y s hs

theorem alike {other : TypeEnv} (h : env.All P) (halike : env.Alike other) : other.All P := fun x s hs => h x s ((halike x).trans hs)

theorem find? (h : env.All P) (ht : env.find? x = some t) : P t.signature := h x _ (congrArg (Option.map _) ht)

end TypeEnv.All

theorem Scope.all_binding {scope : Scope} {b : Binding} (h : scope.types.All P) (hb : scope.find? x = some b) :
    P b.type.signature := by
  refine h.find? (x := x) ?_
  rw [Scope.find?_types, hb]
  rfl

theorem inferUnion_hereditary {env : TypeEnv} {acc t : ObjType} (hP : store.graph.Hereditary P) {es : List ObjExpr}
    (hes : ∀ e ∈ es, ∀ u, infer store env e = .ok u → P u.signature) (hacc : P acc.signature)
    (ht : inferUnion store env acc es = .ok t) : P t.signature := by
  induction es generalizing acc with
  | nil =>
    cases ht
    exact hacc
  | cons e es ih =>
    obtain ⟨he, hes⟩ := forall_mem_cons.1 hes
    obtain ⟨u, v, hu, hv, ht⟩ := inferUnion_cons_ok.1 ht
    refine ih hes ?_ ht
    rw [ClassGraph.joinStrict_ok _ (unionType_ok hv)]
    exact hP.join hacc (he u hu)

/-- The type of an expression has a hereditary property if the types of the variables do. -/
theorem infer_hereditary {env : TypeEnv} (hwf : store.WellFormed) (hP : store.graph.Hereditary P) (henv : env.All P) (e : ObjExpr)
    {t : ObjType} (ht : infer store env e = .ok t) : P t.signature := by
  induction e generalizing t with
  | allOf className =>
    obtain ⟨c, hc, ht⟩ := exceptBind_ok.1 ht
    cases ht
    exact hP.ofClass c (ClassGraph.resolveIn_lt hc)
  | var name | iterator name => exact henv.find? (TypeEnv.find?_of_typeOf ht)
  | subset source ih =>
    obtain ⟨u, hu, rfl⟩ := infer_subset_ok.1 ht
    exact ih (t := u) hu
  | oneOf source ih =>
    obtain ⟨u, hu, rfl⟩ := infer_oneOf_ok.1 ht
    exact ih (t := u) hu
  | union parts ih =>
    rw [infer_union] at ht
    exact inferUnion_hereditary hP (fun e he u => ih e he) hP.bottom ht
  | deref source relation ih =>
    obtain ⟨u, r, -, hr, rfl⟩ := infer_deref_ok.1 ht
    exact hP.ofClass r.target (hwf.target r (Store.relationOn_ok hr).1)

/-! ## Statements -/

namespace Flow

variable {types out : TypeEnv}

theorem all_mergeEnvs (hP : store.graph.Hereditary P) {exits : List TypeEnv} (h : ∀ env ∈ exits, env.All P) :
    (mergeEnvs store.graph exits).All P := by
  intro x s hs
  rw [signatureOf?_mergeEnvs] at hs
  refine hP.joinPaths (fun path hpath => ?_) (by simp) s hs
  obtain ⟨env, henv, rfl⟩ := mem_map.1 hpath
  exact h env henv x

theorem all_carryOuts (hP : store.graph.Hereditary P) {inner : TypeEnv} {names : List String} (htypes : types.All P)
    (hinner : inner.All P) (h : names.foldlM (carryOut store.graph types inner) types = .ok out) : out.All P := by
  intro x s hs
  rw [signatureOf?_carryOuts store.graph types inner x names types out h] at hs
  split at hs
  · unfold carriedSignature at hs
    split at hs
    · rename_i b a hbefore hafter
      cases hs
      exact hP.join (htypes x b hbefore) (hinner x a hafter)
    · exact htypes x s hs
  · exact htypes x s hs

mutual

/-- A statement keeps a hereditary property of all types. -/
theorem all_statement (hwf : store.WellFormed) (hP : store.graph.Hereditary P) : ∀ (st : Statement) {types out : TypeEnv},
    types.All P → statement store types st = .ok out → out.All P
  | .assign var value, types, out, htypes, h => by
    obtain ⟨t, ht, h⟩ := exceptBind_ok.1 h
    cases h
    exact htypes.insert var (infer_hereditary hwf hP htypes value ht)
  | .create className var, types, out, htypes, h => by
    obtain ⟨c, hc, h⟩ := exceptBind_ok.1 h
    cases var with
    | none =>
      cases h
      exact htypes
    | some name =>
      cases h
      exact htypes.insert name (hP.ofClass c (ClassGraph.resolveIn_lt hc))
  | .delete _, types, out, htypes, h | .createTuple _ _ _, types, out, htypes, h | .deleteTuple _ _ _, types, out, htypes, h
  | .forEach _ _ _ .flat, types, out, htypes, h | .either [], types, out, htypes, h => by
    cases h
    exact htypes
  | .ifElse _ thenBlock elseBlock, types, out, htypes, h => by
    obtain ⟨first, hfirst, h⟩ := exceptBind_ok.1 h
    obtain ⟨second, hsecond, h⟩ := exceptBind_ok.1 h
    cases h
    refine all_mergeEnvs hP (forall_mem_cons.2 ⟨all_block hwf hP thenBlock htypes hfirst, ?_⟩)
    exact forall_mem_singleton.2 (all_block hwf hP elseBlock htypes hsecond)
  | .either [only], types, out, htypes, h => by
    rw [statement] at h
    exact all_block hwf hP only htypes h
  | .either (first :: second :: rest), types, out, htypes, h => by
    obtain ⟨exits, hexits, h⟩ := exceptBind_ok.1 h
    cases h
    exact all_mergeEnvs hP (all_blocks hwf hP (first :: second :: rest) htypes hexits)
  | .forEach var domain body .chained, types, out, htypes, h => by
    obtain ⟨type, htype, h⟩ := exceptBind_ok.1 h
    split at h
    · cases h
      exact htypes
    · obtain ⟨inner, hinner, h⟩ := exceptBind_ok.1 h
      have hdomain : P type.signature := infer_hereditary hwf hP htypes domain htype
      exact all_carryOuts hP htypes (all_block hwf hP body (htypes.insert var (t := type.single) hdomain) hinner) h

theorem all_block (hwf : store.WellFormed) (hP : store.graph.Hereditary P) : ∀ (b : List Statement) {types out : TypeEnv},
    types.All P → block store types b = .ok out → out.All P
  | [], types, out, htypes, h => by
    cases h
    exact htypes
  | st :: rest, types, out, htypes, h => by
    obtain ⟨mid, hmid, h⟩ := exceptBind_ok.1 h
    exact all_block hwf hP rest (all_statement hwf hP st htypes hmid) h

theorem all_blocks (hwf : store.WellFormed) (hP : store.graph.Hereditary P) : ∀ (bs : List (List Statement)) {types : TypeEnv}
    {outs : List TypeEnv}, types.All P → blocks store types bs = .ok outs → ∀ out ∈ outs, out.All P
  | [], types, outs, _, h => by
    cases h
    exact forall_mem_nil _
  | b :: rest, types, outs, htypes, h => by
    obtain ⟨out, hout, h⟩ := exceptBind_ok.1 h
    obtain ⟨others, hothers, h⟩ := exceptBind_ok.1 h
    cases h
    exact forall_mem_cons.2 ⟨all_block hwf hP b htypes hout, all_blocks hwf hP rest htypes hothers⟩

end

/-- Parameters have a hereditary property: each is a set of objects of a class. -/
theorem all_params (hP : store.graph.Hereditary P) : ∀ (ps : List Param) {types out : TypeEnv}, types.All P →
    params store types ps = .ok out → out.All P
  | [], types, out, htypes, h => by
    cases h
    exact htypes
  | p :: rest, types, out, htypes, h => by
    obtain ⟨c, hc, h⟩ := exceptBind_ok.1 h
    exact all_params hP rest (htypes.insert p.name (hP.ofClass c (ClassGraph.resolveIn_lt hc))) h

end Flow

/-! ## Declared classes -/

/-- All classes of the signature are declared. -/
def ClassGraph.Declares (g : ClassGraph) (s : Signature) : Prop := ∀ c ∈ s.classes, c.index < g.size

theorem ClassGraph.hereditary_declares (g : ClassGraph) : g.Hereditary g.Declares where
  bottom := forall_mem_nil _
  ofClass _ hc := forall_mem_singleton.2 hc
  join {a b} ha hb := by
    unfold ClassGraph.join
    split
    · exact hb
    · split
      · exact ha
      · intro c hc
        exact mem_idsUpTo.1 (mem_canonical.1 hc).1

/-- The relations with an end in a component are base relations of the store. -/
theorem Store.declared_of_incident {s : Signature} {r : Relation} (hr : r ∈ store.incidentRelations s) :
    Domain.Declared store (.ofRelation r.id) := by
  unfold Store.incidentRelations at hr
  split at hr
  · cases hr
  · obtain ⟨hr, hbase⟩ := mem_filter.1 (mem_filter.1 hr).1
    exact ⟨r, hr, by rw [Relation.base, Option.isNone_iff_eq_none.1 hbase]; rfl⟩

namespace Analysis

/-- The classes of all types are declared, and so is every domain with a noted effect. -/
structure Declared (store : Store) (a : Analysis) : Prop where
  types : a.types.All store.graph.Declares
  distinct : VarMap.Distinct a.types
  domains : ∀ d e, a.effects.Notes d e → d.Declared store

/-- If all noted domains are declared before, they are so after. -/
def Noting (store : Store) (a b : Analysis) : Prop :=
  (∀ d e, a.effects.Notes d e → d.Declared store) → ∀ d e, b.effects.Notes d e → d.Declared store

instance : StepOrder (Noting store) where
  refl _ h := h
  trans h h' ha := h' (h ha)

/-- If all classes and noted domains are declared before, they are so after. -/
def Declaring (store : Store) (a b : Analysis) : Prop := a.Declared store → b.Declared store

instance : StepOrder (Declaring store) where
  refl _ h := h
  trans h h' ha := h' (h ha)

variable {a b : Analysis}

/-! ### Reading -/

theorem noting_note (d : Domain) (operation : Operation) (l : Bool) (hd : d.Declared store) :
    Keeps (Noting store) (note d operation l) := by
  refine .modify fun a h d' e he => ?_
  rcases (EffectMap.notes_add a.effects d d' operation l e).1 he with he | ⟨rfl, -⟩
  · exact h d' e he
  · exact hd

theorem reading_noting : Reading store (Keeps (Noting store)) := reading_keeps (noting_note · .read)

theorem noting_readQuantifier (vars : List QuantVar) (body : Analyze Unit) (h : Keeps (Noting store) body) :
    Keeps (Noting store) (readQuantifier store vars body) :=
  .bind .get fun _ => .bind (reading_noting.bindQuantified (fun _ _ _ => .modify fun _ h => h) vars) fun _ =>
    .bind h fun _ => .modify fun _ h => h

/-- A step that only reads declared domains keeps everything declared. -/
theorem declaring_of_reads {α : Type} {x : Analyze α} (hreads : Keeps Reads x) (hnotes : Keeps (Noting store) x) :
    Keeps (Declaring store) x := by
  intro a p b hrun ha
  have hab := hreads.of_ok hrun
  refine ⟨?_, ?_, hnotes.of_ok hrun ha.domains⟩
  · rw [hab.types]
    exact ha.types
  · rw [hab.types]
    exact ha.distinct

theorem declaring_readSet (inFormula : Bool) (e : ObjExpr) : Keeps (Declaring store) (readSet store inFormula e) :=
  declaring_of_reads (reads_readSet store inFormula e) (reading_noting.readSet inFormula e)

theorem declaring_readFormula (f : FormulaExpr) : Keeps (Declaring store) (readFormula store f) :=
  declaring_of_reads (reads_readFormula store f) (reading_noting.readFormula noting_readQuantifier f)

/-! ### Statements -/

theorem declaring_note (operation : Operation) (l : Bool) (hd : d.Declared store) : Keeps (Declaring store) (note d operation l) :=
  fun _ _ _ hrun ha => by
    have hnotes := (noting_note d operation l hd).of_ok hrun ha.domains
    cases modify_ok.1 hrun
    exact ⟨ha.types, ha.distinct, hnotes⟩

theorem declaring_notes {α : Type} {domain : α → Domain} {xs : List α} (operation : Operation) (l : Bool)
    (h : ∀ x ∈ xs, (domain x).Declared store) : Keeps (Declaring store) (xs.forM fun x => note (domain x) operation l) :=
  fun _ _ _ hrun ha => forM_keeps (P := Declared store) (fun x hx _ _ hs h1 => (declaring_note operation l (h x hx)).of_ok h1 hs) ha hrun

theorem declaring_bind (name : String) {t : ObjType} (l : Bool) (ht : store.graph.Declares t.signature) :
    Keeps (Declaring store) (bind name t l) :=
  .modify fun _ ha => ⟨ha.types.insert name ht, ha.distinct.insert name t, ha.domains⟩

/-- An inferred type has declared classes only. -/
theorem declaring_typeOfBind {α : Type} {e : ObjExpr} {f : ObjType → Analyze α} (hwf : store.WellFormed)
    (h : ∀ t, store.graph.Declares t.signature → Keeps (Declaring store) (f t)) : Keeps (Declaring store) (typeOf store e >>= f) := by
  intro a p b hrun ha
  obtain ⟨t, ht, hrun⟩ := typeOfBind_ok.1 hrun
  exact (h t (infer_hereditary hwf store.graph.hereditary_declares ha.types e ht)).of_ok hrun ha

theorem declaring_deleteObjects (hwf : store.WellFormed) (objects : ObjExpr) :
    Keeps (Declaring store) (deleteObjects store objects) := by
  refine .bind (declaring_readSet false objects) fun _ => declaring_typeOfBind hwf fun t ht => ?_
  refine .bind (declaring_notes _ _ ht) fun _ => declaring_notes _ _ fun r hr => ?_
  exact Store.declared_of_incident hr

theorem declaring_updateTuples (source : ObjExpr) (relation : String) (target : ObjExpr) (operation : Operation) :
    Keeps (Declaring store) (updateTuples store source relation target operation) :=
  .bind (declaring_readSet false source) fun _ => .bind (declaring_readSet false target) fun _ =>
    .bind (declaring_of_reads (reading_reads.typeOf source) (reading_noting.typeOf source)) fun _ => .liftBind fun r hr =>
      declaring_note _ _ ⟨r, (Store.relationOn_ok hr).1, rfl⟩

/-- Where paths meet: all of them start from the same bindings, and joins name declared classes only. -/
theorem declaring_alternatives {paths : List (Analyze Unit)} (h : ∀ p ∈ paths, Keeps (Declaring store) p) :
    Keeps (Declaring store) (alternatives store paths) := by
  intro entry u b hrun hentry
  have hpaths : ∀ {paths : List (Analyze Unit)}, (∀ p ∈ paths, Keeps (Declaring store) p) → ∀ {a b : Analysis} {exits},
      (∀ d e, a.effects.Notes d e → d.Declared store) → runPaths entry paths a = .ok (exits, b) →
      (∀ d e, b.effects.Notes d e → d.Declared store) ∧
        ∀ e ∈ exits, TypeEnv.All store.graph.Declares e.1 ∧ VarMap.Distinct e.1 := by
    intro paths h
    induction paths with
    | nil =>
      intro a b exits ha hrun
      cases pure_ok.1 hrun
      exact ⟨ha, forall_mem_nil _⟩
    | cons p rest ih =>
      intro a b exits ha hrun
      obtain ⟨hp, hrest⟩ := forall_mem_cons.1 h
      unfold runPaths at hrun
      rw [modify_bind, bind_ok] at hrun
      obtain ⟨⟨⟩, after, h1, hrun⟩ := hrun
      rw [get_bind, bind_ok] at hrun
      obtain ⟨others, b', h2, hrun⟩ := hrun
      cases pure_ok.1 hrun
      have hafter := hp.of_ok h1 ⟨hentry.types, hentry.distinct, ha⟩
      obtain ⟨hb, hothers⟩ := ih hrest hafter.domains h2
      exact ⟨hb, forall_mem_cons.2 ⟨⟨hafter.types, hafter.distinct⟩, hothers⟩⟩
  unfold alternatives at hrun
  rw [get_bind, bind_ok] at hrun
  obtain ⟨exits, a', h1, hrun⟩ := hrun
  cases modify_ok.1 hrun
  obtain ⟨hdomains, hexits⟩ := hpaths h hentry.domains h1
  refine ⟨fun x s hs => ?_, distinct_mergeAll _ _ _ VarMap.distinct_nil, hdomains⟩
  rw [signatureOf?_mergeAll store.graph x exits [] fun e he => (hexits e he).2, ← foldl_map] at hs
  refine store.graph.hereditary_declares.joinPaths (fun path hpath => ?_) (TypeEnv.All.nil x) s hs
  obtain ⟨e, he, rfl⟩ := mem_map.1 hpath
  exact (hexits e he).1 x

theorem declaring_carryOut {inner : Analysis} (hinner : inner.Declared store) (name : String) :
    Keeps (Declaring store) (carryOut store inner name) := by
  intro outer u b hrun houter
  unfold carryOut at hrun
  rw [get_bind] at hrun
  cases hbefore : VarMap.find? outer.types name with
  | none =>
    simp only [hbefore] at hrun
    cases pure_ok.1 hrun
    exact houter
  | some before =>
    cases hafter : VarMap.find? inner.types name with
    | none =>
      simp only [hbefore, hafter] at hrun
      cases pure_ok.1 hrun
      exact houter
    | some after =>
      simp only [hbefore, hafter] at hrun
      have hjoin := store.graph.hereditary_declares.join (houter.types.find? hbefore) (hinner.types.find? hafter)
      exact (declaring_bind name _ hjoin).of_ok hrun houter

theorem declaring_loop (hwf : store.WellFormed) (var : String) (domain : ObjExpr) (assigned : List String) (order : LoopKind)
    {body : Analyze Unit} (h : Keeps (Declaring store) body) : Keeps (Declaring store) (loop store var domain assigned order body) := by
  intro a u c hrun ha
  obtain ⟨l, before, t, inner, h1, ht, h2, hflat, hchained⟩ := loop_ok hrun
  have hbefore := (declaring_readSet false domain).of_ok h1 ha
  have htype := infer_hereditary hwf store.graph.hereditary_declares hbefore.types domain ht
  have hinner := h.of_ok h2 ⟨hbefore.types.insert var htype, hbefore.distinct.insert var t.single, hbefore.domains⟩
  have hleave : (leaveLoop before inner).Declared store := ⟨hbefore.types, hbefore.distinct, hinner.domains⟩
  cases order with
  | flat => exact hflat rfl ▸ hleave
  | chained => exact (Keeps.forM (declaring_carryOut hinner) _).of_ok (hchained rfl) hleave

mutual

/-- A statement leaves all classes and noted domains declared. -/
theorem declaring_runStatement (hwf : store.WellFormed) : ∀ st : Statement, Keeps (Declaring store) (runStatement store st)
  | .assign var value => by
    exact .bind (declaring_readSet false value) fun _ => declaring_typeOfBind hwf fun t ht => declaring_bind var _ ht
  | .create className var => by
    refine .liftBind fun c hc => .bind (declaring_note _ _ (ClassGraph.resolveIn_lt hc)) fun _ => ?_
    cases var with
    | none => exact .pure _
    | some name => exact declaring_bind name _ (store.graph.hereditary_declares.ofClass c (ClassGraph.resolveIn_lt hc))
  | .delete objects => by
    rw [runStatement]
    exact declaring_deleteObjects hwf objects
  | .createTuple source relation target | .deleteTuple source relation target => by
    rw [runStatement]
    exact declaring_updateTuples source relation target _
  | .ifElse condition thenBlock elseBlock => by
    refine .bind (declaring_readFormula condition) fun _ => declaring_alternatives (forall_mem_cons.2 ⟨?_, ?_⟩)
    · exact declaring_runBlock hwf thenBlock
    · exact forall_mem_singleton.2 (declaring_runBlock hwf elseBlock)
  | .either branches => by
    rw [runStatement]
    exact declaring_alternatives (declaring_runEach hwf branches)
  | .forEach var domain body order => by
    exact declaring_loop hwf var domain _ order (declaring_runBlock hwf body)

theorem declaring_runBlock (hwf : store.WellFormed) : ∀ b : List Statement, Keeps (Declaring store) (runBlock store b)
  | [] => by
    rw [runBlock]
    exact .pure _
  | st :: rest => by
    exact .bind (declaring_runStatement hwf st) fun _ => declaring_runBlock hwf rest

theorem declaring_runEach (hwf : store.WellFormed) : ∀ (bs : List (List Statement)), ∀ p ∈ runEach store bs, Keeps (Declaring store) p
  | [], p, hp => by
    cases hp
  | b :: rest, p, hp => by
    rcases mem_cons.1 hp with rfl | hp
    · exact declaring_runBlock hwf b
    · exact declaring_runEach hwf rest p hp

end

end Analysis

/-- The analysis of a block over variables with declared classes finds effects on declared classes and relations only. -/
theorem Block.effects_declared {types : TypeEnv} {locals : VarMap Bool} {block : Block} {effects : EffectMap} (hwf : store.WellFormed)
    (htypes : types.All store.graph.Declares) (hdistinct : VarMap.Distinct types)
    (h : block.effects store types locals = .ok effects) : ∀ d e, effects.Notes d e → d.Declared store := by
  obtain ⟨⟨⟨⟩, after⟩, hrun, h⟩ := exceptBind_ok.1 h
  cases h
  have hstart : Analysis.Declared store ⟨types, locals, .empty⟩ :=
    ⟨htypes, hdistinct, fun d e ⟨s, hs, _⟩ => by cases hs⟩
  intro d e he
  obtain ⟨s, hs, he⟩ := (EffectMap.notes_normalize after.effects d e).1 he
  exact ((Analysis.declaring_runBlock hwf block).of_ok hrun hstart).domains d e ⟨s, hs, (mem_filter.1 he).1⟩

end StoreCheck
