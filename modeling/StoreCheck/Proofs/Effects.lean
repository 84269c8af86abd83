import Mathlib.Tactic.Tauto
import StoreCheck.Effect.Analysis
import StoreCheck.Proofs.Class.Inheritance
import StoreCheck.Proofs.Typing

/-!
# What the effect analysis collects

An effect map answers which domains have an effect of a kind; adding an effect adds its domain and loses none, and dropping
local twins changes no answer. On top of that stand the facts about the walk: reading notes no write and leaves the bindings
alone (`Analysis.Reads`), no step forgets an effect (`Analysis.More`), and two walks over the same block from alike types note
the same writes (`Analysis.Within`).
-/

namespace StoreCheck

open List EffectSet EffectMap

variable {s : EffectSet} {d : Domain} {isLocal inFormula : Bool} {operation : Operation} {e : ObjExpr} {store : Store}
  {es : List ObjExpr} {fs : List FormulaExpr} {c : Analysis} {order : LoopKind}

/-! ## Effect maps -/

namespace Effect

theorem mem_all : ∀ e : Effect, e ∈ all
  | ⟨.read, false⟩ => by decide
  | ⟨.read, true⟩ => by decide
  | ⟨.create, false⟩ => by decide
  | ⟨.create, true⟩ => by decide
  | ⟨.delete, false⟩ => by decide
  | ⟨.delete, true⟩ => by decide

end Effect

namespace EffectSet

theorem mem_union (a b : EffectSet) (e : Effect) : e ∈ union a b ↔ e ∈ a ∨ e ∈ b := by
  simp [union, Effect.mem_all e]

/-- A non-local effect is never dropped. -/
theorem mem_normalize_nonlocal (s : EffectSet) (operation : Operation) :
    (⟨operation, false⟩ : Effect) ∈ s.normalize ↔ ⟨operation, false⟩ ∈ s := by
  simp [normalize]

/-- Dropping a local effect with a non-local twin leaves the twin. -/
theorem exists_mem_normalize {e : Effect} (he : e ∈ s) : ∃ e' ∈ s.normalize, e'.operation = e.operation := by
  by_cases twin : (⟨e.operation, false⟩ : Effect) ∈ s
  · exact ⟨⟨e.operation, false⟩, (mem_normalize_nonlocal s e.operation).2 twin, rfl⟩
  · exact ⟨e, mem_filter.2 ⟨he, by simp [twin]⟩, rfl⟩

theorem any_normalize (s : EffectSet) (test : Operation → Bool) :
    (s.normalize.any fun e => test e.operation) = s.any fun e => test e.operation := by
  rw [Bool.eq_iff_iff, any_eq_true, any_eq_true]
  constructor
  · rintro ⟨e, he, htest⟩
    exact ⟨e, (mem_filter.1 he).1, htest⟩
  · rintro ⟨e, he, htest⟩
    obtain ⟨e', he', hsame⟩ := exists_mem_normalize he
    exact ⟨e', he', hsame ▸ htest⟩

end EffectSet

namespace Domain

/-- The store has the class, or a relation with this base. -/
def Declared (store : Store) : Domain → Prop
  | .ofClass c => c.index < store.graph.size
  | .ofRelation id => ∃ r ∈ store.relations, r.base = id

theorem before_irrefl (d : Domain) : d.before d = false := by
  cases d <;> simp [before]

theorem before_trans {a b c : Domain} (h : a.before b = true) (h' : b.before c = true) : a.before c = true := by
  cases a <;> cases b <;> cases c <;> simp_all [before] <;> omega

theorem before_of_not_before {a b : Domain} (hne : a ≠ b) (h : ¬ a.before b = true) : b.before a = true := by
  obtain ⟨⟨a⟩⟩ | ⟨⟨a⟩⟩ := a <;> obtain ⟨⟨b⟩⟩ | ⟨⟨b⟩⟩ := b <;> simp_all [before] <;> omega

end Domain

namespace EffectMap

/-- The effect is noted on the domain, among entries. -/
def NotedIn (entries : List (Domain × EffectSet)) (d : Domain) (e : Effect) : Prop := ∃ s, (d, s) ∈ entries ∧ e ∈ s

/-- The map has the effect on the domain. -/
def Notes (m : EffectMap) (d : Domain) (e : Effect) : Prop := NotedIn m.entries d e

theorem mem_domainsWith (m : EffectMap) (test : Operation → Bool) (d : Domain) :
    d ∈ m.domainsWith test ↔ ∃ e, m.Notes d e ∧ test e.operation = true := by
  unfold domainsWith Notes NotedIn
  simp only [mem_map, mem_filter, Prod.exists, any_eq_true]
  constructor
  · rintro ⟨d', s, ⟨hs, e, he, ht⟩, rfl⟩
    exact ⟨e, ⟨s, hs, he⟩, ht⟩
  · rintro ⟨e, ⟨s, hs, he⟩, ht⟩
    exact ⟨d, s, ⟨hs, e, he, ht⟩, rfl⟩

theorem notedIn_cons (p : Domain × EffectSet) (entries : List (Domain × EffectSet)) (d : Domain) (e : Effect) :
    NotedIn (p :: entries) d e ↔ (d = p.1 ∧ e ∈ p.2) ∨ NotedIn entries d e := by
  obtain ⟨d', s'⟩ := p
  unfold NotedIn
  simp only [mem_cons, Prod.mk.injEq, or_and_right, exists_or]
  refine or_congr ⟨?_, ?_⟩ Iff.rfl
  · rintro ⟨s, ⟨rfl, rfl⟩, h⟩
    exact ⟨rfl, h⟩
  · rintro ⟨rfl, h⟩
    exact ⟨s', ⟨rfl, rfl⟩, h⟩

theorem notedIn_addTo (d : Domain) (effects : EffectSet) (d' : Domain) (e : Effect) :
    ∀ entries, NotedIn (addTo d effects entries) d' e ↔ NotedIn entries d' e ∨ (d' = d ∧ e ∈ effects)
  | [] => by
    rw [addTo, notedIn_cons, mem_union]
    simp [NotedIn]
  | (k, s) :: rest => by
    rw [addTo]
    by_cases hk : d = k
    · subst hk
      simp only [if_true, notedIn_cons, mem_union]
      tauto
    · simp only [hk, if_false]
      by_cases hb : d.before k
      · simp only [hb, if_true, notedIn_cons, mem_union, not_mem_nil]
        tauto
      · simp only [hb, Bool.false_eq_true, if_false, notedIn_cons, notedIn_addTo d effects d' e rest]
        tauto

theorem notes_add (m : EffectMap) (d d' : Domain) (operation : Operation) (isLocal : Bool) (e : Effect) :
    (m.add d operation isLocal).Notes d' e ↔ m.Notes d' e ∨ (d' = d ∧ e = ⟨operation, isLocal⟩) := by
  unfold Notes
  rw [add, notedIn_addTo, mem_singleton]

/-- Adding an effect adds its domain. -/
theorem mem_domainsWith_add (m : EffectMap) (d d' : Domain) (operation : Operation) (isLocal : Bool)
    (test : Operation → Bool) :
    d' ∈ (m.add d operation isLocal).domainsWith test ↔ d' ∈ m.domainsWith test ∨ (d' = d ∧ test operation = true) := by
  simp only [mem_domainsWith, notes_add, or_and_right, exists_or]
  refine or_congr Iff.rfl ⟨?_, ?_⟩
  · rintro ⟨e, ⟨hd, rfl⟩, ht⟩
    exact ⟨hd, ht⟩
  · rintro ⟨hd, ht⟩
    exact ⟨⟨operation, isLocal⟩, ⟨hd, rfl⟩, ht⟩

theorem notes_normalize (m : EffectMap) (d : Domain) (e : Effect) :
    m.normalize.Notes d e ↔ ∃ s, (d, s) ∈ m.entries ∧ e ∈ s.normalize := by
  unfold Notes normalize NotedIn
  simp only [mem_map, Prod.exists, Prod.mk.injEq]
  constructor
  · rintro ⟨_, ⟨d', s, hs, rfl, rfl⟩, he⟩
    exact ⟨s, hs, he⟩
  · rintro ⟨s, hs, he⟩
    exact ⟨_, ⟨d, s, hs, rfl, rfl⟩, he⟩

theorem notes_normalize_nonlocal (m : EffectMap) (d : Domain) (operation : Operation) :
    m.normalize.Notes d ⟨operation, false⟩ ↔ m.Notes d ⟨operation, false⟩ := by
  rw [notes_normalize]
  exact exists_congr fun s => and_congr_right fun _ => mem_normalize_nonlocal s operation

theorem domainsWith_normalize (m : EffectMap) (test : Operation → Bool) : m.normalize.domainsWith test = m.domainsWith test := by
  unfold domainsWith normalize
  rw [filter_map, map_map]
  congr 1
  exact filter_congr fun p _ => any_normalize p.2 test

theorem mem_domainsWith_normalize (m : EffectMap) (test : Operation → Bool) (d : Domain) :
    d ∈ m.normalize.domainsWith test ↔ d ∈ m.domainsWith test := by
  rw [domainsWith_normalize]

/-! ## Looking effects up -/

/-- The domains are in order, so each has one entry. -/
def Ordered (m : EffectMap) : Prop := m.entries.Pairwise fun p q => p.1.before q.1 = true

/-- The entries after an addition: old ones, and the one of the domain. -/
theorem mem_addTo :
    ∀ {entries : List (Domain × EffectSet)}, p ∈ addTo d effects entries → p ∈ entries ∨ ∃ s, p = (d, EffectSet.union s effects)
  | [], h => .inr ⟨[], mem_singleton.1 h⟩
  | (k, s) :: rest, h => by
    rw [addTo] at h
    split at h
    · rename_i hk
      rcases mem_cons.1 h with rfl | h
      · exact .inr ⟨s, by rw [hk]⟩
      · exact .inl (mem_cons_of_mem _ h)
    · split at h
      · rcases mem_cons.1 h with rfl | h
        · exact .inr ⟨[], rfl⟩
        · exact .inl h
      · rcases mem_cons.1 h with rfl | h
        · exact .inl mem_cons_self
        · exact (mem_addTo h).imp_left (mem_cons_of_mem _)

theorem pairwise_addTo (d : Domain) (effects : EffectSet) : ∀ {entries : List (Domain × EffectSet)},
    entries.Pairwise (fun p q => p.1.before q.1 = true) → (addTo d effects entries).Pairwise fun p q => p.1.before q.1 = true
  | [], _ => by
    exact pairwise_singleton _ _
  | (k, s) :: rest, h => by
    obtain ⟨hfirst, hrest⟩ := pairwise_cons.1 h
    rw [addTo]
    split
    · exact pairwise_cons.2 ⟨hfirst, hrest⟩
    · rename_i hne
      split
      · rename_i hbefore
        refine pairwise_cons.2 ⟨fun q hq => ?_, h⟩
        rcases mem_cons.1 hq with rfl | hq
        · exact hbefore
        · exact Domain.before_trans hbefore (hfirst q hq)
      · rename_i hnot
        refine pairwise_cons.2 ⟨fun q hq => ?_, pairwise_addTo d effects hrest⟩
        rcases mem_addTo hq with hq | ⟨_, rfl⟩
        · exact hfirst q hq
        · exact Domain.before_of_not_before hne hnot

variable {m : EffectMap}

theorem Ordered.add (h : m.Ordered) (d : Domain) (operation : Operation) (isLocal : Bool) :
    (m.add d operation isLocal).Ordered :=
  pairwise_addTo d [⟨operation, isLocal⟩] h

theorem Ordered.normalize (h : m.Ordered) : m.normalize.Ordered := by
  exact pairwise_map.2 h

theorem lookup_of_mem : ∀ {entries : List (Domain × EffectSet)},
    entries.Pairwise (fun p q => p.1.before q.1 = true) → (d, s) ∈ entries → List.lookup d entries = some s
  | (k, s') :: rest, hordered, h => by
    obtain ⟨hfirst, hrest⟩ := pairwise_cons.1 hordered
    rcases mem_cons.1 h with heq | hmem
    · cases heq
      exact lookup_cons_self
    · have hne : (d == k) = false := by
        rw [beq_eq_false_iff_ne]
        rintro rfl
        have hself := hfirst _ hmem
        rw [Domain.before_irrefl] at hself
        cases hself
      rw [lookup_cons, hne]
      exact lookup_of_mem hrest hmem

/-- Where the domains are in order, the map answers what it has. -/
theorem Ordered.contains (h : m.Ordered) (hnotes : m.Notes d ⟨operation, isLocal⟩) : m.contains d operation isLocal = true := by
  obtain ⟨s, hs, he⟩ := hnotes
  unfold EffectMap.contains effectsOn
  rw [lookup_of_mem h hs]
  exact contains_iff_mem.2 he

end EffectMap

namespace Analysis

/-! ## Reading -/

/-- The bindings are the same, and so are the written domains. -/
structure Reads (a b : Analysis) : Prop where
  types : b.types = a.types
  locals : b.locals = a.locals
  writes : ∀ d, d ∈ b.effects.writes ↔ d ∈ a.effects.writes

instance : StepOrder Reads where
  refl _ := ⟨rfl, rfl, fun _ => Iff.rfl⟩
  trans h h' := ⟨h'.types.trans h.types, h'.locals.trans h.locals, fun d => (h'.writes d).trans (h.writes d)⟩

/-- The written domains are the same. -/
def SameWrites (a b : Analysis) : Prop := ∀ d, d ∈ b.effects.writes ↔ d ∈ a.effects.writes

instance : StepOrder SameWrites where
  refl _ _ := Iff.rfl
  trans h h' d := (h' d).trans (h d)

/-- No effect is forgotten, and the domains stay in order. -/
structure More (a b : Analysis) : Prop where
  notes : ∀ d e, a.effects.Notes d e → b.effects.Notes d e
  ordered : a.effects.Ordered → b.effects.Ordered

variable {a b : Analysis} {body : Analyze Unit}

theorem More.of_effects (h : b.effects = a.effects) : More a b where
  notes _ _ he := h ▸ he
  ordered ho := h ▸ ho

theorem More.domainsWith (h : More a b) (hd : d ∈ a.effects.domainsWith test) : d ∈ b.effects.domainsWith test := by
  rw [mem_domainsWith] at hd ⊢
  obtain ⟨e, he, ht⟩ := hd
  exact ⟨e, h.notes d e he, ht⟩

instance : StepOrder More where
  refl _ := .of_effects rfl
  trans h h' := ⟨fun d e he => h'.notes d e (h.notes d e he), fun ho => h'.ordered (h.ordered ho)⟩

theorem writes_note_read (a : Analysis) (d d' : Domain) (isLocal : Bool) :
    d' ∈ (a.effects.add d .read isLocal).writes ↔ d' ∈ a.effects.writes := by
  unfold EffectMap.writes
  rw [mem_domainsWith_add]
  simp

theorem reads_note (d : Domain) (isLocal : Bool) : Keeps Reads (note d .read isLocal) :=
  .modify fun a => ⟨rfl, rfl, fun d' => writes_note_read a d d' isLocal⟩

theorem more_note (d : Domain) (operation : Operation) (isLocal : Bool) : Keeps More (note d operation isLocal) :=
  .modify fun a => ⟨fun d' e he => (notes_add a.effects d d' operation isLocal e).2 (.inl he),
    fun ho => ho.add d operation isLocal⟩

theorem notes_note (h : note d operation isLocal a = .ok ((), b)) : b.effects.Notes d ⟨operation, isLocal⟩ := by
  cases modify_ok.1 h
  exact (notes_add a.effects d d operation isLocal _).2 (.inr ⟨rfl, rfl⟩)

theorem notes_forM {α : Type} {d : α → Domain} :
    ∀ {xs : List α} {a b : Analysis}, xs.forM (fun x => note (d x) operation isLocal) a = .ok ((), b) →
      ∀ x ∈ xs, b.effects.Notes (d x) ⟨operation, isLocal⟩
  | [], _, _, _, x, hx => by cases hx
  | y :: ys, a, b, h, x, hx => by
    obtain ⟨a1, h1, h2⟩ := forM_cons_ok.1 h
    rcases mem_cons.1 hx with rfl | hx
    · exact ((Keeps.forM (fun y => more_note (d y) operation isLocal) ys).of_ok h2).notes _ _ (notes_note h1)
    · exact notes_forM h2 x hx

theorem more_bind (name : String) (type : ObjType) (isLocal : Bool) : Keeps More (bind name type isLocal) :=
  .modify fun _ => .of_effects rfl

theorem sameWrites_bind (name : String) (type : ObjType) (isLocal : Bool) : Keeps SameWrites (bind name type isLocal) :=
  .modify fun _ _ => Iff.rfl

theorem typeOf_ok : typeOf store e a = .ok p ↔ ∃ t, infer store a.types e = .ok t ∧ p = (t, a) := by
  unfold typeOf
  rw [get_bind, lift_ok]

theorem typeOfBind_ok {α : Type} {f : ObjType → Analyze α} {p : α × Analysis} :
    (typeOf store e >>= f) a = .ok p ↔ ∃ t, infer store a.types e = .ok t ∧ f t a = .ok p := by
  simp [bind_ok, typeOf_ok]

/-! ## Properties that steps of the analysis hand on -/

/-- A property of steps that reading has, if it is handed on to sequences and noting a read of something declared has it. -/
structure Reading (store : Store) (P : ∀ {α : Type}, Analyze α → Prop) : Prop where
  pure : ∀ {α : Type} (a : α), P (Pure.pure a : Analyze α)
  bind : ∀ {α β : Type} {x : Analyze α} {f : α → Analyze β}, P x → (∀ a, P (f a)) → P (x >>= f)
  resolve : ∀ {α : Type} {name : String} {f : ClassId → Analyze α}, (∀ c, c.index < store.graph.size → P (f c)) →
    P (liftM (store.graph.resolve name) >>= f)
  relationOn : ∀ {α : Type} {s : Signature} {name : String} {f : Relation → Analyze α}, (∀ r ∈ store.relations, P (f r)) →
    P (liftM (store.relationOn s name) >>= f)
  typeOf : ∀ e, P (Analysis.typeOf store e)
  localityOf : ∀ name, P (Analysis.localityOf name)
  read : ∀ d l, d.Declared store → P (note d .read l)

/-- A property of steps that the whole analysis has: looking at the state, noting effects and binding variables have it too. -/
structure Walking (store : Store) (P : ∀ {α : Type}, Analyze α → Prop) : Prop extends Reading store P where
  get : P (get : Analyze Analysis)
  note : ∀ d operation l, P (Analysis.note d operation l)
  bindName : ∀ name t l, P (Analysis.bind name t l)
  rebind : ∀ types locals, P (modify fun a : Analysis => { a with types, locals })

namespace Reading

variable {store : Store} {P : ∀ {α : Type}, Analyze α → Prop} (h : Reading store P)
include h

theorem readSets {es : List ObjExpr} (hes : ∀ e ∈ es, P (readSet store inFormula e)) : P (readSets store inFormula es) := by
  induction es with
  | nil => exact h.pure _
  | cons e rest ih =>
    obtain ⟨he, hrest⟩ := forall_mem_cons.1 hes
    exact h.bind he fun _ => h.bind (ih hrest) fun _ => h.pure _

theorem readSet (inFormula : Bool) (e : ObjExpr) : P (readSet store inFormula e) := by
  induction e with
  | allOf _ => exact h.resolve fun c hc => h.bind (h.read _ _ hc) fun _ => h.pure _
  | var name | iterator name => exact h.localityOf name
  | subset source ih | oneOf source ih => exact ih
  | union parts ih => exact h.readSets ih
  | deref source _ ih =>
    refine h.bind ih fun _ => h.bind (h.typeOf source) fun _ => h.relationOn fun r hr => ?_
    exact h.bind (h.read _ _ ⟨r, hr, rfl⟩) fun _ => h.pure _

theorem bindQuantified (hbind : ∀ name t l, P (Analysis.bind name t l)) : ∀ vars : List QuantVar, P (bindQuantified store vars)
  | [] => h.pure _
  | v :: rest => h.bind (h.readSet true v.domain) fun _ => h.bind (h.typeOf v.domain) fun _ =>
      h.bind (hbind _ _ _) fun _ => bindQuantified hbind rest

theorem readFormulas {fs : List FormulaExpr} (hfs : ∀ f ∈ fs, P (readFormula store f)) : P (readFormulas store fs) := by
  induction fs with
  | nil => exact h.pure _
  | cons f rest ih =>
    obtain ⟨hf, hrest⟩ := forall_mem_cons.1 hfs
    exact h.bind hf fun _ => ih hrest

/-- Formulas are read with the property if quantifiers are. -/
theorem readFormula (hquant : ∀ (vars : List QuantVar) (body : Analyze Unit), P body → P (readQuantifier store vars body))
    (f : FormulaExpr) : P (readFormula store f) := by
  induction f with
  | literal => exact h.pure _
  | not f ih => exact ih
  | and parts ih | or parts ih | equiv parts ih => exact h.readFormulas ih
  | implies premise conclusion ihp ihc => exact h.bind ihp fun _ => ihc
  | equal sets => exact h.bind (h.readSets fun e _ => h.readSet true e) fun _ => h.pure _
  | isIn set within => exact h.bind (h.readSet true set) fun _ => h.bind (h.readSet true within) fun _ => h.pure _
  | isEmpty set => exact h.bind (h.readSet true set) fun _ => h.pure _
  | forAll vars body ih | forSome vars body ih => exact hquant vars _ ih

end Reading

namespace Walking

variable {store : Store} {P : ∀ {α : Type}, Analyze α → Prop} (h : Walking store P)
include h

theorem readQuantifier (vars : List QuantVar) (body : Analyze Unit) (hbody : P body) : P (readQuantifier store vars body) :=
  h.bind h.get fun _ => h.bind (h.bindQuantified h.bindName vars) fun _ => h.bind hbody fun _ => h.rebind _ _

theorem notes {α : Type} (d : α → Domain) (operation : Operation) (l : Bool) : ∀ xs : List α,
    P (xs.forM fun x => Analysis.note (d x) operation l)
  | [] => h.pure _
  | _ :: rest => h.bind (h.note _ _ _) fun _ => notes d operation l rest

theorem runPaths (entry : Analysis) : ∀ paths : List (Analyze Unit), (∀ p ∈ paths, P p) → P (runPaths entry paths)
  | [], _ => h.pure _
  | p :: rest, hpaths => h.bind (h.rebind _ _) fun _ => h.bind (hpaths p mem_cons_self) fun _ => h.bind h.get fun _ =>
      h.bind (runPaths entry rest fun q hq => hpaths q (mem_cons_of_mem _ hq)) fun _ => h.pure _

theorem alternatives (paths : List (Analyze Unit)) (hpaths : ∀ p ∈ paths, P p) : P (alternatives store paths) :=
  h.bind h.get fun _ => h.bind (h.runPaths _ paths hpaths) fun _ => h.rebind _ _

theorem deleteObjects (objects : ObjExpr) : P (deleteObjects store objects) :=
  h.bind (h.readSet false objects) fun _ => h.bind (h.typeOf objects) fun _ =>
    h.bind (h.notes .ofClass _ _ _) fun _ => h.notes (fun r : Relation => .ofRelation r.id) _ _ _

theorem updateTuples (source : ObjExpr) (relation : String) (target : ObjExpr) (operation : Operation) :
    P (updateTuples store source relation target operation) :=
  h.bind (h.readSet false source) fun _ => h.bind (h.readSet false target) fun _ =>
    h.bind (h.typeOf source) fun _ => h.relationOn fun _ _ => h.note _ _ _

theorem carryOut (inner : Analysis) (name : String) : P (carryOut store inner name) := by
  refine h.bind h.get fun outer => ?_
  split
  · exact h.bindName _ _ _
  · exact h.pure _

theorem carryOuts (inner : Analysis) : ∀ names : List String, P (names.forM (Analysis.carryOut store inner))
  | [] => h.pure _
  | _ :: rest => h.bind (h.carryOut inner _) fun _ => carryOuts inner rest

theorem loop (var : String) (domain : ObjExpr) (assigned : List String) (order : LoopKind) (hbody : P body) :
    P (loop store var domain assigned order body) := by
  refine h.bind (h.readSet false domain) fun _ => h.bind (h.typeOf domain) fun _ => h.bind h.get fun _ =>
    h.bind (h.bindName _ _ _) fun _ => h.bind hbody fun _ => h.bind h.get fun inner => h.bind (h.rebind _ _) fun _ => ?_
  cases order with
  | flat => exact h.pure _
  | chained => exact h.carryOuts inner _

end Walking

mutual

/-- Every statement is analysed with the property. -/
theorem Walking.runStatement (h : Walking store P) : ∀ s : Statement, P (runStatement store s)
  | .assign _ value => by
    exact h.bind (h.readSet false value) fun _ => h.bind (h.typeOf value) fun _ => h.bindName _ _ _
  | .create _ var => by
    refine h.resolve fun _ _ => h.bind (h.note _ _ _) fun _ => ?_
    cases var with
    | none => exact h.pure _
    | some name => exact h.bindName _ _ _
  | .delete objects => by rw [Analysis.runStatement]; exact h.deleteObjects objects
  | .createTuple source relation target | .deleteTuple source relation target => by
    rw [Analysis.runStatement]
    exact h.updateTuples source relation target _
  | .ifElse condition thenBlock elseBlock => by
    refine h.bind (h.readFormula h.readQuantifier condition) fun _ => h.alternatives _ (forall_mem_cons.2 ⟨?_, ?_⟩)
    · exact h.runBlock thenBlock
    · exact forall_mem_singleton.2 (h.runBlock elseBlock)
  | .either branches => by rw [Analysis.runStatement]; exact h.alternatives _ (h.runEach branches)
  | .forEach var domain body order => by exact h.loop var domain (Block.assigned body) order (h.runBlock body)

theorem Walking.runBlock (h : Walking store P) : ∀ b : List Statement, P (runBlock store b)
  | [] => by rw [Analysis.runBlock]; exact h.pure _
  | s :: rest => by exact h.bind (h.runStatement s) fun _ => h.runBlock rest

theorem Walking.runEach (h : Walking store P) : ∀ (bs : List (List Statement)), ∀ p ∈ runEach store bs, P p
  | [], p, hp => by
    cases hp
  | b :: rest, p, hp => by
    rcases mem_cons.1 hp with rfl | hp
    · exact h.runBlock b
    · exact h.runEach rest p hp

end

/-! ## Reading keeps the bindings, and no effect is forgotten -/

/-- A relation between the states is handed on if noting a read of something declared keeps it. -/
theorem reading_keeps {R : Analysis → Analysis → Prop} [StepOrder R] (hnote : ∀ d l, d.Declared store → Keeps R (note d .read l)) :
    Reading store (Keeps R) where
  pure := .pure
  bind := .bind
  resolve hf := .liftBind fun c hc => hf c (ClassGraph.resolveIn_lt hc)
  relationOn hf := .liftBind fun r hr => hf r (Store.relationOn_ok hr).1
  typeOf _ := .bind .get fun _ => .lift _
  localityOf name := by
    refine .bind .get fun a => ?_
    split
    · exact .pure _
    · exact .throw _
  read := hnote

theorem walking_more (store : Store) : Walking store (Keeps More) where
  toReading := reading_keeps fun d l _ => more_note d .read l
  get := .get
  note := more_note
  bindName := more_bind
  rebind _ _ := .modify fun _ => .of_effects rfl

theorem reading_reads : Reading store (Keeps Reads) := reading_keeps fun d l _ => reads_note d l

theorem reads_readSet (store : Store) (inFormula : Bool) (e : ObjExpr) : Keeps Reads (readSet store inFormula e) :=
  reading_reads.readSet inFormula e

theorem more_readSet (store : Store) (inFormula : Bool) (e : ObjExpr) : Keeps More (readSet store inFormula e) :=
  (walking_more store).readSet inFormula e

theorem readSet_allOf_ok (h : readSet store inFormula (.allOf className) a = .ok (isLocal, b)) :
    isLocal = false ∧ ∃ c, store.graph.resolve className = .ok c ∧ note (.ofClass c) .read false a = .ok ((), b) := by
  obtain ⟨c, hc, h⟩ := liftBind_ok.1 h
  obtain ⟨⟨⟩, a2, h2, h⟩ := bind_ok.1 h
  cases pure_ok.1 h
  exact ⟨rfl, c, hc, h2⟩

/-- Following a relation reads the source, which has a type there, and then the relation that the name stands for. -/
theorem readSet_deref_ok {source : ObjExpr} {relation : String}
    (h : readSet store inFormula (.deref source relation) a = .ok (isLocal, b)) :
    ∃ a1 t r, readSet store inFormula source a = .ok (isLocal, a1) ∧ infer store a.types source = .ok t ∧
      store.relationOn t.signature relation = .ok r ∧
      note (.ofRelation r.base) .read (isLocal && !inFormula) a1 = .ok ((), b) := by
  obtain ⟨l, a1, h1, h⟩ := bind_ok.1 h
  obtain ⟨t, ht, h⟩ := typeOfBind_ok.1 h
  obtain ⟨r, hr, h⟩ := liftBind_ok.1 h
  obtain ⟨⟨⟩, a4, h4, h⟩ := bind_ok.1 h
  cases pure_ok.1 h
  exact ⟨a1, t, r, h1, ((reads_readSet store inFormula source).of_ok h1).types ▸ ht, hr, h4⟩

theorem readSets_cons_ok (h : readSets store inFormula (e :: es) a = .ok (isLocal, b)) :
    ∃ first others a1, readSet store inFormula e a = .ok (first, a1) ∧ readSets store inFormula es a1 = .ok (others, b) ∧
      isLocal = (first && others) ∧ Reads a a1 ∧ More a1 b := by
  obtain ⟨first, a1, h1, h⟩ := bind_ok.1 h
  obtain ⟨others, a2, h2, h⟩ := bind_ok.1 h
  cases pure_ok.1 h
  exact ⟨first, others, a1, h1, h2, rfl, (reads_readSet store inFormula e).of_ok h1,
    ((walking_more store).readSets fun e _ => more_readSet store inFormula e).of_ok h2⟩

/-- A quantifier's variables are bound in its body only. -/
theorem reads_readQuantifier (store : Store) (vars : List QuantVar) (body : Analyze Unit) (h : Keeps Reads body) :
    Keeps Reads (readQuantifier store vars body) := by
  intro a u c hc
  unfold readQuantifier at hc
  rw [get_bind, bind_ok] at hc
  obtain ⟨⟨⟩, a1, h1, hc⟩ := hc
  obtain ⟨⟨⟩, a2, h2, hc⟩ := bind_ok.1 hc
  cases modify_ok.1 hc
  have hnote : ∀ d l, Keeps SameWrites (note d .read l) := fun d l _ _ _ hn => ((reads_note d l).of_ok hn).writes
  have w1 : SameWrites a a1 := ((reading_keeps fun d l _ => hnote d l).bindQuantified sameWrites_bind vars).of_ok h1
  have w2 : SameWrites a1 a2 := (h.of_ok h2).writes
  exact ⟨rfl, rfl, fun d => (w2 d).trans (w1 d)⟩

theorem reads_readFormula (store : Store) (f : FormulaExpr) : Keeps Reads (readFormula store f) :=
  reading_reads.readFormula (reads_readQuantifier store) f

theorem more_readFormula (store : Store) (f : FormulaExpr) : Keeps More (readFormula store f) :=
  (walking_more store).readFormula (walking_more store).readQuantifier f

/-- The first of several formulas leaves the bindings as they are, and the others forget no effect. -/
theorem readFormulas_cons_ok (h : readFormulas store (f :: fs) a = .ok ((), b)) :
    ∃ a1, readFormula store f a = .ok ((), a1) ∧ readFormulas store fs a1 = .ok ((), b) ∧ a1.types = a.types ∧ More a1 b := by
  obtain ⟨⟨⟩, a1, h1, h2⟩ := bind_ok.1 h
  exact ⟨a1, h1, h2, ((reads_readFormula store f).of_ok h1).types,
    ((walking_more store).readFormulas fun f _ => more_readFormula store f).of_ok h2⟩

/-! ## Quantifiers and loops -/

/-- What a quantifier does: its variables are bound, its body is read, and the bindings are put back. -/
theorem readQuantifier_ok (h : readQuantifier store qs body a = .ok ((), b)) :
    ∃ a1 a2, bindQuantified store qs a = .ok ((), a1) ∧ body a1 = .ok ((), a2) ∧
      b = { a2 with types := a.types, locals := a.locals } := by
  unfold readQuantifier at h
  rw [get_bind, bind_ok] at h
  obtain ⟨⟨⟩, a1, h1, h⟩ := h
  obtain ⟨⟨⟩, a2, h2, h⟩ := bind_ok.1 h
  cases modify_ok.1 h
  exact ⟨a1, a2, h1, h2, rfl⟩

/-- The bindings at the start of a loop's body. -/
def enterLoop (var : String) (t : ObjType) (l : Bool) (a : Analysis) : Analysis :=
  { a with types := a.types.insert var t.single, locals := a.locals.insert var l }

/-- The bindings in front of a loop, with the effects of its body. -/
def leaveLoop (before inner : Analysis) : Analysis := { inner with types := before.types, locals := before.locals }

/-- What a loop does: its domain is read, its body runs once, and then a chained loop carries variables out. -/
theorem loop_ok {var : String} {domain : ObjExpr} {assigned : List String}
    (h : loop store var domain assigned order body a = .ok ((), c)) :
    ∃ l before t inner, readSet store false domain a = .ok (l, before) ∧ infer store before.types domain = .ok t ∧
      body (enterLoop var t l before) = .ok ((), inner) ∧ (order = .flat → c = leaveLoop before inner) ∧
      (order = .chained → assigned.eraseDups.forM (carryOut store inner) (leaveLoop before inner) = .ok ((), c)) := by
  obtain ⟨l, before, h1, h⟩ := bind_ok.1 h
  obtain ⟨t, ht, h⟩ := typeOfBind_ok.1 h
  rw [get_bind, bind_ok] at h
  obtain ⟨⟨⟩, b2, h3, h⟩ := h
  cases modify_ok.1 h3
  obtain ⟨⟨⟩, inner, h4, h⟩ := bind_ok.1 h
  refine ⟨l, before, t, inner, h1, ht, h4, ?_, ?_⟩
  · rintro rfl
    exact congrArg Prod.snd (pure_ok.1 h)
  · rintro rfl
    exact h

/-- What the body of a loop has noted is still noted after the loop. -/
theorem more_afterLoop {inner : Analysis} {names : List String} {order : LoopKind}
    (hflat : order = .flat → c = leaveLoop before inner)
    (hchained : order = .chained → names.forM (carryOut store inner) (leaveLoop before inner) = .ok ((), c)) : More inner c := by
  have hleave : More inner (leaveLoop before inner) := .of_effects rfl
  cases order with
  | flat => exact hflat rfl ▸ hleave
  | chained => exact StepOrder.trans hleave ((Keeps.forM ((walking_more store).carryOut inner) names).of_ok (hchained rfl))

end Analysis

end StoreCheck
