import Mathlib.Data.Set.Lattice
import StoreCheck.Proofs.Flow
import StoreCheck.Proofs.Induction
import StoreCheck.Proofs.World

/-!
# Executions of actions

`Statement.Executes` says what a statement may do to a concrete store and to the variables. All that is left open by a statement
is decided by choices: the parts that expressions take of sets, the truth values of `unknown`, the block of an `either`, the new
object of a creation and the order of a chained loop. With the same choices a statement does the same
(`Block.executes_unique`).

A created object has never existed before, so an execution also remembers all objects that have existed.
-/

namespace StoreCheck

open Block

variable {hand : Handover} {store : Store} {types : TypeEnv} {b : List Statement}

variable {U : Universe}

/-! ## Changes of the store -/

/-- The pair leads from the first set to the second one along the relation; pairs are those of the base relation. -/
def Relation.Spans (r : Relation) (X Y : Set U.Obj) (a b : U.Obj) : Prop := if r.flipped then b ∈ X ∧ a ∈ Y else a ∈ X ∧ b ∈ Y

namespace State

/-- One more object exists. -/
def add (st : State U) (o : U.Obj) : State U := { st with alive := fun a => st.alive a ∨ a = o }

/-- The objects cease to exist, and so does every tuple that touches one. -/
def without (st : State U) (X : Set U.Obj) : State U where
  alive o := st.alive o ∧ o ∉ X
  linked id a b := st.linked id a b ∧ a ∉ X ∧ b ∉ X

/-- The objects of two sets are related: those that exist and belong to the classes of the base relation. -/
def relate (st : State U) (r base : Relation) (X Y : Set U.Obj) : State U where
  alive := st.alive
  linked id a b := st.linked id a b ∨
    id = base.id ∧ r.Spans X Y a b ∧ (st.alive a ∧ U.isOf base.source a) ∧ st.alive b ∧ U.isOf base.target b

/-- The objects of two sets cease to be related. -/
def unrelate (st : State U) (r : Relation) (X Y : Set U.Obj) : State U where
  alive := st.alive
  linked id a b := st.linked id a b ∧ ¬ (id = r.base ∧ r.Spans X Y a b)

/-- The results of independent iterations are merged: what existed stays if all of them keep it, and what did not is there if one
of them makes it. -/
def merge (st : State U) (X : Set U.Obj) (ends : U.Obj → State U) : State U where
  alive o := (st.alive o ∧ ∀ x ∈ X, (ends x).alive o) ∨ (¬ st.alive o ∧ ∃ x ∈ X, (ends x).alive o)
  linked id a b := (st.linked id a b ∧ ∀ x ∈ X, (ends x).linked id a b) ∨
    (¬ st.linked id a b ∧ ∃ x ∈ X, (ends x).linked id a b)

end State

/-! ## Situations and choices -/

/-- What an execution is at: the store, the values of the variables, and all objects that have existed. -/
@[ext]
structure Situation (U : Universe) where
  state : State U
  vars : Vars U
  used : Set U.Obj

/-- The free choices of an execution. -/
inductive Choices (U : Universe) where
  | none
  /-- The parts of sets that expressions take, in the order of evaluation. -/
  | sets (parts : List (Set U.Obj))
  /-- The object that is created. -/
  | object (o : U.Obj)
  /-- The condition with its unknown truth values decided, and the choices of both blocks. -/
  | condition (decided : FormulaExpr) (first second : Choices U)
  /-- The block of an `either`, and its choices. -/
  | block (i : Nat) (inner : Choices U)
  /-- The domain of a loop, the order of its iterations, and the choices of each. -/
  | loop (parts : List (Set U.Obj)) (order : List U.Obj) (inner : U.Obj → Choices U)
  | seq (first rest : Choices U)

namespace ObjExpr

mutual

/-- The expression denotes the set, with the first ones of the given parts as its free choices; the others are left. -/
def Evaluates (store : Store) (types : TypeEnv) (st : State U) (vars : Vars U) :
    ObjExpr → List (Set U.Obj) → Set U.Obj → List (Set U.Obj) → Prop
  | .allOf className, parts, X, rest => rest = parts ∧ ∃ c, store.graph.resolve className = .ok c ∧ X = st.ofClass c
  | .var name, parts, X, rest => rest = parts ∧ X = vars name
  | .iterator name, parts, X, rest => rest = parts ∧ X = vars name
  | .subset source, parts, X, rest => ∃ Y, source.Evaluates store types st vars parts Y (X :: rest) ∧ X ⊆ Y
  | .oneOf source, parts, X, rest => ∃ Y, source.Evaluates store types st vars parts Y (X :: rest) ∧ Picks Y X
  | .union sources, parts, X, rest =>
    ∃ Xs, EvaluateAll store types st vars sources parts Xs rest ∧ X = {o | ∃ Y ∈ Xs, o ∈ Y}
  | .deref source relation, parts, X, rest => ∃ Y t r, source.Evaluates store types st vars parts Y rest ∧
      infer store types source = .ok t ∧ store.relationOn t.signature relation = .ok r ∧ X = st.targets r Y

/-- The expressions denote the sets, one each. -/
def EvaluateAll (store : Store) (types : TypeEnv) (st : State U) (vars : Vars U) :
    List ObjExpr → List (Set U.Obj) → List (Set U.Obj) → List (Set U.Obj) → Prop
  | [], parts, Xs, rest => rest = parts ∧ Xs = []
  | e :: es, parts, Xs, rest => ∃ X Ys mid, Xs = X :: Ys ∧ e.Evaluates store types st vars parts X mid ∧
      EvaluateAll store types st vars es mid Ys rest

end

end ObjExpr

/-! ## Executions -/

/-- Which of the outer variables that its body assigns an iteration of a chained loop finds as the iteration before left them: all
of them, or those that the body reads first; it finds the others as they were before the loop. -/
inductive Handover where
  | all
  | readFirst
  deriving DecidableEq

/-- The values that an iteration starts with, given those before the loop and those that the iteration before left. -/
def Handover.start (hand : Handover) (body : Block) (before vars : Vars U) : Vars U := fun y =>
  match hand with
  | .all => vars y
  | .readFirst => if y ∈ Block.readBeforeWrite body then vars y else before y

/-- The values after an iteration: those of the outer variables that the body assigns are kept. -/
def Vars.leave (carried : List String) (before vars : Vars U) : Vars U := fun y => if y ∈ carried then vars y else before y

/-- The steps are taken one after another. -/
def Chain (step : U.Obj → Situation U → Situation U → Prop) : List U.Obj → Situation U → Situation U → Prop
  | [], c, c' => c' = c
  | x :: rest, c, c' => ∃ d, step x c d ∧ Chain step rest d c'

namespace Situation

/-- The situation at the start of an iteration. -/
def enter (c : Situation U) (var : String) (x : U.Obj) : Situation U := { c with vars := c.vars.set var {x} }

/-- The objects that have been created since. -/
def made (c c' : Situation U) : Set U.Obj := c'.used \ c.used

/-- Independent iterations are merged; the variables are as before. -/
def merge (c : Situation U) (X : Set U.Obj) (ends : U.Obj → Situation U) : Situation U where
  state := c.state.merge X fun x => (ends x).state
  vars := c.vars
  used := c.used ∪ {o | ∃ x ∈ X, o ∈ (ends x).used}

/-- One object of a class is created; it belongs to the class and its ancestors, and to no other class. -/
structure Creates (store : Store) (c : Situation U) (cls : ClassId) (o : U.Obj) : Prop where
  fresh : o ∉ c.used
  isOf : ∀ d, U.isOf d o ↔ d = cls ∨ d ∈ store.graph.ancestorsOf cls

/-- The situation after a creation. -/
def create (c : Situation U) (var : Option String) (o : U.Obj) : Situation U where
  state := c.state.add o
  vars := match var with
    | some name => c.vars.set name {o}
    | none => c.vars
  used := insert o c.used

/-- The iterations make different objects. -/
def Apart (c : Situation U) (X : Set U.Obj) (ends : U.Obj → Situation U) : Prop :=
  ∀ x ∈ X, ∀ y ∈ X, x ≠ y → ∀ o ∈ c.made (ends x), o ∉ c.made (ends y)

end Situation

section

variable (store : Store) (hand : Handover)

/-- Both ends of an update of tuples, and the relations that it is about. -/
structure UpdateSets (types : TypeEnv) (c : Situation U) (source : ObjExpr) (relation : String) (target : ObjExpr)
    (parts : List (Set U.Obj)) (X Y : Set U.Obj) (r base : Relation) : Prop where
  evaluates : ∃ mid, source.Evaluates store types c.state c.vars parts X mid ∧ target.Evaluates store types c.state c.vars mid Y []
  relation : ∃ t, infer store types source = .ok t ∧ store.relationOn t.signature relation = .ok r
  base : store.relation? r.base = some base

mutual

/-- The statement may lead from the first situation to the second one, with the given choices. -/
def Statement.Executes (types : TypeEnv) : Statement → Choices U → Situation U → Situation U → Prop
  | .assign var value, k, c, c' => ∃ parts X, k = .sets parts ∧ value.Evaluates store types c.state c.vars parts X [] ∧
      c' = { c with vars := c.vars.set var X }
  | .create className var, k, c, c' => ∃ o cls, k = .object o ∧ store.graph.resolve className = .ok cls ∧ c.Creates store cls o ∧
      c' = c.create var o
  | .delete objects, k, c, c' => ∃ parts X, k = .sets parts ∧ objects.Evaluates store types c.state c.vars parts X [] ∧
      c' = { c with state := c.state.without X }
  | .createTuple source relation target, k, c, c' => ∃ parts X Y r base, k = .sets parts ∧
      UpdateSets store types c source relation target parts X Y r base ∧ c' = { c with state := c.state.relate r base X Y }
  | .deleteTuple source relation target, k, c, c' => ∃ parts X Y r base, k = .sets parts ∧
      UpdateSets store types c source relation target parts X Y r base ∧ c' = { c with state := c.state.unrelate r X Y }
  | .ifElse condition thenBlock elseBlock, k, c, c' => ∃ f first second, k = .condition f first second ∧
      condition.Resolves f ∧ (f.Holds store c.state types c.vars ∧ Block.Executes types thenBlock first c c' ∨
        ¬ f.Holds store c.state types c.vars ∧ Block.Executes types elseBlock second c c')
  | .either branches, k, c, c' => (branches = [] ∧ k = .none ∧ c' = c) ∨
      ∃ i inner, k = .block i inner ∧ Block.ExecutesAt types branches i inner c c'
  | .forEach var domain body .flat, k, c, c' => ∃ parts order inner X t ends, k = .loop parts order inner ∧
      infer store types domain = .ok t ∧ domain.Evaluates store types c.state c.vars parts X [] ∧
      (∀ x ∈ X, Block.Executes (types.insert var t.single) body (inner x) (c.enter var x) (ends x)) ∧ c.Apart X ends ∧
      c' = c.merge X ends
  | .forEach var domain body .chained, k, c, c' => ∃ parts order inner X t, k = .loop parts order inner ∧
      infer store types domain = .ok t ∧ domain.Evaluates store types c.state c.vars parts X [] ∧
      order.Nodup ∧ (∀ x, x ∈ order ↔ x ∈ X) ∧
      Chain (fun x d d' => ∃ e, Block.Executes (types.insert var t.single) body (inner x)
          (Situation.enter { d with vars := hand.start body c.vars d.vars } var x) e ∧
        d' = { e with vars := Vars.leave (Flow.carried types var body) c.vars e.vars }) order c c'

/-- The block may lead from the first situation to the second one, with the given choices. -/
def Block.Executes (types : TypeEnv) : List Statement → Choices U → Situation U → Situation U → Prop
  | [], k, c, c' => k = .none ∧ c' = c
  | s :: rest, k, c, c' => ∃ k1 k2 types' d, k = .seq k1 k2 ∧ Flow.statement store types s = .ok types' ∧
      Statement.Executes types s k1 c d ∧ Block.Executes types' rest k2 d c'

/-- The block of a number may lead from the first situation to the second one, with the given choices. -/
def Block.ExecutesAt (types : TypeEnv) : List (List Statement) → Nat → Choices U → Situation U → Situation U → Prop
  | [], _, _, _, _ => False
  | b :: _, 0, k, c, c' => Block.Executes types b k c c'
  | _ :: rest, i + 1, k, c, c' => Block.ExecutesAt types rest i k c c'

end

end

/-- An alternative is executed as the block of its number. -/
theorem Block.executesAt_iff {k : Choices U} {c c' : Situation U} {bs : List (List Statement)} {i : Nat} :
    ExecutesAt store hand types bs i k c c' ↔ ∃ b, bs[i]? = some b ∧ Executes store hand types b k c c' := by
  induction bs generalizing i with
  | nil => simp [ExecutesAt]
  | cons b rest ih => cases i <;> simp [ExecutesAt, ih]

/-! ## Choices decide -/

section Unique

variable {store : Store} {st : State U} {vars : Vars U}

variable {types : TypeEnv} {parts : List (Set U.Obj)} {X : Set U.Obj}

theorem ObjExpr.evaluateAll_unique (hes : ∀ e ∈ es, ∀ {parts X rest rest' X'}, e.Evaluates store types st vars parts X rest →
      e.Evaluates store types st vars parts X' rest' → X = X' ∧ rest = rest')
    (h : ObjExpr.EvaluateAll store types st vars es parts Xs rest)
    (h' : ObjExpr.EvaluateAll store types st vars es parts Xs' rest') : Xs = Xs' ∧ rest = rest' := by
  induction es generalizing parts Xs Xs' with
  | nil => exact ⟨h.2.trans h'.2.symm, h.1.trans h'.1.symm⟩
  | cons e es ih =>
    obtain ⟨he, hes⟩ := List.forall_mem_cons.1 hes
    obtain ⟨X, Ys, mid, rfl, hX, hYs⟩ := h
    obtain ⟨X', Ys', mid', rfl, hX', hYs'⟩ := h'
    obtain ⟨rfl, rfl⟩ := he hX hX'
    obtain ⟨rfl, hrest⟩ := ih hes hYs hYs'
    exact ⟨rfl, hrest⟩

/-- With the same choices an expression has one value only. -/
theorem ObjExpr.evaluates_unique (e : ObjExpr) {X' : Set U.Obj} (h : e.Evaluates store types st vars parts X rest)
    (h' : e.Evaluates store types st vars parts X' rest') : X = X' ∧ rest = rest' := by
  induction e generalizing parts rest rest' X X' with
  | allOf className =>
    obtain ⟨rfl, c, hc, rfl⟩ := h
    obtain ⟨rfl, c', hc', rfl⟩ := h'
    cases hc.symm.trans hc'
    exact ⟨rfl, rfl⟩
  | var name => exact ⟨h.2.trans h'.2.symm, h.1.trans h'.1.symm⟩
  | iterator name => exact ⟨h.2.trans h'.2.symm, h.1.trans h'.1.symm⟩
  | subset source ih =>
    obtain ⟨Y, hY, -⟩ := h
    obtain ⟨Y', hY', -⟩ := h'
    exact List.cons_eq_cons.1 (ih hY hY').2
  | oneOf source ih =>
    obtain ⟨Y, hY, -⟩ := h
    obtain ⟨Y', hY', -⟩ := h'
    exact List.cons_eq_cons.1 (ih hY hY').2
  | union sources ih =>
    obtain ⟨Xs, hXs, rfl⟩ := h
    obtain ⟨Xs', hXs', rfl⟩ := h'
    obtain ⟨rfl, hrest⟩ := evaluateAll_unique ih hXs hXs'
    exact ⟨rfl, hrest⟩
  | deref source relation ih =>
    obtain ⟨Y, t, r, hY, ht, hr, rfl⟩ := h
    obtain ⟨Y', t', r', hY', ht', hr', rfl⟩ := h'
    obtain ⟨rfl, hrest⟩ := ih hY hY'
    cases ht.symm.trans ht'
    cases hr.symm.trans hr'
    exact ⟨rfl, hrest⟩

theorem UpdateSets.unique {source target : ObjExpr} {relation : String} {X' Y Y' : Set U.Obj} {r r' base base' : Relation}
    (h : UpdateSets store types c source relation target parts X Y r base)
    (h' : UpdateSets store types c source relation target parts X' Y' r' base') : X = X' ∧ Y = Y' ∧ r = r' ∧ base = base' := by
  obtain ⟨⟨mid, hX, hY⟩, ⟨t, ht, hr⟩, hbase⟩ := h
  obtain ⟨⟨mid', hX', hY'⟩, ⟨t', ht', hr'⟩, hbase'⟩ := h'
  obtain ⟨rfl, rfl⟩ := ObjExpr.evaluates_unique source hX hX'
  obtain ⟨rfl, -⟩ := ObjExpr.evaluates_unique target hY hY'
  cases ht.symm.trans ht'
  cases hr.symm.trans hr'
  cases hbase.symm.trans hbase'
  exact ⟨rfl, rfl, rfl, rfl⟩

theorem Chain.unique (hstep : ∀ x d e e', step x d e → step' x d e' → e = e') :
    ∀ {order : List U.Obj} {c c' c'' : Situation U}, Chain step order c c' → Chain step' order c c'' → c' = c''
  | [], _, _, _, h, h' => by
    exact h.trans h'.symm
  | x :: rest, c, _, _, h, h' => by
    obtain ⟨d, hd, hrest⟩ := h
    obtain ⟨d', hd', hrest'⟩ := h'
    cases hstep x c d d' hd hd'
    exact Chain.unique hstep hrest hrest'

/-- Merging looks only at the ends of the iterations that are run. -/
theorem Situation.merge_congr {c : Situation U} (h : ∀ x ∈ X, ends x = ends' x) : c.merge X ends = c.merge X ends' := by
  have hall : ∀ P : Situation U → Prop, (∀ x ∈ X, P (ends x)) ↔ ∀ x ∈ X, P (ends' x) := fun P =>
    forall₂_congr fun x hx => by rw [h x hx]
  have hsome : ∀ P : Situation U → Prop, (∃ x ∈ X, P (ends x)) ↔ ∃ x ∈ X, P (ends' x) := fun P =>
    exists_congr fun x => and_congr_right fun hx => by rw [h x hx]
  ext
  · exact or_congr (and_congr_right fun _ => hall fun d => d.state.alive _) (and_congr_right fun _ => hsome fun d => d.state.alive _)
  · exact or_congr (and_congr_right fun _ => hall fun d => d.state.linked _ _ _)
      (and_congr_right fun _ => hsome fun d => d.state.linked _ _ _)
  · rfl
  · exact or_congr_right (hsome fun d => _ ∈ d.used)

theorem Block.executes_unique_of (hb : ∀ s ∈ b, ∀ {types : TypeEnv} {k : Choices U} {c c' c'' : Situation U},
      s.Executes store hand types k c c' → s.Executes store hand types k c c'' → c' = c'')
    {k : Choices U} {c c' c'' : Situation U} (h : Executes store hand types b k c c')
    (h' : Executes store hand types b k c c'') : c' = c'' := by
  induction b generalizing types k c with
  | nil => exact h.2.trans h'.2.symm
  | cons s rest ih =>
    obtain ⟨hs, hrest⟩ := List.forall_mem_cons.1 hb
    obtain ⟨k1, k2, types1, d, rfl, htypes, hd, h⟩ := h
    obtain ⟨k1', k2', types1', d', hk, htypes', hd', h'⟩ := h'
    cases hk
    cases htypes.symm.trans htypes'
    cases hs hd hd'
    exact ih hrest h h'

/-- With the same choices a statement ends in one way only. -/
theorem Statement.executes_unique (s : Statement) {types : TypeEnv} {k : Choices U} {c c' c'' : Situation U}
    (h : s.Executes store hand types k c c') (h' : s.Executes store hand types k c c'') : c' = c'' := by
  induction s generalizing types k c c' c'' with
  | assign var value =>
    obtain ⟨parts, X, rfl, hX, rfl⟩ := h
    obtain ⟨parts', X', hk, hX', rfl⟩ := h'
    cases hk
    rw [(ObjExpr.evaluates_unique value hX hX').1]
  | create className var =>
    obtain ⟨o, cls, rfl, -, -, rfl⟩ := h
    obtain ⟨o', cls', hk, -, -, rfl⟩ := h'
    cases hk
    rfl
  | delete objects =>
    obtain ⟨parts, X, rfl, hX, rfl⟩ := h
    obtain ⟨parts', X', hk, hX', rfl⟩ := h'
    cases hk
    rw [(ObjExpr.evaluates_unique objects hX hX').1]
  | createTuple source relation target | deleteTuple source relation target =>
    obtain ⟨parts, X, Y, r, base, rfl, hsets, rfl⟩ := h
    obtain ⟨parts', X', Y', r', base', hk, hsets', rfl⟩ := h'
    cases hk
    obtain ⟨rfl, rfl, rfl, rfl⟩ := hsets.unique hsets'
    rfl
  | ifElse condition thenBlock elseBlock ihthen ihelse =>
    obtain ⟨f, first, second, rfl, -, h⟩ := h
    obtain ⟨f', first', second', hk, -, h'⟩ := h'
    cases hk
    rcases h with ⟨hf, h⟩ | ⟨hf, h⟩ <;> rcases h' with ⟨hf', h'⟩ | ⟨hf', h'⟩
    · exact executes_unique_of ihthen h h'
    · exact absurd hf hf'
    · exact absurd hf' hf
    · exact executes_unique_of ihelse h h'
  | either branches ih =>
    rcases h with ⟨-, rfl, rfl⟩ | ⟨i, inner, rfl, h⟩ <;> rcases h' with ⟨-, hk, rfl⟩ | ⟨i', inner', hk, h'⟩ <;> cases hk
    · rfl
    · obtain ⟨b, hb, h⟩ := executesAt_iff.1 h
      obtain ⟨b', hb', h'⟩ := executesAt_iff.1 h'
      cases hb.symm.trans hb'
      exact executes_unique_of (ih b (List.mem_of_getElem? hb)) h h'
  | forEach var domain body order ih =>
    cases order with
    | flat =>
      obtain ⟨parts, order, inner, X, t, ends, rfl, ht, hX, hends, -, rfl⟩ := h
      obtain ⟨parts', order', inner', X', t', ends', hk, ht', hX', hends', -, rfl⟩ := h'
      cases hk
      cases ht.symm.trans ht'
      obtain ⟨rfl, -⟩ := ObjExpr.evaluates_unique domain hX hX'
      exact Situation.merge_congr fun x hx => executes_unique_of ih (hends x hx) (hends' x hx)
    | chained =>
      obtain ⟨parts, order, inner, X, t, rfl, ht, hX, -, -, hchain⟩ := h
      obtain ⟨parts', order', inner', X', t', hk, ht', hX', -, -, hchain'⟩ := h'
      cases hk
      cases ht.symm.trans ht'
      refine Chain.unique (fun x d e e' he he' => ?_) hchain hchain'
      obtain ⟨inside, hinside, rfl⟩ := he
      obtain ⟨inside', hinside', rfl⟩ := he'
      rw [executes_unique_of ih hinside hinside']

theorem Block.executes_unique (b : Block) {k : Choices U} {c c' c'' : Situation U} (h : Executes store hand types b k c c')
    (h' : Executes store hand types b k c c'') : c' = c'' :=
  executes_unique_of (fun s _ => s.executes_unique) h h'

end Unique

/-! ## What has existed is remembered -/

/-- What every step keeps, the chain keeps. -/
theorem Chain.keeps {P : Situation U → Prop} :
    ∀ {order : List U.Obj} {c c' : Situation U}, (∀ x ∈ order, ∀ d d', P d → step x d d' → P d') → P c → Chain step order c c' → P c'
  | [], _, _, _, hc, h => by
    exact h ▸ hc
  | x :: rest, c, _, hstep, hc, h => by
    obtain ⟨d, hd, hrest⟩ := h
    exact Chain.keeps (fun y hy => hstep y (List.mem_cons_of_mem x hy)) (hstep x List.mem_cons_self c d hc hd) hrest

theorem Block.used_subset_of (hb : ∀ s ∈ b, ∀ {types : TypeEnv} {k : Choices U} {c c' : Situation U},
      s.Executes store hand types k c c' → c.used ⊆ c'.used) {k : Choices U} {c c' : Situation U}
    (h : Executes store hand types b k c c') : c.used ⊆ c'.used := by
  induction b generalizing types k c with
  | nil => rw [h.2]
  | cons s rest ih =>
    obtain ⟨hs, hrest⟩ := List.forall_mem_cons.1 hb
    obtain ⟨k1, k2, types1, d, -, -, hd, h⟩ := h
    exact (hs hd).trans (ih hrest h)

/-- Objects that have existed stay used. -/
theorem Statement.used_subset (s : Statement) {types : TypeEnv} {k : Choices U} {c c' : Situation U}
    (h : s.Executes store hand types k c c') : c.used ⊆ c'.used := by
  induction s generalizing types k c c' with
  | assign | delete =>
    obtain ⟨parts, X, -, -, rfl⟩ := h
    exact subset_rfl
  | create className var =>
    obtain ⟨o, cls, -, -, -, rfl⟩ := h
    exact Set.subset_insert o c.used
  | createTuple | deleteTuple =>
    obtain ⟨parts, X, Y, r, base, -, -, rfl⟩ := h
    exact subset_rfl
  | ifElse condition thenBlock elseBlock ihthen ihelse =>
    obtain ⟨f, first, second, -, -, ⟨-, h⟩ | ⟨-, h⟩⟩ := h
    · exact used_subset_of ihthen h
    · exact used_subset_of ihelse h
  | either branches ih =>
    obtain ⟨-, -, rfl⟩ | ⟨i, inner, -, h⟩ := h
    · exact subset_rfl
    · obtain ⟨b, hb, h⟩ := executesAt_iff.1 h
      exact used_subset_of (ih b (List.mem_of_getElem? hb)) h
  | forEach var domain body order ih =>
    cases order with
    | flat =>
      obtain ⟨parts, order, inner, X, t, ends, -, -, -, -, -, rfl⟩ := h
      exact Set.subset_union_left
    | chained =>
      obtain ⟨parts, order, inner, X, t, -, -, -, -, -, hchain⟩ := h
      refine Chain.keeps (P := fun d => c.used ⊆ d.used) (fun x _ d d' hd hstep => ?_) subset_rfl hchain
      obtain ⟨e, he, rfl⟩ := hstep
      have hinner := used_subset_of ih he
      exact hd.trans hinner

theorem Block.used_subset (b : Block) {k : Choices U} {c c' : Situation U} (h : Executes store hand types b k c c') : c.used ⊆ c'.used :=
  used_subset_of (fun s _ => s.used_subset) h

/-! ## Typed situations -/

namespace Universe

/-- The object belongs to a class of the component. -/
def Lies (U : Universe) (g : ClassGraph) (component : Nat) (o : U.Obj) : Prop := ∃ c, U.isOf c o ∧ g.componentOf c = component

/-- Objects belong to the parents of their classes, and to classes of one component only. -/
structure Fits (U : Universe) (g : ClassGraph) : Prop where
  parents : ∀ c, ∀ p ∈ g.parentsOf c, ∀ o, U.isOf c o → U.isOf p o
  single : ∀ c d o, U.isOf c o → U.isOf d o → g.componentOf c = g.componentOf d

/-- All objects of the set lie in the component of the type; a set of the bottom type is empty. -/
def Inside (U : Universe) (g : ClassGraph) (t : ObjType) (X : Set U.Obj) : Prop :=
  ∀ o ∈ X, ∃ component, g.componentOfSignature t.signature = some component ∧ U.Lies g component o

end Universe

/-- The situation respects the types of the variables, tuples have ends of the classes of their relations, and whatever there
is has existed. -/
structure Situation.WellTyped (store : Store) (types : TypeEnv) (c : Situation U) : Prop where
  inside : ∀ x t, types.find? x = some t → U.Inside store.graph t (c.vars x)
  unbound : ∀ x, types.find? x = none → c.vars x = ∅
  ends : ∀ id a b, c.state.linked id a b → ∃ r ∈ store.baseRelations, r.id = id ∧ U.isOf r.source a ∧ U.isOf r.target b
  alive : ∀ o, c.state.alive o → o ∈ c.used
  known : ∀ x, c.vars x ⊆ c.used
  linked : ∀ id a b, c.state.linked id a b → a ∈ c.used ∧ b ∈ c.used

end StoreCheck
