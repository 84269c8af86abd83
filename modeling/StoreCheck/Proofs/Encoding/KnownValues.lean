import StoreCheck.Proofs.Encoding.SortedGoal
import StoreCheck.Proofs.TypeErrors
import StoreCheck.Proofs.TypeInvariants

/-!
# Values that refer to what is there

The encoding has errors for states that no specification should lead to. Computing the formula that an object is in a value is an
internal fault if the value goes through a relation without a tuple sort, or looks across the boundary of a loop that is not
chained; a type with classes of several hierarchies has no sort. The values that come up refer to tuple sorts and chained contexts
that are there (`ObjValue.Known`), and their types have sorts, so that neither an expression nor a formula ends in such an error.

What is there is fixed by the contexts. `Yields cs x Q` says that from the contexts `cs` the step `x` ends in no fault, leaves the
contexts alone and gives a result with the property `Q`; a sequence does if its steps do.
-/

namespace StoreCheck

open List

variable {k : SortId → SortId} {ps : List SortId} {symbols : Symbols} {Γ : SortEnv} {params : List Term} {vs : List ObjValue}
  {e : ObjExpr} {type : ObjType} {inFormula : Bool}

/-- The error stands for a state that no specification should lead to: an internal fault of one of the kinds, or a type with
classes of several hierarchies. -/
def EncodeError.Unexpected (kinds : InternalFault → Prop) : EncodeError → Prop
  | .internal fault => kinds fault
  | .type error => error.MixesHierarchies
  | _ => False

/-- The step never ends in an unexpected error. -/
abbrev Faultless {σ α : Type} (kinds : InternalFault → Prop) (x : StateT σ (Except EncodeError) α) (s : σ) : Prop :=
  Avoids (EncodeError.Unexpected kinds) x s

variable {kinds : InternalFault → Prop} {L : Layout} {cs : Contexts} {s : Session} {scope : Scope} {v : ObjValue}

theorem EncodeError.Unexpected.all {e : EncodeError} (h : e.Unexpected kinds) : e.Unexpected fun _ => True := by
  cases e with
  | internal fault => exact trivial
  | _ => exact h

/-- Started with the contexts, the step ends in no internal fault; if it succeeds it leaves the contexts alone, and its result has the
property. -/
def Yields {α : Type} (cs : Contexts) (x : Encode α) (Q : α → Prop) : Prop :=
  ∀ s : Session, s.contexts = cs → Faultless (fun _ => True) x s ∧ ∀ a t, x s = .ok (a, t) → t.contexts = cs ∧ Q a

/-- Started with the contexts, the step ends in no internal fault and leaves the contexts alone. -/
abbrev Calm {α : Type} (cs : Contexts) (x : Encode α) : Prop := Yields cs x fun _ => True

namespace Yields

variable {α β : Type} {x : Encode α} {f : α → Encode β} {Q Q' : α → Prop} {R : β → Prop} {a : α} {t : Session}

/-- A step that yields something does not fault. -/
theorem faultless (h : Yields s.contexts x Q) : Faultless kinds x s := fun e he => (h s rfl).1 e he.all

theorem of_ok (h : Yields s.contexts x Q) (hrun : x s = .ok (a, t)) : t.contexts = s.contexts ∧ Q a := (h s rfl).2 a t hrun

/-- What a sequence yields. -/
theorem bind (hx : Yields cs x Q) (hf : ∀ a, Q a → Yields cs (f a) R) : Yields cs (x >>= f) R := by
  intro s hs
  refine ⟨.bind (hx s hs).1 fun a t ht => ?_, fun b u hrun => ?_⟩
  · obtain ⟨ht, ha⟩ := (hx s hs).2 a t ht
    exact (hf a ha t ht).1
  · obtain ⟨a, t, h1, h2⟩ := bind_ok.1 hrun
    obtain ⟨ht, ha⟩ := (hx s hs).2 a t h1
    exact (hf a ha t ht).2 b u h2

theorem pure (h : Q a) : Yields cs (pure a) Q := by
  refine fun s hs => ⟨.pure a, fun b t hrun => ?_⟩
  cases pure_ok.1 hrun
  exact ⟨hs, h⟩

theorem get : Yields cs (get : Encode Session) (·.contexts = cs) := by
  refine fun s hs => ⟨.modifyGet _, fun b t hrun => ?_⟩
  cases get_ok.1 hrun
  exact ⟨hs, hs⟩

theorem modify (hg : ∀ s, (g s).contexts = s.contexts) : Calm cs (modify g) := by
  refine fun s hs => ⟨.modifyGet _, fun b t hrun => ?_⟩
  cases modify_ok.1 hrun
  exact ⟨(hg s).trans hs, trivial⟩

theorem throw {e : EncodeError} (he : ¬ e.Unexpected fun _ => True) : Yields cs (throw e) Q :=
  fun _ _ => ⟨.throw he, fun _ _ hrun => (throw_ok.1 hrun).elim⟩

theorem lift {x : Except EncodeError α} (hx : Spares (EncodeError.Unexpected fun _ => True) x) :
    Yields cs (liftM x : Encode α) (x = .ok ·) := by
  refine fun s hs => ⟨.lift hx, fun b t hrun => ?_⟩
  obtain ⟨a, ha, heq⟩ := lift_ok.1 hrun
  cases heq
  exact ⟨hs, ha⟩

theorem typed {r : Except TypeError α} (hr : Unmixed r) : Yields cs (Encode.typed r) (r = .ok ·) := by
  cases r with
  | ok a => exact .pure rfl
  | error e => exact .throw fun h => hr e h rfl

theorem mono (h : Yields cs x Q) (hQ : ∀ a, Q a → Q' a) : Yields cs x Q' :=
  fun s hs => ⟨(h s hs).1, fun a t hrun => ⟨((h s hs).2 a t hrun).1, hQ a ((h s hs).2 a t hrun).2⟩⟩

/-- A step that never ends in a fault and leaves the contexts alone. -/
theorem of_quiet (hq : Keeps Session.Quiet x) (hx : ∀ s, Faultless (fun _ => True) x s) : Calm cs x :=
  fun s hs => ⟨hx s, fun _ _ hrun => ⟨(hq.of_ok hrun).table.trans hs, trivial⟩⟩

theorem mapM : ∀ {l : List α}, (∀ a ∈ l, Yields cs (f a) R) → Yields cs (l.mapM f) fun bs => ∀ b ∈ bs, R b
  | [], _ => by
    exact .pure fun b hb => by cases hb
  | a :: rest, h => by
    rw [mapM_cons]
    obtain ⟨ha, hrest⟩ := forall_mem_cons.1 h
    exact .bind ha fun b hb => .bind (mapM hrest) fun bs hbs => .pure (forall_mem_cons.2 ⟨hb, hbs⟩)

theorem forM {f : α → Encode PUnit} : ∀ {l : List α}, (∀ a ∈ l, Calm cs (f a)) → Calm cs (l.forM f)
  | [], _ => .pure trivial
  | a :: _, h => .bind (h a mem_cons_self) fun _ _ => forM fun b hb => h b (mem_cons_of_mem a hb)

end Yields

/-! ## Values that refer to what is there -/

namespace ObjValue

mutual

/-- The tuple sorts of the value are there, and its loop boundaries are those of chained loops. -/
def Known (L : Layout) (cs : Contexts) : ObjValue → Prop
  | .empty => True
  | .ofClass _ _ => True
  | .pred _ _ => True
  | .param _ => True
  | .bound _ => True
  | .union parts => AllKnown L cs parts
  | .deref source relation _ _ => (∃ ts, List.lookup relation L.tupleSorts = some ts) ∧ source.Known L cs
  | .merge _ _ values => AllKnown L cs values
  | .boundary context before inside =>
    (∃ order, (cs.get context).kind = .chained order) ∧ before.Known L cs ∧ inside.Known L cs

/-- All values refer to what is there. -/
def AllKnown (L : Layout) (cs : Contexts) : List ObjValue → Prop
  | [] => True
  | v :: rest => v.Known L cs ∧ AllKnown L cs rest

end

theorem allKnown_iff (vs : List ObjValue) : AllKnown L cs vs ↔ ∀ v ∈ vs, v.Known L cs := by
  induction vs with
  | nil => simp [AllKnown]
  | cons v rest ih => simp [AllKnown, ih]

/-- A value of a sort refers to what is there. -/
theorem Sorted.known {v : ObjValue} (h : v.Sorted k L symbols cs Γ ps sort) : v.Known L cs := by
  induction v generalizing ps sort with
  | empty | ofClass | pred | param | bound => trivial
  | union parts ih => exact (allKnown_iff _).2 fun v hv => ih v hv (AllSorted.of_mem h hv)
  | deref source relation flipped slot ih =>
    obtain ⟨ts, hts, -, -, hsource⟩ := h
    exact ⟨⟨ts, hts⟩, ih hsource⟩
  | merge depth indicators values ih => exact (allKnown_iff _).2 fun v hv => ih v hv (h.2.of_mem hv)
  | boundary context before inside ihb ihi => exact ⟨h.1, ihb h.2.2.1, ihi h.2.2.2⟩

theorem Fits.known (h : v.Fits k L symbols cs Γ ps a) : v.Known L cs := by
  cases a with
  | none => exact (h ⟨0⟩ (.inl rfl)).known
  | some sort => exact h.sorted.known

theorem spares_tupleSort {id : RelationId} (h : List.lookup id L.tupleSorts = some ts) :
    Spares (EncodeError.Unexpected kinds) (L.tupleSort id) := by
  rw [Layout.tupleSort, h]
  exact .ok ts

/-- Only a boundary outside of a chained loop is a fault. -/
theorem faultless_boundaryMember (h : (cs.get context).kind = .chained order) (hbefore : ∀ g, Faultless kinds beforeMember g)
    (hinside : ∀ ps g, Faultless kinds (insideMember ps) g) (g : VarGen) :
    Faultless kinds (boundaryMember cs context params beforeMember insideMember) g := by
  unfold boundaryMember
  simp only [h]
  refine .bind (.modifyGet _) fun _ _ _ => .bind (hbefore _) fun _ _ _ => ?_
  exact .bind (.modifyGet _) fun _ _ _ => .bind (hinside _ _) fun _ _ _ => .pure _

theorem faultless_members (h : ∀ v ∈ vs, ∀ g, Faultless kinds (member L cs v params object) g) (g : VarGen) :
    Faultless kinds (members L cs vs params object) g := by
  induction vs generalizing g with
  | nil => exact .pure _
  | cons v rest ih =>
    obtain ⟨hv, hrest⟩ := forall_mem_cons.1 h
    exact .bind (hv g) fun _ _ _ => .bind (ih hrest _) fun _ _ _ => .pure _

/-- Membership in a value that refers to what is there is no fault. -/
theorem faultless_member (v : ObjValue) (params : List Term) (object : Term) (h : v.Known L cs) (g : VarGen) :
    Faultless kinds (member L cs v params object) g := by
  induction v generalizing params object g with
  | empty | ofClass | pred | param | bound => exact .pure _
  | union parts ih | merge _ _ parts ih =>
    refine .bind (faultless_members (fun v hv => ih v hv _ _ ?_) g) fun _ _ _ => .pure _
    exact (allKnown_iff parts).1 h v hv
  | deref source relation flipped slot ih =>
    obtain ⟨⟨ts, hts⟩, hsource⟩ := h
    refine .bind (.lift (spares_tupleSort hts)) fun _ _ _ => ?_
    exact .bind (.modifyGet _) fun _ _ _ => .bind (ih params _ hsource _) fun _ _ _ => .pure _
  | boundary context before inside ihb ihi =>
    obtain ⟨⟨order, horder⟩, hbefore, hinside⟩ := h
    exact faultless_boundaryMember horder (ihb params object hbefore) (fun ps => ihi ps object hinside) g

end ObjValue

/-- The store is well formed, and every relation has a tuple sort. -/
structure Layout.Complete (L : Layout) : Prop where
  store : L.store.WellFormed
  tuples : ∀ signature name r, L.store.relationOn signature name = .ok r → ∃ ts, List.lookup r.base L.tupleSorts = some ts

theorem Layout.Laid.complete (hlaid : L.Laid symbols) : L.Complete :=
  ⟨hlaid.store, fun _ _ _ h => hlaid.exists_tupleSort (Store.relationOn_ok h).1⟩

/-- The value refers to what is there, and the type has a sort. -/
structure KnownSet (L : Layout) (cs : Contexts) (value : ObjValue) (type : ObjType) : Prop where
  value : value.Known L cs
  type : L.graph.Uniform type.signature

/-- The values in scope refer to what is there, and their types have sorts. -/
def Scope.Known (L : Layout) (cs : Contexts) (scope : Scope) : Prop := ∀ x b, scope.find? x = some b → KnownSet L cs b.value b.type

theorem Scope.Sorted.known (h : scope.Sorted k L symbols cs Γ n ps) : scope.Known L cs := by
  intro x b hb
  obtain ⟨a, ha⟩ := h x b hb
  exact ⟨ha.fits.known, Layout.exists_sortOf_iff.1 ⟨a, ha.sortOf⟩⟩

theorem Scope.Known.all (h : scope.Known L cs) : scope.types.All L.graph.Uniform := by
  intro x s hs
  rw [TypeEnv.signatureOf?, Scope.find?_types] at hs
  cases hb : scope.find? x with
  | none =>
    rw [hb] at hs
    cases hs
  | some b =>
    rw [hb] at hs
    cases hs
    exact (h x b hb).type

theorem Scope.Known.infer (h : scope.Known L cs) (hwf : L.store.WellFormed) (ht : infer L.store scope.types e = .ok type) :
    L.graph.Uniform type.signature :=
  infer_hereditary hwf hwf.graph.hereditary_uniform h.all e ht

theorem Scope.Known.insert (h : scope.Known L cs) (name : String) {b : Binding} (hb : KnownSet L cs b.value b.type) :
    Scope.Known L cs (scope.insert name b) := by
  intro x c hc
  rw [VarMap.find?_insert] at hc
  split at hc
  · cases hc
    exact hb
  · exact h x c hc

namespace Encode

/-! ## Primitive steps -/

/-- Adding axioms is no fault. -/
theorem calm : Adding (Calm cs) where
  pure _ := .pure trivial
  bind hx hf := .bind hx fun a _ => hf a
  get := Yields.get.mono fun _ _ => trivial
  fresh hf := .of_quiet (quiet_fresh hf) fun _ => .modifyGet _
  freshPred hint extra := .of_quiet (quiet_freshPred hint extra) fun _ => .modifyGet _
  rootPred hint sort := .of_quiet (quiet_rootPred hint sort) fun _ => .modifyGet _
  emit f := .of_quiet (quiet_emit f) fun _ => .modifyGet _

theorem yields_sortOf (h : L.graph.Uniform type.signature) :
    Yields cs (liftM (L.sortOf type) : Encode _) (L.sortOf type = .ok ·) := by
  refine .lift ?_
  obtain ⟨a, ha⟩ := Layout.exists_sortOf_iff.2 h
  rw [ha]
  exact .ok a

theorem calm_member (h : v.Known L cs) (ps : List Term) (o : Term) : Calm cs (member L v ps o) := by
  rintro s rfl
  refine ⟨.get_bind (.get_bind (.bind (.lift ?_) fun _ _ _ => .bind (.modifyGet _) fun _ _ _ => .pure _)), fun _ _ hrun =>
    ⟨((quiet_member L v ps o).of_ok hrun).table, trivial⟩⟩
  exact ObjValue.faultless_member v ps o h s.vars

/-! ## Expressions -/

/-- A choice is the empty set or a predicate. -/
theorem yields_chosen (htype : L.graph.Uniform type.signature) (h : ∀ sort p ps, Calm cs (build sort p ps)) :
    Yields cs (chosen L hint build type) (·.Known L cs) := by
  refine .bind (yields_sortOf htype) fun a _ => ?_
  cases a with
  | none => exact .pure (by simp [ObjValue.Known])
  | some sort =>
    refine .bind (calm.freshPred _ _) fun p _ => .bind calm.depth fun d _ => .bind (calm.axiomOver (h sort p)) fun _ _ => ?_
    exact .pure (by simp [ObjValue.Known])

theorem yields_checked (hL : L.Complete) (hscope : scope.Known L cs) (h : Yields cs encode (·.Known L cs)) :
    Yields cs (checked L scope e encode) fun p => KnownSet L cs p.1 p.2 := by
  refine .bind (.typed (unmixed_infer e)) fun type htype => .bind h fun value hvalue => ?_
  have hset : KnownSet L cs value type := ⟨hvalue, hscope.infer hL.store htype⟩
  split
  · exact .bind (.throw (Q := fun _ => True) (by simp [EncodeError.Unexpected, TypeError.MixesHierarchies])) fun _ _ => .pure hset
  · exact .pure hset

theorem known_unionValue (h : ∀ v ∈ vs, v.Known L cs) : (unionValue vs).Known L cs := by
  unfold unionValue
  have hfilter : ∀ v ∈ vs.filter (!·.isEmpty), v.Known L cs := fun v hv => h v (mem_filter.1 hv).1
  split
  · simp [ObjValue.Known]
  · rename_i v heq
    exact hfilter v (heq ▸ mem_singleton_self v)
  · exact (ObjValue.allKnown_iff _).2 hfilter

theorem yields_boundValue (hscope : scope.Known L cs) (name : String) : Yields cs (boundValue scope name) (·.Known L cs) := by
  unfold boundValue
  cases hb : scope.find? name with
  | none => exact .throw id
  | some b => exact .pure (hscope name b hb).value

theorem yields_objValues (hes : ∀ e ∈ es, Yields cs (objValue L inFormula scope e) (·.Known L cs)) :
    Yields cs (objValues L inFormula scope es) fun vs => ∀ v ∈ vs, v.Known L cs := by
  induction es with
  | nil => exact .pure (forall_mem_nil _)
  | cons e rest ih =>
    obtain ⟨he, hrest⟩ := forall_mem_cons.1 hes
    exact .bind he fun v hv => .bind (ih hrest) fun vs hvs => .pure (forall_mem_cons.2 ⟨hv, hvs⟩)

/-- The values refer to what is there, and their joined type has a sort. -/
def Comparable (L : Layout) (cs : Contexts) (p : List ObjValue × Option ObjType) : Prop :=
  (∀ v ∈ p.1, v.Known L cs) ∧ ∀ type ∈ p.2, L.graph.Uniform type.signature

section Sets

variable (hL : L.Complete) (hscope : scope.Known L cs)

include hL hscope

/-- The value of an expression is no fault and refers to what is there, if the values in scope do. -/
theorem yields_objValue (e : ObjExpr) : Yields cs (objValue L inFormula scope e) (·.Known L cs) := by
  induction e with
  | allOf className =>
    exact .bind (.typed (unmixed_resolve _)) fun _ _ => .bind .get fun _ _ => .pure (by simp [ObjValue.Known])
  | var name | iterator name => exact yields_boundValue hscope name
  | subset source ih =>
    cases inFormula with
    | true => exact .throw id
    | false =>
      refine .bind (yields_checked hL hscope ih) fun p hp => ?_
      exact yields_chosen hp.type fun _ _ => calm.someMembers (calm_member hp.value)
  | oneOf source ih =>
    cases inFormula with
    | true => exact .throw id
    | false =>
      refine .bind (yields_checked hL hscope ih) fun p hp => ?_
      exact yields_chosen hp.type fun _ _ => calm.oneMember (calm_member hp.value)
  | union parts ih => exact .bind (yields_objValues ih) fun _ hvs => .pure (known_unionValue hvs)
  | deref source relation ih =>
    refine .bind ih fun value hvalue => ?_
    refine .bind (.typed (unmixed_infer _)) fun type _ => .bind (.typed (unmixed_relationOn _ _)) fun r hr => ?_
    obtain ⟨ts, hts⟩ := hL.tuples _ _ _ hr
    refine .bind (.lift (ObjValue.spares_tupleSort hts)) fun _ _ => .bind .get fun _ _ => .pure ?_
    exact ⟨⟨ts, hts⟩, hvalue⟩

theorem yields_objSet (e : ObjExpr) :
    Yields cs (objSet L inFormula scope e) fun p => KnownSet L cs p.1 p.2 := yields_checked hL hscope (yields_objValue hL hscope e)

/-! ## Formulas -/

theorem yields_comparable : ∀ (es : List ObjExpr) (joined : Option ObjType), (∀ type ∈ joined, L.graph.Uniform type.signature) →
    Yields cs (comparable L scope es joined) (Comparable L cs)
  | [], _, hjoined => by
    exact .pure ⟨forall_mem_nil _, hjoined⟩
  | e :: rest, joined, hjoined => by
    refine .bind (yields_objSet hL hscope e) fun p hp => ?_
    have hrest : ∀ j : ObjType, L.graph.Uniform j.signature →
        Yields cs (comparable L scope rest (some j) >>= fun q => pure (p.1 :: q.1, q.2)) (Comparable L cs) := fun j hj =>
      .bind (yields_comparable rest _ (by simpa using hj)) fun _ hq => .pure ⟨forall_mem_cons.2 ⟨hp.value, hq.1⟩, hq.2⟩
    cases joined with
    | none => exact .bind (.pure (Q := (· = p.2)) rfl) fun j hj => hrest j (hj ▸ hp.type)
    | some before =>
      refine .bind (.typed (unmixed_join _ _)) fun j hj => hrest j ?_
      exact hL.store.graph.hereditary_uniform.joinType hj (hjoined before rfl) hp.type

theorem calm_equalSets (params : List Term) (sets : List ObjExpr) :
    Calm cs (equalSets L scope params sets) := by
  refine .bind (yields_comparable hL hscope sets none (by simp)) fun p hp => ?_
  obtain ⟨vs, joined⟩ := p
  dsimp only
  split
  · rename_i type first rest
    obtain ⟨hfirst, hrest⟩ := forall_mem_cons.1 hp.1
    refine .bind (yields_sortOf (hp.2 type rfl)) fun a _ => ?_
    cases a with
    | none => exact .pure trivial
    | some sort =>
      refine .bind (calm.binder sort) fun b _ => .bind (calm_member hfirst _ _) fun head _ => ?_
      refine .bind (.mapM (R := fun _ => True) fun v hv => ?_) fun _ _ => .pure trivial
      exact .bind (calm_member (hrest v hv) _ _) fun _ _ => .pure trivial
  · exact .pure trivial

theorem calm_includedSet (params : List Term) (set within : ObjExpr) :
    Calm cs (includedSet L scope params set within) := by
  refine .bind (yields_objSet hL hscope set) fun p hp => .bind (yields_objSet hL hscope within) fun q hq => ?_
  dsimp only
  split
  · exact .pure trivial
  · refine .bind (.typed (unmixed_join _ _)) fun type htype => ?_
    refine .bind (yields_sortOf (hL.store.graph.hereditary_uniform.joinType htype hp.type hq.type)) fun a _ => ?_
    cases a with
    | none => exact .pure trivial
    | some sort =>
      refine .bind (calm.binder sort) fun b _ => .bind (calm_member hp.value _ _) fun _ _ => ?_
      exact .bind (calm_member hq.value _ _) fun _ _ => .pure trivial

theorem calm_emptySet (params : List Term) (set : ObjExpr) :
    Calm cs (emptySet L scope params set) := by
  refine .bind (yields_objSet hL hscope set) fun p hp => .bind (yields_sortOf hp.type) fun a _ => ?_
  cases a with
  | none => exact .pure trivial
  | some sort => exact .bind (calm.binder sort) fun b _ => .bind (calm_member hp.value _ _) fun _ _ => .pure trivial

end Sets

/-- The variables of a quantifier refer to what is there. -/
theorem yields_quantified (hL : L.Complete) (params : List Term) : ∀ (qs : List QuantVar) {scope : Scope}, scope.Known L cs →
    Yields cs (quantified L params qs scope) fun r => ∀ q, r = some q → q.scope.Known L cs
  | [], _, hscope => by
    refine .pure fun q hq => ?_
    cases hq
    exact hscope
  | v :: rest, _, hscope => by
    refine .bind (yields_objSet hL hscope v.domain) fun p hp => .bind (yields_sortOf hp.type) fun a _ => ?_
    cases a with
    | none => exact .pure fun q hq => by cases hq
    | some sort =>
      refine .bind (calm.binder sort) fun b _ => .bind (calm_member hp.value _ _) fun _ _ => ?_
      refine .bind (yields_quantified hL params rest (hscope.insert v.name ⟨by simp [ObjValue.Known], hp.type⟩)) fun r hr => ?_
      cases r with
      | none => exact .pure fun q hq => by cases hq
      | some inner =>
        refine .pure fun q hq => ?_
        cases hq
        exact hr inner rfl

theorem calm_formulas (hfs : ∀ f ∈ fs, ∀ {scope : Scope}, scope.Known L cs → Calm cs (formula L params f scope))
    (hscope : scope.Known L cs) : Calm cs (formulas L params fs scope) := by
  induction fs with
  | nil => exact .pure trivial
  | cons f rest ih =>
    obtain ⟨hf, hrest⟩ := forall_mem_cons.1 hfs
    exact .bind (hf hscope) fun _ _ => .bind (ih hrest) fun _ _ => .pure trivial

/-- The encoding of a formula is no fault, if the values in scope refer to what is there. -/
theorem calm_formula (hL : L.Complete) (params : List Term) (f : FormulaExpr) {scope : Scope} (hscope : scope.Known L cs) :
    Calm cs (formula L params f scope) := by
  induction f generalizing scope with
  | literal value =>
    cases value with
    | true | false => exact .pure trivial
    | unknown => exact .bind (calm.freshPred _ _) fun _ _ => .bind calm.depth fun _ _ => .pure trivial
  | not f ih => exact .bind (ih hscope) fun _ _ => .pure trivial
  | and parts ih | or parts ih | equiv parts ih => exact .bind (calm_formulas ih hscope) fun _ _ => .pure trivial
  | implies premise conclusion ihp ihc => exact .bind (ihp hscope) fun _ _ => .bind (ihc hscope) fun _ _ => .pure trivial
  | equal sets => exact calm_equalSets hL hscope params sets
  | isIn set within => exact calm_includedSet hL hscope params set within
  | isEmpty set => exact calm_emptySet hL hscope params set
  | forAll qs body ih | forSome qs body ih =>
    refine .bind (yields_quantified hL params qs hscope) fun r hr => ?_
    cases r with
    | none => exact .pure trivial
    | some q => exact .bind (ih (hr q rfl)) fun _ _ => .pure trivial

end Encode

end StoreCheck
