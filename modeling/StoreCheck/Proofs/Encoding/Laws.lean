import StoreCheck.Proofs.Encoding.Growth

/-!
# Properties of steps, one step at a time

A property that holds of a sequence of steps once it holds of each (`Sequential`), and of the steps that take variables and compare
members (`Comparing`), holds of the encoding of every formula whose sets it is known of (`Plain`). Outside of formulas, where a set may
be chosen, it has to hold of making predicates and stating axioms too (`Choosing`).
-/

namespace StoreCheck

open Encode

variable {L : Layout} {inFormula : Bool} {scope : Scope} {sort written : SortId} {p : PredId} {after before new : Slot}
  {ts : TupleSort} {exits : List Encode.Exit} {f : Encode.LoopFrame} {body : Encode.LoopBody} {order : ChainOrder} {pre : Snapshot}
  {params : List Term} {c : Creation} {set : ObjExpr}

namespace FormulaExpr

mutual

/-- The formula has no `unknown`. -/
def isDefinite : FormulaExpr → Bool
  | .literal value => value != .unknown
  | .not f => f.isDefinite
  | .and parts => allDefinite parts
  | .or parts => allDefinite parts
  | .implies premise conclusion => premise.isDefinite && conclusion.isDefinite
  | .equiv parts => allDefinite parts
  | .equal _ => true
  | .isIn _ _ => true
  | .isEmpty _ => true
  | .forAll _ body => body.isDefinite
  | .forSome _ body => body.isDefinite

/-- No formula has an `unknown`. -/
def allDefinite : List FormulaExpr → Bool
  | [] => true
  | f :: rest => f.isDefinite && allDefinite rest

end

end FormulaExpr

namespace Encode

/-! ## Closed properties -/

/-- The property holds of steps that do nothing or fail, and of a sequence of steps once it holds of each. -/
structure Sequential (P : ∀ {α : Type}, Encode α → Prop) : Prop where
  pure : ∀ {α : Type} (a : α), P (Pure.pure a : Encode α)
  throw : ∀ {α : Type} (e : EncodeError), P (throw e : Encode α)
  lift : ∀ {α : Type} (r : Except EncodeError α), P (liftM r : Encode α)
  bind : ∀ {α β : Type} {x : Encode α} {f : α → Encode β}, P x → (∀ a, P (f a)) → P (x >>= f)

variable {P : ∀ {α : Type}, Encode α → Prop}

namespace Sequential

variable {α β : Type}

theorem mapM {f : α → Encode β} (h : Sequential P) (hf : ∀ a, P (f a)) (l : List α) : P (l.mapM f) := by
  induction l with
  | nil => exact h.pure _
  | cons a l ih =>
    rw [List.mapM_cons]
    exact h.bind (hf a) fun _ => h.bind ih fun _ => h.pure _

theorem typed (h : Sequential P) (r : Except TypeError α) : P (typed r) := by
  cases r with
  | ok a => exact h.pure a
  | error e => exact h.throw _

theorem checked (h : Sequential P) (L : Layout) (scope : Scope) (e : ObjExpr) (hencode : P encode) :
    P (checked L scope e encode) := by
  refine h.bind (h.typed _) fun type => h.bind hencode fun value => ?_
  split
  · exact h.bind (h.throw _) fun _ => h.pure _
  · exact h.bind (h.pure _) fun _ => h.pure _

theorem objValues (h : Sequential P) (hes : ∀ e ∈ es, P (objValue L inFormula scope e)) :
    P (objValues L inFormula scope es) := by
  induction es with
  | nil => exact h.pure _
  | cons e rest ih =>
    obtain ⟨he, hrest⟩ := List.forall_mem_cons.1 hes
    exact h.bind he fun _ => h.bind (ih hrest) fun _ => h.pure _

/-- A set is encoded by reading slots and, outside of formulas, by choosing. -/
theorem objValue (h : Sequential P)
    (hslot : ∀ sort (value : Slot → ObjValue), P (get >>= fun s => Pure.pure (value (s.snapshot.slot sort)) : Encode ObjValue))
    (hchoose : inFormula = false → ∀ v type, P (chooseSubset L v type) ∧ P (chooseOne L v type)) (e : ObjExpr) :
    P (Encode.objValue L inFormula scope e) := by
  induction e with
  | allOf className => exact h.bind (h.typed _) fun c => hslot _ (.ofClass c)
  | var name | iterator name =>
    unfold Encode.objValue boundValue
    split
    · exact h.pure _
    · exact h.throw _
  | subset source ih =>
    cases inFormula with
    | true => exact h.throw .choiceInFormula
    | false => exact h.bind (h.checked L scope source ih) fun p => (hchoose rfl p.1 p.2).1
  | oneOf source ih =>
    cases inFormula with
    | true => exact h.throw .choiceInFormula
    | false => exact h.bind (h.checked L scope source ih) fun p => (hchoose rfl p.1 p.2).2
  | union parts ih => exact h.bind (h.objValues ih) fun _ => h.pure _
  | deref source relation ih =>
    exact h.bind ih fun v => h.bind (h.typed _) fun _ => h.bind (h.typed _) fun r => h.bind (h.lift _) fun _ =>
      hslot _ (.deref v r.base r.flipped)

end Sequential

/-! ## Axioms -/

/-- The property holds of the steps that axioms are made and added with. -/
structure Adding (P : ∀ {α : Type}, Encode α → Prop) : Prop where
  pure : ∀ {α : Type} (a : α), P (Pure.pure a : Encode α)
  bind : ∀ {α β : Type} {x : Encode α} {f : α → Encode β}, P x → (∀ a, P (f a)) → P (x >>= f)
  get : P (get : Encode Session)
  fresh : ∀ {α : Type} {f : Fresh α}, f.Takes → P (Encode.fresh f)
  freshPred : ∀ hint extra, P (Encode.freshPred hint extra)
  rootPred : ∀ hint sort, P (Encode.rootPred hint sort)
  emit : ∀ f, P (Encode.emit f)

namespace Adding

variable (h : Adding P)

include h

theorem forM {α : Type} {f : α → Encode PUnit} (hf : ∀ a, P (f a)) : ∀ l : List α, P (l.forM f)
  | [] => h.pure _
  | a :: l => h.bind (hf a) fun _ => forM hf l

theorem binder (sort : SortId) : P (binder sort) := h.fresh (Fresh.takes_binder sort)

theorem bind_binder {α : Type} {f : Binder × Term → Encode α} (hf : ∀ p, P (f p)) : P (Encode.binder sort >>= f) :=
  h.bind (h.binder sort) hf

theorem depth : P depth := h.bind h.get fun _ => h.pure _

theorem contextBinders : P contextBinders := h.bind h.get fun _ => h.fresh (Fresh.takes_binders _)

/-- An axiom over the parameters of the context. -/
theorem axiomOver (hbuild : ∀ ps, P (build ps)) : P (axiomOver build) :=
  h.bind h.contextBinders fun _ => h.bind (hbuild _) fun _ => h.bind h.get fun _ => h.emit _

/-- A new slot for a sort. -/
theorem freshSlot : P (freshSlot sort) :=
  h.bind h.get fun _ => h.bind (h.freshPred _ _) fun _ => h.bind h.depth fun _ => h.pure _

/-! ### Values -/

section Values

variable {L : Layout} {v : ObjValue} (hv : ∀ ps o, P (member L v ps o))

include hv

theorem sameMembers (ps : List Term) : P (sameMembers L sort p v ps) :=
  h.bind_binder fun _ => h.bind (hv _ _) fun _ => h.pure _

theorem define : P (define L hint sort v) :=
  h.bind (h.freshPred _ _) fun _ => h.bind h.depth fun _ => h.bind (h.axiomOver (h.sameMembers hv)) fun _ => h.pure _

theorem someMembers (ps : List Term) : P (someMembers L sort p v ps) :=
  h.bind_binder fun _ => h.bind (hv _ _) fun _ => h.pure _

theorem oneMember (ps : List Term) : P (oneMember L sort p v ps) :=
  h.bind_binder fun _ => h.bind (hv _ _) fun _ => h.bind_binder fun _ => h.bind (hv _ _) fun _ => h.bind_binder fun _ =>
    h.bind_binder fun _ => h.bind_binder fun _ => h.pure _

theorem deletedSlot (ps : List Term) : P (deletedSlot L sort v before after ps) :=
  h.bind_binder fun _ => h.bind (hv _ _) fun _ => h.pure _

theorem endKept : P (endKept L v ps isSort o) := by
  cases isSort with
  | true => exact h.bind (hv _ _) fun _ => h.pure _
  | false => exact h.pure _

theorem prunedSlot (ps : List Term) : P (prunedSlot L sort v ts before after ps) :=
  h.bind_binder fun _ => h.bind (h.endKept hv) fun _ => h.bind (h.endKept hv) fun _ => h.pure _

theorem pruneTuples (hts : P (L.tupleSort r.id : Encode TupleSort)) : P (pruneTuples L sort v r) :=
  h.bind hts fun _ => h.bind h.get fun _ => h.bind h.freshSlot fun _ => h.bind (h.axiomOver (h.prunedSlot hv)) fun _ => h.pure _

theorem updatedSlot {w : ObjValue} (hw : ∀ ps o, P (member L w ps o)) (ps : List Term) :
    P (updatedSlot L ts v w update snapshot after ps) :=
  h.bind_binder fun _ => h.bind (hv _ _) fun _ => h.bind (hw _ _) fun _ => h.pure _

end Values

/-! ### Statements -/

theorem someCreated (ps : List Term) : P (someCreated sort p ps) := h.bind_binder fun _ => h.pure _

theorem creationAxioms {c : ClassId} : P (creationAxioms L c sort p) :=
  h.bind (h.axiomOver h.someCreated) fun _ => h.bind h.contextBinders fun _ => h.bind_binder fun _ => h.bind h.get fun _ =>
    h.bind (h.emit _) fun _ => h.bind_binder fun _ => h.bind_binder fun _ => h.emit _

theorem createdSlot (ps : List Term) : P (createdSlot sort before after p ps) := h.bind_binder fun _ => h.pure _

theorem takenSlot (ps : List Term) : P (takenSlot exits sort d merged ps) := h.bind_binder fun _ => h.pure _

theorem mergeSlot : P (mergeSlot exits sort) :=
  h.bind h.depth fun _ => h.bind h.freshSlot fun _ => h.bind (h.axiomOver h.takenSlot) fun _ => h.pure _

theorem oneTaken (ps : List Term) : P (oneTaken indicators ps) := h.pure _

theorem keptOrAdded (ps : List Term) : P (keptOrAdded f written before after new ps) :=
  h.bind_binder fun _ => h.bind_binder fun _ => h.bind_binder fun _ => h.bind h.get fun _ => h.pure _

theorem mergeIterations : P (mergeIterations f body written) :=
  h.bind h.freshSlot fun _ => h.bind (h.axiomOver h.keptOrAdded) fun _ => h.pure _

theorem threadedSlot (ps : List Term) : P (threadedSlot f order written before after start ps) :=
  h.bind_binder fun _ => h.bind_binder fun _ => h.bind_binder fun _ => h.pure _

theorem threadSlot : P (threadSlot f order pre body input) := h.axiomOver h.threadedSlot

theorem nothingIterated : P (nothingIterated f params) := h.bind_binder fun _ => h.bind h.get fun _ => h.pure _

theorem lastSlot (ps : List Term) : P (lastSlot f order written before after new ps) :=
  h.bind h.nothingIterated fun _ => h.bind_binder fun _ => h.bind_binder fun _ => h.bind_binder fun _ => h.pure _

theorem exitSlot : P (exitSlot f order pre body written) :=
  h.bind h.freshSlot fun _ => h.bind (h.axiomOver h.lastSlot) fun _ => h.pure _

theorem lastValue {before after : ObjValue} (hbefore : ∀ ps o, P (member L before ps o)) (hafter : ∀ ps o, P (member L after ps o))
    (ps : List Term) : P (lastValue L f order sort p before after ps) :=
  h.bind h.nothingIterated fun _ => h.bind_binder fun _ => h.bind (hbefore _ _) fun _ => h.bind_binder fun _ => h.bind_binder fun _ =>
    h.bind (hafter _ _) fun _ => h.pure _

/-! ### Parameters, creations and final slots -/

theorem paramAxioms {c : ClassId} : P (paramAxioms L c bounds pred) := by
  refine h.bind_binder fun _ => h.bind (h.emit _) fun _ => h.bind (h.fresh (Fresh.takes_atLeast _ _ _)) fun _ =>
    h.bind (h.emit _) fun _ => ?_
  split
  · exact h.bind (h.fresh (Fresh.takes_atMost _ _ _)) fun _ => h.emit _
  · exact h.pure _

theorem finalSlot : P (finalSlot sort) :=
  h.bind h.get fun _ => h.bind (h.rootPred _ _) fun _ => h.bind_binder fun _ => h.bind h.get fun _ => h.emit _

theorem createdOnce : P (Encode.createdOnce sort c) := by
  unfold Encode.createdOnce
  split
  · exact h.pure _
  · exact h.bind (h.fresh (Fresh.takes_binders _)) fun _ => h.bind (h.fresh (Fresh.takes_binders _)) fun _ => h.bind_binder fun _ =>
      h.emit _

theorem createdApart : P (createdApart sort c d) :=
  h.bind (h.fresh (Fresh.takes_binders _)) fun _ => h.bind (h.fresh (Fresh.takes_binders _)) fun _ => h.bind_binder fun _ => h.emit _

theorem distinctCreations : ∀ creations : List Creation, P (distinctCreations sort creations)
  | [] => h.pure _
  | _ :: rest => h.bind h.createdOnce fun _ => h.bind (h.forM (fun _ => h.createdApart) _) fun _ => distinctCreations rest

theorem distinctAxioms : P (distinctAxioms L) := h.bind h.get fun _ => h.forM (fun _ => h.distinctCreations _) _

end Adding

/-! ## Formulas -/

/-- The property holds of the steps that compare sets whose values are known. -/
structure Comparing (L : Layout) (P : ∀ {α : Type}, Encode α → Prop) : Prop extends Sequential P where
  binder : ∀ sort, P (Encode.binder sort)
  member : ∀ v ps o, P (Encode.member L v ps o)

/-- The property holds of the steps that formulas are encoded with; a new predicate is made for an `unknown` only. -/
structure Plain (L : Layout) (P : ∀ {α : Type}, Encode α → Prop) : Prop extends Comparing L P where
  objSet : ∀ scope e, P (Encode.objSet L true scope e)

section Comparing

variable {L : Layout} (h : Comparing L P) (scope : Scope)

include h

theorem comparing_comparable : ∀ (es : List ObjExpr) (joined : Option ObjType),
    (∀ e ∈ es, P (objSet L true scope e)) → P (comparable L scope es joined)
  | [], _, _ => h.pure _
  | e :: rest, joined, hes => by
    obtain ⟨he, hrest⟩ := List.forall_mem_cons.1 hes
    refine h.bind he fun p => ?_
    cases joined with
    | none => exact h.bind (h.pure _) fun _ => h.bind (comparing_comparable rest _ hrest) fun _ => h.pure _
    | some before =>
      exact h.bind (h.typed _) fun _ => h.bind (comparing_comparable rest _ hrest) fun _ => h.pure _

theorem comparing_equalSets (params : List Term) (hsets : ∀ e ∈ sets, P (objSet L true scope e)) :
    P (equalSets L scope params sets) := by
  refine h.bind (comparing_comparable h scope sets none hsets) fun p => ?_
  dsimp only
  split
  · refine h.bind (h.lift _) fun sort => ?_
    cases sort with
    | none => exact h.pure _
    | some sort =>
      exact h.bind (h.binder _) fun _ => h.bind (h.member _ _ _) fun _ =>
        h.bind (h.mapM (fun _ => h.bind (h.member _ _ _) fun _ => h.pure _) _) fun _ => h.pure _
  · exact h.pure _

theorem comparing_includedSet (params : List Term) {within : ObjExpr} (hset : P (objSet L true scope set))
    (hwithin : P (objSet L true scope within)) : P (includedSet L scope params set within) := by
  refine h.bind hset fun p => h.bind hwithin fun q => ?_
  dsimp only
  split
  · exact h.pure _
  · refine h.bind (h.typed _) fun type => h.bind (h.lift _) fun sort => ?_
    cases sort with
    | none => exact h.pure _
    | some sort =>
      exact h.bind (h.binder _) fun _ => h.bind (h.member _ _ _) fun _ =>
        h.bind (h.member _ _ _) fun _ => h.pure _

theorem comparing_emptySet (params : List Term) {set : ObjExpr} (hset : P (objSet L true scope set)) :
    P (emptySet L scope params set) := by
  refine h.bind hset fun p => h.bind (h.lift _) fun sort => ?_
  cases sort with
  | none => exact h.pure _
  | some sort => exact h.bind (h.binder _) fun _ => h.bind (h.member _ _ _) fun _ => h.pure _

end Comparing

section Formulas

variable {L : Layout} (h : Plain L P)

include h

theorem plain_quantified (params : List Term) :
    ∀ (vars : List QuantVar) (scope : Scope), P (quantified L params vars scope)
  | [], _ => h.pure _
  | v :: rest, scope => by
    refine h.bind (h.objSet scope v.domain) fun p => h.bind (h.lift _) fun sort => ?_
    cases sort with
    | none => exact h.pure _
    | some sort =>
      refine h.bind (h.binder _) fun _ => h.bind (h.member _ _ _) fun _ =>
        h.bind (plain_quantified params rest _) fun q => ?_
      cases q <;> exact h.pure _

end Formulas

section Formulas

variable {L : Layout}

theorem plain_formulas (h : Plain L P)
    (hfs : ∀ f ∈ fs, ∀ {scope : Scope}, f.isDefinite = true ∨ P (unknown params) → P (formula L params f scope))
    (hu : FormulaExpr.allDefinite fs = true ∨ P (unknown params)) : P (formulas L params fs scope) := by
  induction fs with
  | nil => exact h.pure _
  | cons f rest ih =>
    obtain ⟨hf, hrest⟩ := List.forall_mem_cons.1 hfs
    rw [FormulaExpr.allDefinite, Bool.and_eq_true] at hu
    exact h.bind (hf (hu.imp_left And.left)) fun _ => h.bind (ih hrest (hu.imp_left And.right)) fun _ => h.pure _

/-- The property holds of the encoding of a formula, if this has no `unknown` or the property holds of making a predicate for one too. -/
theorem plain_formula (h : Plain L P) (params : List Term) (f : FormulaExpr) (scope : Scope)
    (hu : f.isDefinite = true ∨ P (unknown params)) : P (formula L params f scope) := by
  induction f generalizing scope with
  | literal value =>
    cases value with
    | true | false => exact h.pure _
    | unknown =>
      rcases hu with hu | hu
      · cases hu
      · exact hu
  | not f ih => exact h.bind (ih scope hu) fun _ => h.pure _
  | and parts ih | or parts ih | equiv parts ih =>
    exact h.bind (plain_formulas h (fun f hf scope => ih f hf scope) hu) fun _ => h.pure _
  | implies premise conclusion ihp ihc =>
    rw [FormulaExpr.isDefinite, Bool.and_eq_true] at hu
    exact h.bind (ihp scope (hu.imp_left And.left)) fun _ => h.bind (ihc scope (hu.imp_left And.right)) fun _ => h.pure _
  | equal sets => exact comparing_equalSets h.toComparing scope params fun e _ => h.objSet scope e
  | isIn set within => exact comparing_includedSet h.toComparing scope params (h.objSet scope set) (h.objSet scope within)
  | isEmpty set => exact comparing_emptySet h.toComparing scope params (h.objSet scope set)
  | forAll vars body ih | forSome vars body ih =>
    refine h.bind (plain_quantified h params vars scope) fun q => ?_
    cases q with
    | none => exact h.pure _
    | some q => exact h.bind (ih q.scope hu) fun _ => h.pure _

end Formulas

/-! ## Choices -/

/-- The property holds of reading slots, making predicates and stating axioms as well. -/
structure Choosing (L : Layout) (P : ∀ {α : Type}, Encode α → Prop) : Prop extends Comparing L P where
  slot : ∀ sort (value : Slot → ObjValue), P (get >>= fun s => Pure.pure (value (s.snapshot.slot sort)) : Encode ObjValue)
  freshPred : ∀ hint extra, P (Encode.freshPred hint extra)
  depth : P Encode.depth
  axiomOver : ∀ {build}, (∀ ps, P (build ps)) → P (Encode.axiomOver build)

namespace Choosing

variable {L : Layout} (h : Choosing L P)

include h

/-- A predicate with an axiom becomes a value. -/
theorem named (hint : String) (sort : SortId) {build : PredId → List Term → Encode Formula} (hbuild : ∀ p ps, P (build p ps)) :
    P (Encode.freshPred hint [sort] >>= fun p => Encode.depth >>= fun d => Encode.axiomOver (build p) >>= fun _ =>
      Pure.pure (ObjValue.pred p d)) :=
  h.bind (h.freshPred _ _) fun _ => h.bind h.depth fun _ => h.bind (h.axiomOver (hbuild _)) fun _ => h.pure _

theorem chooseSubset (v : ObjValue) (type : ObjType) : P (Encode.chooseSubset L v type) := by
  refine h.bind (h.lift _) fun sort => ?_
  cases sort with
  | none => exact h.pure _
  | some sort => exact h.named _ _ fun _ _ => h.bind (h.binder _) fun _ => h.bind (h.member _ _ _) fun _ => h.pure _

theorem chooseOne (v : ObjValue) (type : ObjType) : P (Encode.chooseOne L v type) := by
  refine h.bind (h.lift _) fun sort => ?_
  cases sort with
  | none => exact h.pure _
  | some sort =>
    refine h.named _ _ fun _ _ => h.bind (h.binder _) fun _ => h.bind (h.member _ _ _) fun _ => h.bind (h.binder _) fun _ => ?_
    exact h.bind (h.member _ _ _) fun _ => h.bind (h.binder _) fun _ => h.bind (h.binder _) fun _ => h.bind (h.binder _) fun _ =>
      h.pure _

theorem objValue (inFormula : Bool) (scope : Scope) (e : ObjExpr) : P (objValue L inFormula scope e) :=
  h.toSequential.objValue h.slot (fun _ v type => ⟨h.chooseSubset v type, h.chooseOne v type⟩) e

theorem objSet (inFormula : Bool) (scope : Scope) (e : ObjExpr) : P (objSet L inFormula scope e) :=
  h.checked L scope e (h.objValue inFormula scope e)

theorem plain : Plain L P := { h.toComparing with objSet := h.objSet true }

theorem unknown (params : List Term) : P (unknown params) :=
  h.bind (h.freshPred _ _) fun _ => h.bind h.depth fun _ => h.pure _

theorem formula (params : List Term) (f : FormulaExpr) (scope : Scope) : P (formula L params f scope) :=
  plain_formula h.plain params f scope (.inr (h.unknown params))

end Choosing

end Encode

end StoreCheck
