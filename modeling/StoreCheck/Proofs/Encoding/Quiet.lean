import StoreCheck.Proofs.Encoding.Laws

/-!
# Steps that touch neither the snapshot nor the scope

Every step of the encoding below the statements is quiet: naming values, choosing, encoding sets and formulas, and adding the
axioms of slots, branches and loops.
-/

namespace StoreCheck

open List

variable {s : Session}

namespace Encode

variable {α : Type}

/-! ## Primitive steps -/

theorem typed_ok {r : Except TypeError α} {p : α × Session} : typed r s = .ok p ↔ ∃ a, r = .ok a ∧ p = (a, s) := by
  unfold typed
  cases r with
  | ok a => simp [pure_ok]
  | error e => simp [throw_ok]

theorem typedBind_ok {β : Type} {r : Except TypeError α} {f : α → Encode β} {p : β × Session} :
    (typed r >>= f) s = .ok p ↔ ∃ a, r = .ok a ∧ f a s = .ok p := by
  simp [bind_ok, typed_ok]

theorem quiet_typed (r : Except TypeError α) : Keeps Session.Quiet (typed r) := by
  intro s a t h
  obtain ⟨a', -, h⟩ := typed_ok.1 h
  cases h
  exact .refl _

/-- Adding symbols and axioms and taking variables is quiet. -/
theorem quiet_with (hsymbols : s.symbols.Grows symbols) (hvars : s.vars.count ≤ vars.count) (haxioms : s.axioms <+: axioms) :
    s.Quiet { s with symbols, vars, axioms } where
  symbols := hsymbols
  vars := hvars
  contexts := prefix_refl _
  axioms := haxioms
  creations := prefix_refl _
  guards := rfl
  context := rfl
  table := rfl
  made := rfl
  snapshot := rfl
  scope := rfl

theorem quiet_setVars (s : Session) (g : VarGen) (h : s.vars.count ≤ g.count) : s.Quiet { s with vars := g } :=
  quiet_with (.refl _) h (prefix_refl _)

theorem quiet_fresh {f : Fresh α} (hf : f.Takes) : Keeps Session.Quiet (fresh f) :=
  Keeps.modifyGet fun s => quiet_setVars s _ (hf s.vars)

/-- A step that only takes variables. -/
theorem freshly_ok {f : FreshEncode α} {p : α × Session} :
    freshly f s = .ok p ↔ ∃ a g, f s.vars = .ok (a, g) ∧ p = (a, { s with vars := g }) := by
  unfold freshly
  rw [get_bind, bind_ok]
  simp only [lift_ok, Prod.mk.injEq, set_bind, pure_ok]
  constructor
  · rintro ⟨⟨a, g⟩, s', ⟨q, hq, rfl, rfl⟩, rfl⟩
    exact ⟨a, g, hq, rfl⟩
  · rintro ⟨a, g, hq, rfl⟩
    exact ⟨(a, g), s, ⟨_, hq, rfl, rfl⟩, rfl⟩

theorem quiet_freshly {f : FreshEncode α} (hf : Keeps VarGen.Le f) : Keeps Session.Quiet (freshly f) := by
  intro s a t h
  obtain ⟨a', g, hg, h⟩ := freshly_ok.1 h
  cases h
  exact quiet_setVars s g (hf _ _ _ hg)

theorem emit_ok : emit f s = .ok p ↔ p = ((), if f.isTop then s else { s with axioms := s.axioms ++ [f] }) := by
  unfold emit
  rw [modify_ok]

theorem quiet_emit (f : Formula) : Keeps Session.Quiet (emit f) := by
  refine Keeps.modify fun s => ?_
  split
  · exact .refl _
  · exact quiet_with (.refl _) (Nat.le_refl _) (prefix_append _ _)

theorem quiet_addPredicate (s : Session) (hint : String) (args : List SortId) :
    s.Quiet { s with symbols := (s.symbols.addPredicate hint args).2 } :=
  quiet_with (Symbols.grows_addPredicate _ _ _) (Nat.le_refl _) (prefix_refl _)

/-- A new predicate is quiet. -/
theorem quiet_freshPred (hint : String) (extra : List SortId) : Keeps Session.Quiet (freshPred hint extra) :=
  Keeps.modifyGet fun s => quiet_addPredicate s hint _

theorem sequential_keeps [StepOrder R] : Sequential (Keeps R) where
  pure := Keeps.pure
  throw := Keeps.throw
  lift := Keeps.lift
  bind := Keeps.bind

/-! ## Sets and formulas -/

theorem quiet_rootPred (hint : String) (sort : SortId) : Keeps Session.Quiet (rootPred hint sort) :=
  Keeps.modifyGet fun s => quiet_addPredicate s hint _

/-- Adding axioms is quiet. -/
theorem quiet : Adding (Keeps Session.Quiet) where
  pure := Keeps.pure
  bind := Keeps.bind
  get := Keeps.get
  fresh := quiet_fresh
  freshPred := quiet_freshPred
  rootPred := quiet_rootPred
  emit := quiet_emit

theorem depth_ok : depth s = .ok p ↔ p = (s.contexts.level s.context, s) := by
  unfold depth
  rw [get_bind, pure_ok]

/-- Building a membership formula only takes variables. -/
theorem quiet_member (L : Layout) (v : ObjValue) (params : List Term) (object : Term) :
    Keeps Session.Quiet (member L v params object) :=
  .bind .get fun _ => quiet_freshly (ObjValue.keeps_member L _ v params object)

theorem choosing_quiet (L : Layout) : Choosing L (Keeps Session.Quiet) where
  toSequential := sequential_keeps
  binder := quiet.binder
  member := quiet_member L
  slot _ _ := .bind .get fun _ => .pure _
  freshPred := quiet_freshPred
  depth := quiet.depth
  axiomOver := quiet.axiomOver

theorem quiet_objValue (L : Layout) (inFormula : Bool) (scope : Scope) (e : ObjExpr) :
    Keeps Session.Quiet (objValue L inFormula scope e) := (choosing_quiet L).objValue inFormula scope e

/-- The encoding of a set is quiet. -/
theorem quiet_objSet (L : Layout) (inFormula : Bool) (scope : Scope) (e : ObjExpr) :
    Keeps Session.Quiet (objSet L inFormula scope e) := (choosing_quiet L).objSet inFormula scope e

theorem quiet_formula (L : Layout) (params : List Term) (f : FormulaExpr) (scope : Scope) :
    Keeps Session.Quiet (formula L params f scope) := (choosing_quiet L).formula params f scope

theorem quiet_formulas (L : Layout) (params : List Term) (fs : List FormulaExpr) (scope : Scope) :
    Keeps Session.Quiet (formulas L params fs scope) :=
  plain_formulas (choosing_quiet L).plain (fun f _ scope _ => quiet_formula L params f scope) (.inr ((choosing_quiet L).unknown params))

/-! ## The axioms of statements -/

theorem quiet_choiceIndicators (n : Nat) : Keeps Session.Quiet (choiceIndicators n) :=
  .mapM (fun _ => quiet_freshPred _ _) _

theorem quiet_threadCarry (L : Layout) (body : LoopBody) (carry : Carry) :
    Keeps Session.Quiet (threadCarry L body carry) := by
  unfold threadCarry
  split
  · exact .pure _
  · exact .bind (quiet_typed _) fun _ => quiet.axiomOver (quiet.sameMembers (quiet_member L _))

/-- The axioms of a loop context are quiet. -/
theorem quiet_contextAxioms (L : Layout) (child : ContextId) (var : String) (sort : SortId) (domain : ObjValue) :
    Keeps Session.Quiet (contextAxioms L child var sort domain) := by
  refine .bind .get fun s => ?_
  dsimp only
  split
  · exact .throw _
  · exact .bind (quiet.axiomOver (quiet.sameMembers (quiet_member L domain))) fun _ =>
      .bind (quiet_fresh (Fresh.takes_nestingAxiom _ _)) fun _ => .bind (quiet_emit _) fun _ =>
      .bind (quiet_fresh (Fresh.takes_orderAxioms _ _)) fun _ => .forM (fun _ => quiet_emit _) _

theorem quiet_decided (L : Layout) (condition : FormulaExpr) (taken skipped : PredId) (ps : List Term) :
    Keeps Session.Quiet (decided L condition taken skipped ps) :=
  .bind .get fun _ => .bind (quiet_formula L ps condition _) fun _ => .pure _

end Encode

end StoreCheck
