import StoreCheck.Proofs.Encoding.Inversion

/-!
# A walk only adds

Encoding a statement adds symbols, contexts, axioms and creations and takes none back, and it ends at the place of the nesting
where it began (`grows_statement`). Inside alternatives and loops the place is another one for a while, so what is said about
their parts leaves the place out (`Session.Extends`).
-/

namespace StoreCheck

open List Session Symbols

variable {t : Session} {L : Layout}

/-- Everything that the session has made stays. -/
structure Session.Extends (s t : Session) : Prop where
  symbols : s.symbols.Grows t.symbols
  vars : s.vars.count ≤ t.vars.count
  contexts : s.contexts.table <+: t.contexts.table
  axioms : s.axioms <+: t.axioms
  creations : s.creations <+: t.creations

namespace Session

variable {s : Session}

/-- Sessions are extended step by step. -/
theorem Extends.trans (h : s.Extends t) (h' : t.Extends u) : s.Extends u :=
  ⟨h.symbols.trans h'.symbols, Nat.le_trans h.vars h'.vars, h.contexts.trans h'.contexts, h.axioms.trans h'.axioms,
    h.creations.trans h'.creations⟩

theorem Grows.extends (h : s.Grows t) : s.Extends t := ⟨h.symbols, h.vars, h.contexts, h.axioms, h.creations⟩

theorem Extends.grows (h : s.Extends t) (hguards : t.guards = s.guards) (hcontext : t.context = s.context) : s.Grows t :=
  ⟨h.symbols, h.vars, h.contexts, h.axioms, h.creations, hguards, hcontext⟩

theorem grows_atSnapshot (s : Session) (σ : Snapshot) : s.Grows (s.atSnapshot σ) :=
  ⟨.refl _, Nat.le_refl _, prefix_refl _, prefix_refl _, prefix_refl _, rfl, rfl⟩

theorem grows_bind (s : Session) (name : String) (b : Binding) : s.Grows (s.bind name b) :=
  ⟨.refl _, Nat.le_refl _, prefix_refl _, prefix_refl _, prefix_refl _, rfl, rfl⟩

/-- The place that a session is at is nothing that it has made. -/
theorem extends_place (s : Session) (guards : List Guard) (context : ContextId) (σ : Snapshot) (scope : Scope) :
    s.Extends { s with guards := guards, context := context, snapshot := σ, scope := scope } :=
  ⟨.refl _, Nat.le_refl _, prefix_refl _, prefix_refl _, prefix_refl _⟩

end Session

namespace Encode

theorem grows_param (p : Param) : Keeps Session.Grows (param L p) := by
  intro s _ t h
  obtain ⟨c, pred, s1, s2, -, -, h1, h2, rfl⟩ := param_ok h
  have hq := ((quiet_rootPred _ _).of_ok h1).trans (quiet.paramAxioms.of_ok h2)
  exact hq.toGrows.trans (s2.grows_bind _ _)

theorem grows_assign (var : String) (e : ObjExpr) : Keeps Session.Grows (assign L var e) := by
  intro s _ t h
  obtain ⟨value, type, s1, v, s2, -, hq, rfl, -⟩ := assign_ok h
  exact hq.toGrows.trans (s2.grows_bind _ _)

theorem grows_created (sort : SortId) (after : Slot) (p : PredId) (s : Session) : s.Grows (created sort after p s) :=
  ⟨.refl _, Nat.le_refl _, prefix_refl _, prefix_refl _, prefix_append _ _, rfl, rfl⟩

theorem grows_create (className : String) (var : Option String) : Keeps Session.Grows (create L className var) := by
  intro s _ t h
  obtain ⟨c, p, s1, s2, after, s3, s4, -, -, -, -, -, hq, rfl⟩ := create_ok h
  have hgrows := hq.toGrows.trans (grows_created (L.classSort c) after p s4)
  cases var with
  | none => exact hgrows
  | some name => exact hgrows.trans (grows_bind _ _ _)

theorem grows_delete (e : ObjExpr) : Keeps Session.Grows (delete L e) := by
  intro s _ t h
  obtain ⟨value, type, s1, -, hq, ⟨-, rfl⟩ | ⟨sort, after, s2, s3, pruned, s4, -, -, -, -, hq', rfl⟩⟩ := delete_ok h
  · exact hq.toGrows
  · exact hq'.toGrows.trans (s4.grows_atSnapshot _)

theorem grows_updateTuples (source : ObjExpr) (relation : String) (target : ObjExpr) (update : TupleUpdate) :
    Keeps Session.Grows (updateTuples L source relation target update) := by
  intro s _ t h
  obtain ⟨_, _, s1, _, _, s2, r, ts, after, s3, s4, -, -, -, -, -, -, -, hq, rfl⟩ := updateTuples_ok h
  exact hq.toGrows.trans (s4.grows_atSnapshot _)

/-! ## Alternatives -/

theorem extends_runAlternatives (entry : Session) : ∀ (alternatives : List (PredId × Encode Unit)),
    (∀ a ∈ alternatives, Keeps Session.Grows a.2) → ∀ {s t : Session} {exits : List Exit},
    runAlternatives entry alternatives s = .ok (exits, t) → s.Extends t ∧ t.context = s.context
  | [], _, _, _, _, h => by
    obtain ⟨-, rfl⟩ := runAlternatives_nil_ok h
    exact ⟨(Session.Grows.refl _).extends, rfl⟩
  | (p, run) :: rest, hruns, s, _, _, h => by
    obtain ⟨s1, others, h1, h2, -⟩ := runAlternatives_cons_ok h
    have hrun := (hruns (p, run) mem_cons_self).of_ok h1
    have henter : s.Extends (enterAlternative entry p s) := s.extends_place _ _ _ _
    have hrest := extends_runAlternatives entry rest (fun a ha => hruns a (mem_cons_of_mem _ ha)) h2
    exact ⟨(henter.trans hrun.extends).trans hrest.1, hrest.2.trans hrun.context⟩

theorem grows_branch (hruns : ∀ a ∈ alternatives, Keeps Session.Grows a.2) : Keeps Session.Grows (branch L alternatives) := by
  intro s _ t h
  obtain ⟨exits, s1, changes, s2, h1, h2, rfl⟩ := branch_ok h
  obtain ⟨hext, hcontext⟩ := extends_runAlternatives s alternatives hruns h1
  have hq := (Keeps.mapM (fun sort => quiet.mergeSlot) _).of_ok h2
  have hleave : s1.Extends (leaveAlternatives s s1) := s1.extends_place _ _ _ _
  have hall : s.Extends s2 := (hext.trans hleave).trans hq.extends
  exact (hall.trans (s2.extends_place _ _ _ _)).grows hq.guards (hq.context.trans hcontext)

theorem grows_ifElse (condition : FormulaExpr) (hthen : Keeps Session.Grows thenRun) (helse : Keeps Session.Grows elseRun) :
    Keeps Session.Grows (ifElse L condition thenRun elseRun) := by
  intro s _ t h
  obtain ⟨taken, s1, skipped, s2, s3, -, -, -, hq, h4⟩ := ifElse_ok h
  refine hq.toGrows.trans ((grows_branch ?_).of_ok h4)
  simp only [mem_cons, not_mem_nil, or_false, forall_eq_or_imp, forall_eq]
  exact ⟨hthen, helse⟩

theorem grows_either : ∀ {runs : List (Encode Unit)}, (∀ run ∈ runs, Keeps Session.Grows run) →
    Keeps Session.Grows (either L runs)
  | [], _ => .pure _
  | [only], hruns => hruns only mem_cons_self
  | first :: second :: rest, hruns => by
    intro s _ t h
    obtain ⟨indicators, s1, s2, -, -, hq, h3⟩ := either_ok h
    refine hq.toGrows.trans ((grows_branch fun a ha => ?_).of_ok h3)
    exact hruns a.2 (of_mem_zip ha).2

/-! ## Loops -/

variable {f : LoopFrame}

theorem grows_loopBody (hbody : Keeps Session.Grows f.body) (h : loopBody f entry s = .ok (body, t)) : s.Grows t := by
  obtain ⟨s1, h1, -, rfl⟩ := loopBody_ok h
  have hrun := hbody.of_ok h1
  have henter : s.Extends (enterBody f entry s) := s.extends_place _ _ _ _
  have hleave : s1.Extends (leaveBody entry s s1) := s1.extends_place _ _ _ _
  exact ((henter.trans hrun.extends).trans hleave).grows hrun.guards rfl

theorem grows_flatLoop (hbody : Keeps Session.Grows f.body) : Keeps Session.Grows (flatLoop f) := by
  intro s _ t h
  obtain ⟨body, s1, changes, s2, -, h1, -, h2, rfl⟩ := flatLoop_ok h
  have hq := (Keeps.mapM (fun sort => quiet.mergeIterations) _).of_ok h2
  exact ((grows_loopBody hbody h1).trans hq.toGrows).trans (s2.grows_atSnapshot _)

theorem quiet_inputSlot (sort : SortId) : Keeps Quiet (inputSlot sort) :=
  .bind quiet.freshSlot fun _ => .pure _

theorem grows_carryIn (f : LoopFrame) (name : String) : Keeps Session.Grows (carryIn L f name) := by
  intro s _ t h
  obtain ⟨before, sort, p, s1, -, -, h1, -, rfl⟩ := carryIn_ok h
  exact ((quiet_freshPred _ _).of_ok h1).toGrows.trans (s1.grows_bind _ _)

theorem grows_iterationInputs (f : LoopFrame) : Keeps Session.Grows (iterationInputs L f) := by
  intro s ⟨inputs, carries⟩ t h
  obtain ⟨s1, h1, h2⟩ := iterationInputs_ok h
  exact ((Keeps.mapM (fun sort => quiet_inputSlot sort) _).of_ok h1).toGrows.trans
    ((Keeps.mapM (fun name => grows_carryIn f name) _).of_ok h2)

theorem grows_exitValue (f : LoopFrame) (order : ChainOrder) (pre : Scope) (body : LoopBody) (name : String) :
    Keeps Session.Grows (exitValue L f order pre body name) := by
  intro s _ t h
  obtain ⟨-, rfl⟩ | ⟨before, after, type, v, s1, -, -, -, hq, rfl, -⟩ := exitValue_ok h
  · exact .refl _
  · exact hq.toGrows.trans (s1.grows_bind _ _)

theorem grows_chainedLoop (hbody : Keeps Session.Grows f.body) : Keeps Session.Grows (chainedLoop L f) := by
  intro s _ t h
  obtain ⟨order, inputs, carries, s1, body, s2, s3, changes, s4, -, h1, h2, -, h3, h4, h5⟩ := chainedLoop_ok h
  have hin : s.Extends (s.inContext f.child) := s.extends_place _ _ _ _
  have hinputs := (grows_iterationInputs f).of_ok h1
  have hout : s1.Extends (s1.inContext s.context) := s1.extends_place _ _ _ _
  have hrun := grows_loopBody hbody h2
  have hagain : s2.Extends { s2 with scope := s.scope, context := f.child } := s2.extends_place _ _ _ _
  have hthreads := (quiet_threads L f order s.snapshot body carries inputs).of_ok h3
  have hback : s3.Extends (s3.inContext s2.context) := s3.extends_place _ _ _ _
  have hslots := (Keeps.mapM (fun input : SortId × Slot => quiet.exitSlot) _).of_ok h4
  have hvalues := (Keeps.forM (fun name => grows_exitValue f order s.scope body name) _).of_ok h5
  have hmade := (((hin.trans hinputs.extends).trans hout).trans hrun.extends).trans
    ((hagain.trans hthreads.extends).trans (hback.trans hslots.extends))
  have hguards : s4.guards = s.guards :=
    hslots.guards.trans (hthreads.guards.trans (hrun.guards.trans hinputs.guards))
  have hcontext : s4.context = s.context := hslots.context.trans hrun.context
  exact (hmade.grows hguards hcontext).trans ((s4.grows_atSnapshot _).trans hvalues)

theorem grows_addContext (sort : SortId) (order : LoopKind) (var : String) :
    Keeps Session.Grows (addContext sort order var) := by
  intro s child t h
  obtain ⟨-, rfl⟩ := addContext_ok h
  refine ⟨?_, Nat.le_refl _, prefix_append _ _, prefix_refl _, prefix_refl _, rfl, rfl⟩
  cases order with
  | flat => exact grows_addPredicate _ _ _
  | chained =>
    exact ((((grows_addPredicate _ _ _).trans (grows_addPredicate _ _ _)).trans
      (grows_addPredicate _ _ _)).trans (grows_addPredicate _ _ _)).trans (grows_addPredicate _ _ _)

theorem grows_forEach (var : String) (domain : ObjExpr) (body : Block) (order : LoopKind) (hrun : Keeps Session.Grows run) :
    Keeps Session.Grows (forEach L var domain body order run) := by
  intro s _ t h
  obtain ⟨value, type, s1, h1, ⟨-, rfl⟩ | ⟨sort, plan, child, s2, s3, -, -, h2, h3, hflat, hchained⟩⟩ := forEach_ok h
  · exact ((quiet_objSet L false s.scope domain).of_ok h1).toGrows
  · have hgrows := (((quiet_objSet L false s.scope domain).of_ok h1).toGrows.trans
      ((grows_addContext sort order var).of_ok h2)).trans ((quiet_contextAxioms L child var sort value).of_ok h3).toGrows
    cases order with
    | flat => exact hgrows.trans ((grows_flatLoop hrun).of_ok (hflat rfl))
    | chained => exact hgrows.trans ((grows_chainedLoop hrun).of_ok (hchained rfl))

/-! ## Statements and blocks -/

mutual

theorem grows_statement (L : Layout) : ∀ st : Statement, Keeps Session.Grows (statement L st)
  | .assign var value => grows_assign var value
  | .create className var => grows_create className var
  | .delete objects => grows_delete objects
  | .createTuple source relation target => grows_updateTuples source relation target .add
  | .deleteTuple source relation target => grows_updateTuples source relation target .remove
  | .ifElse condition thenBlock elseBlock => by
    exact grows_ifElse condition (grows_block L thenBlock) (grows_block L elseBlock)
  | .either branches => grows_either (grows_blocks L branches)
  | .forEach var domain body order => grows_forEach var domain body order (grows_block L body)

/-- A block lets the session grow. -/
theorem grows_block (L : Layout) : ∀ b : List Statement, Keeps Session.Grows (block L b)
  | [] => by rw [block]; exact .pure _
  | st :: rest => by rw [block]; exact .bind (grows_statement L st) fun _ => grows_block L rest

theorem grows_blocks (L : Layout) : ∀ bs : List (List Statement), ∀ run ∈ blocks L bs, Keeps Session.Grows run
  | [], _, h => by simp [blocks] at h
  | b :: rest, run, h => by
    rcases mem_cons.1 h with rfl | h
    · exact grows_block L b
    · exact grows_blocks L rest run h

end

theorem grows_walk (L : Layout) (a : Action) : Keeps Session.Grows (walk L a) :=
  .bind (Keeps.forM (fun p => grows_param p) _) fun _ => grows_block L a.block

end Encode

end StoreCheck
