import StoreCheck.Proofs.Encoding.KnownValues

/-!
# Internal faults do not come up

The encoding has faults for states that no specification should lead to: a base relation without a tuple sort, a loop context
without a predicate or an order, a loop boundary outside a chained loop, and a loop that changes a sort outside of its plan. All
but the last never come up.

The plan of a loop comes from an analysis of its body, which starts with the types in front of the loop. The body changes planned
sorts only if that analysis sees the types of the flow throughout (`Flow.foreseeable`); otherwise the encoding can end in an
internal fault, as for `Hotel.renovation`.
-/

namespace StoreCheck

open List StoreCheck.Flow Layout Bool

variable {cs : Contexts} {k : SortId → SortId} {kinds : InternalFault → Prop} {types : TypeEnv} {t : Session} {var : String}
  {child : ContextId} {order : ChainOrder}

/-- At a loop, the analysis sees the types of the flow throughout the body. -/
def Flow.foreseeable (store : Store) (types : TypeEnv) : Statement → Bool
  | .forEach var domain body _ =>
    match infer store types domain with
    | .ok type => type.signature.isBottom || everywhereIn store (aligned store) (types.insert var type.single) body
    | .error _ => true
  | _ => true

/-- The faults of a loop that changes a sort outside of its plan are among the given kinds. -/
def CoversUnplanned (kinds : InternalFault → Prop) : Prop := ∃ var sort, kinds (.unplannedWrite var sort)

namespace Encode

variable {L : Layout} {s : Session} {v : ObjValue} {f : LoopFrame} {body : LoopBody}

/-- From a sorted session with the types of the flow the step does not end in an internal fault of the given kinds. -/
def NeverFaults (kinds : InternalFault → Prop) (k : SortId → SortId) (L : Layout) (types : TypeEnv) (run : Encode Unit) : Prop :=
  ∀ s, s.Placed k L → s.Follows types → Faultless kinds run s

/-! ## Updates -/

theorem calm_bind (name : String) (b : Binding) : Calm cs (bind name b) := .modify fun _ => rfl

theorem unmixed_checkTarget (type : ObjType) (r : Relation) : Unmixed (checkTarget L type r) := by
  unfold checkTarget
  split
  · exact .ok _
  · split
    · exact .ok _
    · exact .ok _
    · exact .error (ClassGraph.describe_ne _ _)

theorem faultless_assign (hL : L.Complete) (h : s.Placed k L) (var : String) (e : ObjExpr) : Faultless kinds (assign L var e) s := by
  refine .get_bind (Yields.faultless (Q := fun _ => True) (.bind (yields_objSet hL h.scope.known e) fun p hp => ?_))
  dsimp only
  split
  · exact calm_bind _ _
  · refine .bind (yields_sortOf hp.type) fun a _ => ?_
    cases a with
    | none => exact calm_bind _ _
    | some sort => exact .bind (calm.define (calm_member hp.value)) fun _ _ => calm_bind _ _

theorem calm_create (className : String) (var : Option String) : Calm cs (create L className var) := by
  refine .bind (.typed (unmixed_resolve _)) fun c _ => .bind (calm.freshPred _ _) fun p _ => .bind calm.depth fun _ _ => ?_
  refine .bind calm.creationAxioms fun _ _ => .bind .get fun _ _ => .bind calm.freshSlot fun _ _ => ?_
  refine .bind (calm.axiomOver calm.createdSlot) fun _ _ => .bind (.modify fun _ => rfl) fun _ _ => ?_
  cases var with
  | none => exact .pure trivial
  | some name => exact calm_bind _ _

theorem faultless_delete (hlaid : L.Laid symbols) (h : s.Placed k L) (e : ObjExpr) :
    Faultless kinds (delete L e) s := by
  refine .get_bind (Yields.faultless (Q := fun _ => True)
    (.bind (yields_objSet (hlaid.complete) h.scope.known e) fun p hp => .bind (yields_sortOf hp.type) fun a _ => ?_))
  cases a with
  | none => exact .pure trivial
  | some sort =>
    refine .bind .get fun _ _ => .bind calm.freshSlot fun after _ => ?_
    refine .bind (calm.axiomOver (calm.deletedSlot (calm_member hp.value))) fun _ _ => ?_
    refine .bind (.mapM (R := fun _ => True) fun r hr => ?_) fun _ _ => .bind .get fun _ _ => .modify fun _ => rfl
    obtain ⟨i, -, hts⟩ := hlaid.lookup_base (r := r) (by
      unfold Store.incidentRelations at hr
      split at hr
      · cases hr
      · exact (mem_filter.1 hr).1)
    exact calm.pruneTuples (calm_member hp.value) ((Yields.lift (ObjValue.spares_tupleSort hts)).mono fun _ _ => trivial)

theorem faultless_updateTuples (hL : L.Complete) (h : s.Placed k L) (source : ObjExpr) (relation : String) (target : ObjExpr)
    (update : TupleUpdate) : Faultless kinds (updateTuples L source relation target update) s := by
  have hscope := h.scope.known
  refine .get_bind (Yields.faultless (Q := fun _ => True)
    (.bind (yields_objSet hL hscope source) fun p hp => .bind (yields_objSet hL hscope target) fun q hq => ?_))
  refine .bind (.typed (unmixed_relationOn _ _)) fun r hr => .bind (.typed (unmixed_checkTarget _ r)) fun _ _ => ?_
  obtain ⟨ts, hts⟩ := hL.tuples _ _ _ hr
  refine .bind (.lift (ObjValue.spares_tupleSort hts)) fun _ _ => .bind .get fun _ _ => .bind calm.freshSlot fun _ _ => ?_
  refine .bind (calm.axiomOver (calm.updatedSlot (calm_member ?_) (calm_member ?_))) fun _ _ => .modify fun _ => rfl
  · cases r.flipped
    · exact hp.value
    · exact hq.value
  · cases r.flipped
    · exact hq.value
    · exact hp.value

/-! ## Alternatives -/

/-- An alternative of a branch: its indicator is declared, and its encoding goes on from every session with the types of the flow. -/
structure Viable (kinds : InternalFault → Prop) (k : SortId → SortId) (L : Layout) (types : TypeEnv) (entry : Session)
    (a : PredId × Encode Unit) : Prop where
  pred : entry.HasPred k a.1 []
  grows : Keeps Session.Grows a.2
  places : Places k L types a.2
  faultless : NeverFaults kinds k L types a.2

/-- Alternatives that never fault, one after another. -/
theorem faultless_runAlternatives {entry : Session} (hentry : entry.Placed k L) (hfollows : entry.Follows types) :
    ∀ (alternatives : List (PredId × Encode Unit)), (∀ a ∈ alternatives, Viable kinds k L types entry a) →
      ∀ {s : Session}, s.Sorted k L → entry.Beside s → Faultless kinds (runAlternatives entry alternatives) s
  | [], _, _, _, _ => .pure _
  | (p, run) :: rest, hviable, s, hs, hover => by
    obtain ⟨hfirst, hrest⟩ := forall_mem_cons.1 hviable
    have hstart := placed_enterAlternative hentry hfirst.pred hs hover
    have hfollows' : (enterAlternative entry p s).Follows types := ⟨hfollows.alike, hfollows.distinct⟩
    refine .modify_bind (.bind (hfirst.faultless _ hstart hfollows') fun _ s1 h1 => .get_bind ?_)
    have hs1 : s1.Placed k L := hfirst.places _ _ hstart hfollows' h1
    have henter : s.Beside (enterAlternative entry p s) := ⟨s.extends_place _ _ _ _, rfl⟩
    have hover1 := (hover.trans henter).trans (hfirst.grows.of_ok h1).beside
    exact .bind (faultless_runAlternatives hentry hfollows rest hrest hs1.sorted hover1) fun _ _ _ => .pure _

theorem faultless_branch (h : s.Placed k L) (hfollows : s.Follows types)
    (hviable : ∀ a ∈ alternatives, Viable kinds k L types s a) : Faultless kinds (branch L alternatives) s := by
  have hruns := faultless_runAlternatives h hfollows alternatives hviable h.sorted (Session.Grows.refl s).beside
  refine .get_bind (.get_bind (.bind hruns fun exits _ _ => .modify_bind (.bind ?_ fun _ _ _ => .modifyGet _)))
  exact Yields.faultless (.mapM fun sort _ => calm.mergeSlot)

theorem faultless_ifElse (hlaid : L.Laid symbols) (hthen : Places k L types (block L thenBlock))
    (helse : Places k L types (block L elseBlock)) (hfthen : NeverFaults kinds k L types (block L thenBlock))
    (hfelse : NeverFaults kinds k L types (block L elseBlock)) :
    NeverFaults kinds k L types (ifElse L condition (block L thenBlock) (block L elseBlock)) := by
  intro s h hfollows
  refine .bind (calm.freshPred _ _).faultless fun taken s1 h1 => .bind (calm.freshPred _ _).faultless fun skipped s2 h2 => ?_
  refine .bind ?_ fun _ s3 h3 => ?_
  · refine .bind calm.contextBinders.faultless fun p u hu => .bind (.get_bind ?_) fun _ _ _ => .get_bind (calm.emit _).faultless
    have hq := (((quiet_freshPred _ _).of_ok h1).trans ((quiet_freshPred _ _).of_ok h2)).trans (quiet.contextBinders.of_ok hu)
    have hscope : u.scope.Known L u.contexts := by
      rw [hq.scope, hq.table]
      exact h.scope.known
    exact .bind (calm_formula (hlaid.complete) p.2 condition hscope).faultless fun _ _ _ => .pure _
  · obtain ⟨hs3, htaken, hskipped, hq⟩ := placed_decide hlaid h h1 h2 h3
    exact faultless_branch hs3 (hfollows.of_scope hq.scope)
      (Formula.forall_mem_pair ⟨htaken, grows_block L thenBlock, hthen, hfthen⟩ ⟨hskipped, grows_block L elseBlock, helse, hfelse⟩)

theorem faultless_either (hplaces : ∀ run ∈ blocks L bs, Places k L types run)
    (hfaults : ∀ run ∈ blocks L bs, NeverFaults kinds k L types run) : NeverFaults kinds k L types (either L (blocks L bs)) := by
  intro s h hfollows
  match bs, hplaces, hfaults with
  | [], _, _ =>
    exact .pure _
  | [b], _, hfaults =>
    rw [blocks, blocks] at hfaults ⊢
    exact hfaults (block L b) (by simp) s h hfollows
  | b1 :: b2 :: rest, hplaces, hfaults =>
    have hgrows := grows_blocks L (b1 :: b2 :: rest)
    refine .bind (Yields.faultless (.mapM (R := fun _ => True) fun _ _ => calm.freshPred _ _)) fun indicators s1 h1 => ?_
    refine .bind (calm.axiomOver fun ps => .pure trivial).faultless fun _ s2 h2 => ?_
    obtain ⟨hs2, hpreds, hq⟩ := placed_choose h h1 h2
    refine faultless_branch hs2 (hfollows.of_scope hq.scope) fun a ha => ?_
    obtain ⟨hindicator, hrun⟩ := of_mem_zip ha
    exact ⟨hpreds a.1 hindicator, hgrows a.2 hrun, hplaces a.2 hrun, hfaults a.2 hrun⟩

/-! ## Loops -/

/-- What the body of a loop changes is planned, if the analysis sees the types of the flow throughout the body. -/
theorem planned_of_changed (hlaid : L.Laid symbols) {type u : ObjType} {isLocal : Bool} {body : Block} {plan : LoopPlan}
    {entry : Session} (hfollows : entry.Follows types) (hsignature : u.signature = type.signature)
    (hplan : planLoop L entry.scope var type isLocal body = .ok plan)
    (haligned : everywhereIn L.store (aligned L.store) (VarMap.insert types var u.single) body = true)
    (hs : s.Placed k L) (hinside : s.Follows (VarMap.insert types var u.single)) (hrun : block L body s = .ok ((), t))
    {sort : SortId} (hsort : sort ∈ s.snapshot.difference t.snapshot) : sort ∈ plan.writes := by
  obtain ⟨effects, heffects, hplan⟩ := exceptBind_ok.1 hplan
  cases hplan
  obtain ⟨⟨⟨⟩, after⟩, hafter, heq⟩ := exceptBind_ok.1 heffects
  cases heq
  have hstart : Analysis.Follows (VarMap.insert types var u.single)
      ⟨VarMap.insert entry.scope.types var type.single, VarMap.insert entry.scope.locals var isLocal, .empty⟩ :=
    ⟨hfollows.alike.insert var hsignature, (Scope.distinct_types hfollows.distinct).insert var _⟩
  obtain ⟨d, hd, hdsort⟩ :=
    reported_block body haligned s t _ after hinside hstart hrun hafter sort (slot_ne_of_mem_difference hsort)
  have hlt : sort.index < sortCount L.store := by
    obtain ⟨i, hi, rfl⟩ := mem_map.1 (mem_of_mem_take (mem_filter.1 hsort).1)
    rw [← hs.snapshot.length]
    exact mem_range.1 hi
  exact mem_sortsOf.2 ⟨hlaid.mem_sorts.2 hlt, d, (EffectMap.mem_domainsWith_normalize after.effects _ d).2 hd, hdsort⟩

theorem faultless_loopBody {entry : Snapshot} (h : Faultless kinds f.body (enterBody f entry s)) :
    Faultless kinds (loopBody f entry) s :=
  .get_bind (.modify_bind (.bind h fun _ _ _ => .get_bind (.modify_bind (.pure _))))

theorem faultless_bodyChanges (h : CoversUnplanned kinds → ∀ sort ∈ body.entry.difference body.out, sort ∈ f.plan.writes) :
    Faultless kinds (bodyChanges f body) s := by
  unfold bodyChanges
  cases hfind : (body.entry.difference body.out).find? fun sort => !f.plan.writes.contains sort with
  | none =>
    simp only [hfind]
    exact .pure _
  | some sort =>
    simp only [hfind]
    refine .get_bind (.throw fun hkind => ?_)
    have hplanned := h ⟨_, _, hkind⟩ sort (mem_of_find?_eq_some hfind)
    have hunplanned := find?_some hfind
    simp [hplanned] at hunplanned

theorem faultless_inContext {α : Type} {run : Encode α} (h : Faultless kinds run (s.inContext child)) :
    Faultless kinds (inContext child run) s := .get_bind (.modify_bind (.bind h fun _ _ _ => .modify_bind (.pure _)))

/-- The body never faults, and changes planned sorts only where that matters. -/
structure Foreseen (kinds : InternalFault → Prop) (f : LoopFrame) (s : Session) : Prop where
  faultless : Faultless kinds f.body s
  planned : CoversUnplanned kinds → ∀ t, f.body s = .ok ((), t) → ∀ sort ∈ s.snapshot.difference t.snapshot, sort ∈ f.plan.writes

theorem Foreseen.bodyChanges {entry : Snapshot} {u : Session} (h : Foreseen kinds f (enterBody f entry s))
    (hrun : loopBody f entry s = .ok (body, t)) : Faultless kinds (bodyChanges f body) u := by
  obtain ⟨s1, h1, rfl, -⟩ := loopBody_ok hrun
  exact faultless_bodyChanges fun hkinds => h.planned hkinds s1 h1

theorem faultless_checkFlat (table : Symbols) (f : LoopFrame) : Faultless kinds (liftM (checkFlat table f) : Encode Unit) s := by
  refine .lift ?_
  simp only [checkFlat]
  split
  · exact .error id
  · split
    · exact .error id
    · exact .ok _

theorem faultless_flatLoop (h : Foreseen kinds f (enterBody f s.snapshot s)) : Faultless kinds (flatLoop f) s := by
  refine .get_bind (.bind (faultless_checkFlat _ f) fun _ s1 h1 => ?_)
  obtain ⟨_, -, heq⟩ := lift_ok.1 h1
  cases heq
  refine .bind (faultless_loopBody h.faultless) fun body s2 h2 => .bind (h.bodyChanges h2) fun changed s3 _ => ?_
  refine .bind ?_ fun _ _ _ => .modifyGet _
  exact Yields.faultless (.mapM fun sort _ => calm.mergeIterations)

theorem faultless_carryIn (h : s.scope.types.All L.graph.Uniform) (f : LoopFrame) (name : String) :
    Faultless kinds (carryIn L f name) s := by
  refine .get_bind ?_
  cases hbefore : s.scope.find? name with
  | none => exact .throw id
  | some before =>
    refine .bind (yields_sortOf (Scope.all_binding h hbefore)).faultless fun a _ _ => ?_
    cases a with
    | none => exact .throw id
    | some sort => exact .bind (calm.freshPred _ _).faultless fun _ _ _ => .bind (.modifyGet _) fun _ _ _ => .pure _

theorem faultless_iterationInputs (h : s.scope.types.All L.graph.Uniform) (f : LoopFrame) :
    Faultless kinds (iterationInputs L f) s := by
  refine .bind (Yields.faultless (.mapM (R := fun _ => True) fun sort _ =>
    .bind calm.freshSlot fun _ _ => .pure trivial)) fun inputs s1 h1 => .bind ?_ fun _ _ _ => .pure _
  have hq : s.Quiet s1 := (Keeps.mapM (fun sort => Keeps.bind quiet.freshSlot fun _ => Keeps.pure _) _).of_ok h1
  rw [← hq.scope] at h
  refine .mapM (P := fun s : Session => s.scope.types.All L.graph.Uniform) (fun name _ _ h => faultless_carryIn h f name) ?_ h
  intro name _ s carry t h hrun
  obtain ⟨before, sort, p, s1, hbefore, -, hp, -, rfl⟩ := carryIn_ok hrun
  rw [Session.bind, Scope.types_insert, ((quiet_freshPred _ _).of_ok hp).scope]
  exact h.insert name (t := before.type) (Scope.all_binding h hbefore)

theorem calm_threadCarry (h : body.scope.Known L cs) (carry : Carry) : Calm cs (threadCarry L body carry) := by
  unfold threadCarry
  cases hfind : body.scope.find? carry.name with
  | none => exact .pure trivial
  | some after =>
    exact .bind (.typed (unmixed_join _ _)) fun _ _ => calm.axiomOver (calm.sameMembers (calm_member (h _ _ hfind).value))

theorem calm_threads {pre : Snapshot} {carries : List Carry} {inputs : List (SortId × Slot)} (h : body.scope.Known L cs) :
    Calm cs (threads L f order pre body carries inputs) := by
  refine .bind (.forM fun carry _ => calm_threadCarry h carry) fun _ _ => ?_
  exact calm.forM (fun _ => calm.threadSlot) _

theorem calm_exitValue (hg : L.graph.Coherent) {pre : Scope} (hpre : pre.Known L cs) (hbody : body.scope.Known L cs) (name : String) :
    Calm cs (exitValue L f order pre body name) := by
  unfold exitValue
  cases hbefore : pre.find? name with
  | none => exact .pure trivial
  | some before =>
    cases hafter : body.scope.find? name with
    | none => exact .pure trivial
    | some after =>
      have hb := hpre _ _ hbefore
      have ha := hbody _ _ hafter
      refine .bind (.typed (unmixed_join _ _)) fun type htype => ?_
      refine .bind (yields_sortOf (hg.hereditary_uniform.joinType htype hb.type ha.type)) fun a _ => ?_
      cases a with
      | none => exact calm_bind _ _
      | some sort =>
        refine .bind (calm.freshPred _ _) fun p _ => .bind calm.depth fun _ _ => ?_
        exact .bind (calm.axiomOver (calm.lastValue (calm_member hb.value) (calm_member ha.value))) fun _ _ => calm_bind _ _

/-- A chained loop never faults, if its body is foreseen. -/
theorem faultless_chainedLoop (hg : L.graph.Coherent) (h : s.Placed k L) (hf : f.Sorted L s) (hkind : (s.contexts.get f.child).kind = .chained order)
    (hgrows : Keeps Session.Grows f.body)
    (hbody : ∀ inputs carries s1, iterationInputs L f (s.inContext f.child) = .ok ((inputs, carries), s1) →
      Foreseen kinds f (enterBody f (s.snapshot.withSlots inputs) (s1.inContext s.context)) ∧
      ∀ t, f.body (enterBody f (s.snapshot.withSlots inputs) (s1.inContext s.context)) = .ok ((), t) → t.Placed k L) :
    Faultless kinds (chainedLoop L f) s := by
  refine .get_bind ?_
  simp only [hkind]
  have htypes := h.scope.known.all
  refine .bind (faultless_inContext (faultless_iterationInputs (s := s.inContext f.child) htypes f)) fun made s1' hmade => ?_
  obtain ⟨inputs, carries⟩ := made
  obtain ⟨s1, h1, rfl⟩ := inContext_ok hmade
  obtain ⟨hforeseen, hplaced⟩ := hbody inputs carries s1 h1
  refine .bind (faultless_loopBody hforeseen.faultless) fun body s2 h2 => ?_
  -- the values before the loop and at the end of the body refer to what is there
  have hs := h.sorted
  have hin := sorted_iterationInputs h hf hkind h1
  have hmade1 : s.Extends s1 := (s.extends_place _ _ _ _).trans hin.grows.extends
  have hback := sorted_back hs hin.sorted hmade1 hin.grows.guards
  obtain ⟨hs2, hgrow2, -, hout, -⟩ := sorted_loopBody hback hgrows hplaced h2
  have hbeside2 : s.Beside s2 := ⟨(hmade1.trans (s1.extends_place _ _ _ _)).trans hgrow2.extends, hgrow2.context⟩
  have hpre : s.scope.Known L s2.contexts := (h.scope.beside hs hbeside2).known
  have hafter : body.scope.Known L s2.contexts := hout.scope.known
  refine .modify_bind (.bind (hforeseen.bodyChanges h2) fun _ _ hchanges => ?_)
  obtain ⟨rfl, -, -⟩ := bodyChanges_ok hchanges
  let inside := Session.inContext { s2 with scope := s.scope } f.child
  have hthreads : Calm inside.contexts (threads L f order s.snapshot body carries inputs) := calm_threads hafter
  refine .bind (faultless_inContext hthreads.faultless) fun _ s3' hinside => ?_
  obtain ⟨s3, h3, rfl⟩ := inContext_ok hinside
  have htable : s3.contexts = s2.contexts := (hthreads.of_ok h3).1
  rw [← htable] at hpre hafter
  refine Yields.faultless (s := s3.inContext s2.context) (Q := fun _ => True) ?_
  refine .bind (.mapM (R := fun _ => True) fun input _ => calm.exitSlot) fun changes _ => ?_
  exact .bind (.modify fun _ => rfl) fun _ _ => .forM fun name _ => calm_exitValue hg hpre hafter name

theorem faultless_contextAxioms (hlive : (s.contexts.get child).live = some live) (h : v.Known L s.contexts) (var : String)
    (sort : SortId) : Faultless kinds (contextAxioms L child var sort v) s := by
  refine .get_bind ?_
  simp only [hlive]
  refine .bind (calm.axiomOver (calm.sameMembers (calm_member h))).faultless fun _ _ _ => .bind (.modifyGet _) fun _ _ _ => ?_
  refine .bind (calm.emit _).faultless fun _ _ _ => .bind (.modifyGet _) fun _ _ _ => ?_
  exact Yields.faultless (.forM fun _ _ => calm.emit _)

/-- A loop never faults, if its body does not and its writes are planned. -/
theorem faultless_forEach (hlaid : L.Laid symbols) {domain : ObjExpr} {body : Block}
    {order : LoopKind} (hbody : ∀ u, infer L.store types domain = .ok u → u.signature.isBottom = false →
      (CoversUnplanned kinds → everywhereIn L.store (aligned L.store) (VarMap.insert types var u.single) body = true) ∧
      Places k L (VarMap.insert types var u.single) (block L body) ∧
      NeverFaults kinds k L (VarMap.insert types var u.single) (block L body)) :
    NeverFaults kinds k L types (forEach L var domain body order (block L body)) := by
  intro s h hfollows
  refine .get_bind (.bind (yields_objSet (hlaid.complete) h.scope.known domain).faultless fun p s1 h1 => ?_)
  obtain ⟨value, type⟩ := p
  obtain ⟨u, hu, hsignature⟩ := hfollows.infer (objSet_ok h1).1
  refine .bind (yields_sortOf (h.scope.known.infer hlaid.store (objSet_ok h1).1)).faultless fun a s1' hlift => ?_
  obtain ⟨_, hsort, heq⟩ := lift_ok.1 hlift
  cases heq
  cases a with
  | none => exact .pure _
  | some sort =>
    have hplans : Unmixed (planLoop L s.scope var type (s.scope.isLocal domain) body) :=
      .bind (Analysis.unmixed_collect _ _ ((Analysis.walking_unmixed _).runBlock body)) fun _ _ => .ok _
    refine .bind (Yields.typed hplans).faultless fun plan s1' htyped => ?_
    obtain ⟨_, hplan, heq⟩ := typed_ok.1 htyped
    cases heq
    refine .bind (.modifyGet _) fun child s2 h2 => ?_
    obtain ⟨a, ha, hv, hs1⟩ := placed_objSet hlaid h h1
    obtain rfl : a = some sort := Except.ok.inj (ha.symm.trans hsort)
    have hvalue := hasValue_addContext hs1.sorted ⟨hv.fits.sorted, hv.settled⟩ h2
    obtain ⟨live, hlive⟩ := live_addContext h2
    refine .bind (faultless_contextAxioms hlive hvalue.sorted.known var sort) fun _ s3 h3 => ?_
    obtain ⟨hs3, hf, hscope⟩ := placed_startLoop hlaid (block L body) h h1 hsort hplan h2 h3
    have hfollows3 := hfollows.of_scope hscope
    obtain ⟨haligned, hplaces, hfaults⟩ := hbody u hu (by rw [hsignature]; exact isBottom_of_sortOf_some hsort)
    have hforeseen : ∀ s4 : Session, s4.Placed k L → s4.Follows (VarMap.insert types var u.single) →
        Foreseen kinds (loopFrame var type (s.scope.isLocal domain) child sort plan (block L body)) s4 := fun s4 hs4 hinside =>
      ⟨hfaults s4 hs4 hinside, fun hkinds t ht written hwritten =>
        planned_of_changed hlaid hfollows hsignature hplan (haligned hkinds) hs4 hinside ht hwritten⟩
    cases order with
    | flat => exact faultless_flatLoop (hforeseen _ (placed_enterFlat hs3 hf) ((hfollows3.bind var _ hsignature).of_scope rfl))
    | chained =>
      obtain ⟨chain, hkind⟩ := chained_addContext h2
      have hkind3 : (s3.contexts.get child).kind = .chained chain := by
        rw [((quiet_contextAxioms L child var sort value).of_ok h3).table]
        exact hkind
      refine faultless_chainedLoop hlaid.store.graph (f := loopFrame var type (s.scope.isLocal domain) child sort plan (block L body)) hs3 hf hkind3
        (grows_block L body) fun inputs carries s4 hinputs => ?_
      have hfollows4 : s4.Follows types :=
        follows_iterationInputs (s := s3.inContext child) ⟨hfollows3.alike, hfollows3.distinct⟩ hinputs
      have hplaced := placed_enterChained hs3 hf hkind3 hinputs
      exact ⟨hforeseen _ hplaced ((hfollows4.bind var _ hsignature).of_scope rfl),
        fun t ht => hplaces _ _ hplaced ((hfollows4.bind var _ hsignature).of_scope rfl) ht⟩

/-! ## Statements and blocks -/

mutual

/-- A statement never faults, if its loops are foreseeable where unplanned writes matter. -/
theorem faultless_statement (hk : Loose k) (hlaid : L.Laid symbols) : ∀ (st : Statement)
    {types : TypeEnv}, (CoversUnplanned kinds → everywhere L.store (foreseeable L.store) types st = true) →
    NeverFaults kinds k L types (statement L st)
  | .assign var value, _, _ => by
    exact fun s h _ => faultless_assign (hlaid.complete) h var value
  | .create className var, _, _ => by
    exact fun s _ _ => (calm_create className var).faultless
  | .delete objects, _, _ => by
    exact fun s h _ => faultless_delete hlaid h objects
  | .createTuple source relation target, _, _ => by
    exact fun s h _ => faultless_updateTuples (hlaid.complete) h source relation target .add
  | .deleteTuple source relation target, _, _ => by
    exact fun s h _ => faultless_updateTuples (hlaid.complete) h source relation target .remove
  | .ifElse condition thenBlock elseBlock, _, hloops => by
    simp only [everywhere, and_eq_true] at hloops
    exact faultless_ifElse hlaid (placed_block hlaid thenBlock (.inr hk)) (placed_block hlaid elseBlock (.inr hk))
      (faultless_block hk hlaid thenBlock fun hkinds => (hloops hkinds).1.2)
      (faultless_block hk hlaid elseBlock fun hkinds => (hloops hkinds).2)
  | .either branches, _, hloops => by
    simp only [everywhere, and_eq_true] at hloops
    exact faultless_either (placed_blocks hlaid branches (.inr hk))
      (faultless_blocks hk hlaid branches fun hkinds => (hloops hkinds).2)
  | .forEach var domain body order, _, hloops => by
    simp only [everywhere, foreseeable, and_eq_true] at hloops
    refine faultless_forEach hlaid fun u hu hbottom =>
      ⟨fun hkinds => ?_, placed_block hlaid body (.inr hk), faultless_block hk hlaid body fun hkinds => ?_⟩
    · have haligned := (hloops hkinds).1
      simpa only [hu, hbottom, Bool.false_or] using haligned
    · have hinside := (hloops hkinds).2
      simpa only [hu, hbottom, Bool.false_or] using hinside

theorem faultless_block (hk : Loose k) (hlaid : L.Laid symbols) : ∀ (b : List Statement)
    {types : TypeEnv}, (CoversUnplanned kinds → everywhereIn L.store (foreseeable L.store) types b = true) →
    NeverFaults kinds k L types (block L b)
  | [], _, _ => by
    exact fun s _ _ => .pure _
  | st :: rest, types, hloops => by
    simp only [everywhereIn, and_eq_true] at hloops
    intro s h hfollows
    refine .bind (faultless_statement hk hlaid st (fun hkinds => (hloops hkinds).1) s h hfollows) fun _ s1 h1 => ?_
    have hs1 := placed_statement hlaid st (.inr hk) s s1 h hfollows h1
    obtain ⟨mid, hmid, hfollows1⟩ := flows_statement st types s s1 hfollows h1
    refine faultless_block hk hlaid rest (fun hkinds => ?_) s1 hs1 hfollows1
    have hrest := (hloops hkinds).2
    simpa only [hmid] using hrest

theorem faultless_blocks (hk : Loose k) (hlaid : L.Laid symbols) : ∀ (bs : List (List Statement))
    {types : TypeEnv}, (CoversUnplanned kinds → everywhereInAll L.store (foreseeable L.store) types bs = true) →
    ∀ run ∈ blocks L bs, NeverFaults kinds k L types run
  | [], _, _, _, hrun => by simp [blocks] at hrun
  | b :: rest, _, hloops, run, hrun => by
    simp only [everywhereInAll, and_eq_true] at hloops
    rcases mem_cons.1 hrun with rfl | hrun
    · exact faultless_block hk hlaid b fun hkinds => (hloops hkinds).1
    · exact faultless_blocks hk hlaid rest (fun hkinds => (hloops hkinds).2) run hrun

end

/-! ## Goals -/

theorem calm_param (p : Param) : Calm cs (param L p) := by
  refine .bind (.typed (unmixed_resolve _)) fun c _ => ?_
  have hcount : Spares (EncodeError.Unexpected fun _ => True) (p.cardinality.checkCount ("parameter " ++ p.name)) := by
    unfold Cardinality.checkCount
    split
    · exact .error id
    · exact .ok _
  split
  · refine .bind (.throw (Q := fun _ => True) id) fun _ _ => .bind (.lift hcount) fun _ _ => ?_
    exact .bind (calm.rootPred _ _) fun _ _ => .bind calm.paramAxioms fun _ _ => calm_bind _ _
  · refine .bind (.lift hcount) fun _ _ => .bind (calm.rootPred _ _) fun _ _ => ?_
    exact .bind calm.paramAxioms fun _ _ => calm_bind _ _

theorem faultless_action (hk : Loose k) (hlaid : L.Laid symbols) {a : Action}
    (hloops : CoversUnplanned kinds → everywhereOf L.store (foreseeable L.store) a = true) (h : s.Placed k L)
    (hfollows : s.Follows []) (hroot : s.paramSorts = []) : Faultless kinds (action L a) s := by
  refine .bind (Yields.faultless (.forM fun p _ => calm_param p)) fun _ s1 h1 => ?_
  obtain ⟨hs1, hroot1⟩ := placed_params hlaid h hroot h1
  obtain ⟨types, htypes, hfollows1, -⟩ := follows_params a.params hfollows h1
  refine .bind (faultless_block hk hlaid a.block (fun hkinds => ?_) s1 hs1 hfollows1) fun _ _ _ => ?_
  · have hall := hloops hkinds
    unfold everywhereOf at hall
    simpa only [htypes] using hall
  · refine .bind calm.distinctAxioms.faultless fun _ _ _ => ?_
    exact Yields.faultless (.forM fun sort _ => calm.finalSlot)

theorem calm_closedFormulas (hL : L.Complete) (σ : Snapshot) (fs : List FormulaExpr) : Calm cs (closedFormulas L σ fs) :=
  .bind (.modify fun _ => rfl) fun _ _ => .bind (calm_formulas (fun f _ => calm_formula hL [] f) fun _ _ h => by cases h) fun _ _ => .pure trivial

end Encode

variable {store : Store}

/-- A walk without unexpected errors gives a theory without them. -/
theorem spares_theoryOf (h : Faultless kinds (walk (ofStore store).1) (ofStore store).2) :
    Spares (EncodeError.Unexpected kinds) (theoryOf store name walk) := .bind h fun _ _ => .ok _

/-- The goal of an action ends in no unexpected error, if its loops are foreseeable where unplanned writes matter. -/
theorem spares_preservation (kinds : InternalFault → Prop) {action : Action} (hwf : store.WellFormed)
    (hloops : CoversUnplanned kinds → everywhereOf store (foreseeable store) action = true) (assumed checked : List FormulaExpr)
    (name : String) : Spares (EncodeError.Unexpected kinds) (preservationTheory store action assumed checked name) := by
  have heffects : Unmixed (action.effects store) := Analysis.unmixed_collect _ _
    (.bind (Analysis.unmixed_bindParams _) fun _ => (Analysis.walking_unmixed store).runBlock _)
  unfold preservationTheory
  cases hrun : action.effects store with
  | error e => exact .error fun hmixed => heffects e hmixed hrun
  | ok effects =>
    refine spares_theoryOf ?_
    have hlaid := laid_ofStore hwf
    have hstart := placed_start (k := fun _ => ⟨0⟩) hwf
    refine .bind (Encode.faultless_action (fun _ _ => rfl) hlaid hloops hstart (follows_start store) rfl) fun _ _ _ => ?_
    have hL := hlaid.complete
    refine .get_bind (.bind (Encode.calm_closedFormulas hL _ assumed).faultless fun _ _ _ => ?_)
    exact .bind (Encode.calm_closedFormulas hL _ checked).faultless fun _ _ _ => .pure _

theorem spares_consistency (hwf : store.WellFormed) (formulas : List FormulaExpr) (name : String) :
    Spares (EncodeError.Unexpected fun _ => True) (consistencyTheory store formulas name) := by
  refine spares_theoryOf ?_
  have hL := (laid_ofStore hwf).complete
  refine .bind (Yields.faultless (.forM fun f _ => ?_)) fun _ _ _ => .pure _
  exact .bind (Encode.calm_closedFormulas hL _ [f]) fun _ _ => Encode.calm.emit _

/-- Of the internal faults only unplanned writes come up, and these only in the goals of actions with a loop whose analysis does
not see the types of the flow. -/
theorem faults_unplanned (spec : Spec) (store : Store) (hspec : Store.ofSpec spec = .ok store) (name : String)
    (fault : InternalFault) :
    (∀ action assumed checked, preservationTheory store action assumed checked name = .error (.internal fault) →
      Flow.everywhereOf store (Flow.foreseeable store) action = false ∧ ∃ var sort, fault = .unplannedWrite var sort) ∧
    ∀ formulas, consistencyTheory store formulas name ≠ .error (.internal fault) := by
  have hwf := Store.wellFormed_ofSpec hspec
  refine ⟨fun action assumed checked hrun => ⟨?_, ?_⟩, fun formulas => spares_consistency hwf formulas name _ trivial⟩
  · by_contra hloops
    exact spares_preservation (fun _ => True) hwf (fun _ => by simpa using hloops) assumed checked name (.internal fault) trivial hrun
  · by_contra hfault
    refine spares_preservation (fun e => ¬ ∃ var sort, e = .unplannedWrite var sort) hwf (fun hkinds => ?_) assumed checked
      name (.internal fault) hfault hrun
    obtain ⟨var, sort, hnot⟩ := hkinds
    exact (hnot ⟨var, sort, rfl⟩).elim

namespace Hotel

/-- For each guest all rooms are removed; the variable that holds them is hidden by that of an inner loop. -/
def renovation : Action where
  name := "renovation"
  params := []
  block := [
    .forEach "g" (.allOf "Guest") [
      .assign "x" (.allOf "Room"),
      .forEach "x" (.allOf "Guest") [.assign "x" (.allOf "Guest")] .chained,
      .delete (.var "x")] .flat]

end Hotel

/-- Checking out has a goal without faults, as its loop is foreseeable. -/
theorem faults_unplanned_checkout :
    Flow.everywhereOf Hotel.store (Flow.foreseeable Hotel.store) Hotel.checkout = true ∧
    ∀ fault, preservationTheory Hotel.store Hotel.checkout [] [] "checkout" ≠ .error (.internal fault) := by
  have hloops : Flow.everywhereOf Hotel.store (Flow.foreseeable Hotel.store) Hotel.checkout = true := by decide +kernel
  refine ⟨hloops, fun fault hrun => ?_⟩
  have hfault := (faults_unplanned Hotel.spec Hotel.store Hotel.ofSpec_spec "checkout" fault).1 Hotel.checkout [] [] hrun
  exact absurd hfault.1 (by decide)

/-- A loop whose analysis does not see the types of the flow can end in a fault: the renovation deletes rooms, but the analysis of
its loop has no write. -/
theorem unplanned_write_renovation :
    preservationTheory Hotel.store Hotel.renovation [] [] "renovation" = .error (.internal (.unplannedWrite "g" "room")) :=
  eq_error_of_errorOf? (by decide +kernel)

end StoreCheck
