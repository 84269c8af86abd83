import StoreCheck.Proofs.Encoding.Quiet

/-!
# The steps of each statement

What a statement does is read off here once: if its encoding succeeds, then so do its steps, in this order and from these
sessions. Everything that is shown about encoded statements starts from these lemmas.
-/

namespace StoreCheck

variable {name var : String} {s t entry : Session} {snapshot : Snapshot} {L : Layout} {e : ObjExpr} {p : SortId × Slot}
  {sort written : SortId} {exits : List Encode.Exit} {body : Encode.LoopBody} {f : Encode.LoopFrame} {child : ContextId}
  {carry : Encode.Carry} {order : ChainOrder} {a : Action} {F : Formula} {fs assumed checked : List FormulaExpr} {store : Store}

namespace Session

/-- The session with one more variable bound. -/
def bind (s : Session) (name : String) (b : Binding) : Session := { s with scope := s.scope.insert name b }

/-- The session with a variable bound, if there is one. -/
def bindTo (s : Session) (b : Binding) : Option String → Session
  | some name => s.bind name b
  | none => s

/-- The session at another snapshot. -/
def atSnapshot (s : Session) (snapshot : Snapshot) : Session := { s with snapshot }

/-- The session in another context. -/
def inContext (s : Session) (context : ContextId) : Session := { s with context }

/-- The level of the session's context. -/
def level (s : Session) : Nat := s.contexts.level s.context

/-- The sorts of the parameters of the session's context. -/
def paramSorts (s : Session) : List SortId := (s.contexts.get s.context).paramSorts

end Session

namespace Encode

theorem bind_eq_ok (h : bind name b s = .ok ((), t)) : t = s.bind name b :=
  congrArg Prod.snd (modify_ok.1 h)

theorem setSnapshot_eq_ok (h : setSnapshot snapshot s = .ok ((), t)) : t = s.atSnapshot snapshot :=
  congrArg Prod.snd (modify_ok.1 h)

/-! ## Parameters -/

/-- The type of a parameter. -/
def paramType (c : ClassId) (p : Param) : ObjType := (ObjType.ofClass c).withCardinality p.cardinality

theorem param_ok {p : Param} (h : param L p s = .ok ((), t)) :
    ∃ c pred s1 s2, L.graph.resolve p.className = .ok c ∧ p.cardinality.isValid = true ∧
      rootPred ("param_" ++ p.name) (L.classSort c) s = .ok (pred, s1) ∧
      paramAxioms L c p.cardinality pred s1 = .ok ((), s2) ∧
      t = s2.bind p.name ⟨.pred pred 0, paramType c p, false⟩ := by
  obtain ⟨c, hc, h⟩ := typedBind_ok.1 h
  split at h
  · obtain ⟨_, _, h1, _⟩ := bind_ok.1 h
    exact (throw_ok.1 h1).elim
  · rename_i hvalid
    obtain ⟨⟨⟩, s', h1, h⟩ := bind_ok.1 h
    obtain ⟨⟨⟩, -, h1⟩ := lift_ok.1 h1
    cases h1
    obtain ⟨pred, s1, h2, h⟩ := bind_ok.1 h
    obtain ⟨⟨⟩, s2, h3, h⟩ := bind_ok.1 h
    exact ⟨c, pred, s1, s2, hc, by simpa using hvalid, h2, h3, bind_eq_ok h⟩

/-! ## Assignments, creations, deletions and tuple updates -/

/-- The steps of an assignment. -/
theorem assign_ok (h : assign L var e s = .ok ((), t)) :
    ∃ value type s1 v s2, objSet L false s.scope e s = .ok ((value, type), s1) ∧ s.Quiet s2 ∧
      t = s2.bind var ⟨v, type, s.scope.isLocal e⟩ ∧
      ((v = value ∧ s2 = s1) ∨
        (∃ sort, L.sortOf type = .ok (some sort) ∧ define L ("assign_" ++ var) sort value s1 = .ok (v, s2)) ∨
        (v = .empty ∧ s2 = s1 ∧ L.sortOf type = .ok none ∧ value.isAtomic = false)) := by
  unfold assign at h
  rw [get_bind, bind_ok] at h
  obtain ⟨⟨value, type⟩, s1, h1, h⟩ := h
  have hq := (quiet_objSet L false s.scope e).of_ok h1
  dsimp only at h
  split at h
  · exact ⟨value, type, s1, value, s1, h1, hq, bind_eq_ok h, .inl ⟨rfl, rfl⟩⟩
  · rename_i hatomic
    obtain ⟨sort, hsort, h⟩ := liftBind_ok.1 h
    cases sort with
    | none => exact ⟨value, type, s1, .empty, s1, h1, hq, bind_eq_ok h, .inr (.inr ⟨rfl, rfl, hsort, by simpa using hatomic⟩)⟩
    | some sort =>
      obtain ⟨v, s2, h3, h⟩ := bind_ok.1 h
      exact ⟨value, type, s1, v, s2, h1, hq.trans ((quiet.define (quiet_member L _)).of_ok h3), bind_eq_ok h, .inr (.inl ⟨sort, hsort, h3⟩)⟩

/-- The session after a creation, before its variable is bound. -/
def created (sort : SortId) (after : Slot) (p : PredId) (s : Session) : Session :=
  { s with
    snapshot := s.snapshot.link sort after
    creations := s.creations ++ [⟨sort, p, s.paramSorts⟩] }

/-- The steps of a creation. -/
theorem create_ok {var : Option String} (h : create L className var s = .ok ((), t)) :
    ∃ c p s1 s2 after s3 s4, L.graph.resolve className = .ok c ∧
      freshPred ("created_" ++ className) [L.classSort c] s = .ok (p, s1) ∧
      creationAxioms L c (L.classSort c) p s1 = .ok ((), s2) ∧
      freshSlot (L.classSort c) s2 = .ok (after, s3) ∧
      axiomOver (createdSlot (L.classSort c) (s2.snapshot.slot (L.classSort c)) after p) s3 = .ok ((), s4) ∧ s.Quiet s4 ∧
      t = (created (L.classSort c) after p s4).bindTo ⟨.pred p s1.level, (ObjType.ofClass c).single, true⟩ var := by
  obtain ⟨c, hc, h⟩ := typedBind_ok.1 h
  obtain ⟨p, s1, h1, h⟩ := bind_ok.1 h
  obtain ⟨d, s1', hd, h⟩ := bind_ok.1 h
  cases depth_ok.1 hd
  obtain ⟨⟨⟩, s2, h2, h⟩ := bind_ok.1 h
  rw [get_bind, bind_ok] at h
  obtain ⟨after, s3, h3, h⟩ := h
  obtain ⟨⟨⟩, s4, h4, h⟩ := bind_ok.1 h
  have hq := ((quiet_freshPred _ _).of_ok h1).trans (quiet.creationAxioms.of_ok h2)
  have hq' := (quiet.freshSlot.of_ok h3).trans ((quiet.axiomOver quiet.createdSlot).of_ok h4)
  refine ⟨c, p, s1, s2, after, s3, s4, hc, h1, h2, h3, h4, hq.trans hq', ?_⟩
  cases var with
  | none => exact congrArg Prod.snd (pure_ok.1 h)
  | some name => exact bind_eq_ok h

/-- The steps of a deletion. -/
theorem delete_ok (h : delete L e s = .ok ((), t)) :
    ∃ value type s1, objSet L false s.scope e s = .ok ((value, type), s1) ∧ s.Quiet s1 ∧
      ((L.sortOf type = .ok none ∧ t = s1) ∨
        ∃ sort after s2 s3 pruned s4, L.sortOf type = .ok (some sort) ∧ freshSlot sort s1 = .ok (after, s2) ∧
          axiomOver (deletedSlot L sort value (s1.snapshot.slot sort) after) s2 = .ok ((), s3) ∧
          (L.store.incidentRelations type.signature).mapM (pruneTuples L sort value) s3 = .ok (pruned, s4) ∧ s.Quiet s4 ∧
          t = s4.atSnapshot (s4.snapshot.withSlots ((sort, after) :: pruned))) := by
  unfold delete at h
  rw [get_bind, bind_ok] at h
  obtain ⟨⟨value, type⟩, s1, h1, h⟩ := h
  obtain ⟨sort, hsort, h⟩ := liftBind_ok.1 h
  have hq := (quiet_objSet L false s.scope e).of_ok h1
  refine ⟨value, type, s1, h1, hq, ?_⟩
  cases sort with
  | none => exact .inl ⟨hsort, congrArg Prod.snd (pure_ok.1 h)⟩
  | some sort =>
    dsimp only at h
    rw [get_bind, bind_ok] at h
    obtain ⟨after, s2, h2, h⟩ := h
    obtain ⟨⟨⟩, s3, h3, h⟩ := bind_ok.1 h
    obtain ⟨pruned, s4, h4, h⟩ := bind_ok.1 h
    have hq' := (quiet.freshSlot.of_ok h2).trans (((quiet.axiomOver (quiet.deletedSlot (quiet_member L _))).of_ok h3).trans
      ((Keeps.mapM (fun _ => quiet.pruneTuples (quiet_member L _) (.lift _)) _).of_ok h4))
    exact .inr ⟨sort, after, s2, s3, pruned, s4, hsort, h2, h3, h4, hq.trans hq', setSnapshot_eq_ok h⟩

theorem pruneTuples_ok (h : pruneTuples L sort value r s = .ok (p, t)) :
    ∃ ts after s1, L.tupleSort r.id = .ok ts ∧ freshSlot ts.sort s = .ok (after, s1) ∧
      axiomOver (prunedSlot L sort value ts (s.snapshot.slot ts.sort) after) s1 = .ok ((), t) ∧ p = (ts.sort, after) := by
  obtain ⟨ts, hts, h⟩ := liftBind_ok.1 h
  rw [get_bind, bind_ok] at h
  obtain ⟨after, s1, h1, h⟩ := h
  obtain ⟨⟨⟩, s2, h2, h⟩ := bind_ok.1 h
  cases pure_ok.1 h
  exact ⟨ts, after, s1, hts, h1, h2, rfl⟩

/-- The steps of an update of tuples. -/
theorem updateTuples_ok (h : updateTuples L source relation target update s = .ok ((), t)) :
    ∃ sourceValue sourceType s1 targetValue targetType s2 r ts after s3 s4,
      objSet L false s.scope source s = .ok ((sourceValue, sourceType), s1) ∧
      objSet L false s.scope target s1 = .ok ((targetValue, targetType), s2) ∧
      L.store.relationOn sourceType.signature relation = .ok r ∧
      checkTarget L targetType r = .ok () ∧ L.tupleSort r.base = .ok ts ∧ freshSlot ts.sort s2 = .ok (after, s3) ∧
      axiomOver (updatedSlot L ts (if r.flipped then targetValue else sourceValue)
        (if r.flipped then sourceValue else targetValue) update s2.snapshot after) s3 = .ok ((), s4) ∧ s.Quiet s4 ∧
      t = s4.atSnapshot (s4.snapshot.link ts.sort after) := by
  unfold updateTuples at h
  rw [get_bind, bind_ok] at h
  obtain ⟨⟨sourceValue, sourceType⟩, s1, h1, h⟩ := h
  obtain ⟨⟨targetValue, targetType⟩, s2, h2, h⟩ := bind_ok.1 h
  obtain ⟨r, hr, h⟩ := typedBind_ok.1 h
  obtain ⟨⟨⟩, s', h3, h⟩ := bind_ok.1 h
  obtain ⟨⟨⟩, hcheck, h3⟩ := typed_ok.1 h3
  cases h3
  obtain ⟨ts, hts, h⟩ := liftBind_ok.1 h
  rw [get_bind, bind_ok] at h
  obtain ⟨after, s3, h4, h⟩ := h
  obtain ⟨⟨⟩, s4, h5, h⟩ := bind_ok.1 h
  have hq := ((quiet_objSet L false s.scope source).of_ok h1).trans ((quiet_objSet L false s.scope target).of_ok h2)
  have hq' := (quiet.freshSlot.of_ok h4).trans ((quiet.axiomOver (quiet.updatedSlot (quiet_member L _) (quiet_member L _))).of_ok h5)
  exact ⟨sourceValue, sourceType, s1, targetValue, targetType, s2, r, ts, after, s3, s4, h1, h2, hr, hcheck, hts, h4, h5,
    hq.trans hq', congrArg Prod.snd (modify_ok.1 h)⟩

/-! ## Alternatives -/

/-- The session at the start of an alternative. -/
def enterAlternative (entry : Session) (indicator : PredId) (s : Session) : Session :=
  { s with
    snapshot := entry.snapshot
    scope := entry.scope
    guards := entry.guards ++ [⟨indicator, entry.level⟩] }

/-- The session in which the results of alternatives are merged. -/
def leaveAlternatives (entry s : Session) : Session := { s with snapshot := entry.snapshot, scope := [], guards := entry.guards }

theorem runAlternatives_nil_ok (h : runAlternatives entry [] s = .ok (exits, t)) : exits = [] ∧ t = s := by
  cases pure_ok.1 h
  exact ⟨rfl, rfl⟩

theorem runAlternatives_cons_ok {p : PredId} {run : Encode Unit} {rest : List (PredId × Encode Unit)}
    (h : runAlternatives entry ((p, run) :: rest) s = .ok (exits, t)) :
    ∃ s1 others, run (enterAlternative entry p s) = .ok ((), s1) ∧ runAlternatives entry rest s1 = .ok (others, t) ∧
      exits = ⟨p, s1.snapshot, s1.scope⟩ :: others := by
  unfold runAlternatives at h
  rw [modify_bind, bind_ok] at h
  obtain ⟨⟨⟩, s1, h1, h⟩ := h
  rw [get_bind, bind_ok] at h
  obtain ⟨others, s2, h2, h⟩ := h
  cases pure_ok.1 h
  exact ⟨s1, others, h1, h2, rfl⟩

theorem mergeSlot_ok (h : mergeSlot exits sort s = .ok (p, t)) : ∃ merged s1, freshSlot sort s = .ok (merged, s1) ∧
      axiomOver (takenSlot exits sort s.level merged) s1 = .ok ((), t) ∧ p = (sort, merged) := by
  obtain ⟨d, s', hd, h⟩ := bind_ok.1 h
  cases depth_ok.1 hd
  obtain ⟨merged, s1, h1, h⟩ := bind_ok.1 h
  obtain ⟨⟨⟩, s2, h2, h⟩ := bind_ok.1 h
  cases pure_ok.1 h
  exact ⟨merged, s1, h1, h2, rfl⟩

theorem branch_ok (h : branch L alternatives s = .ok ((), t)) :
    ∃ exits s1 changes s2, runAlternatives s alternatives s = .ok (exits, s1) ∧
      (changedSorts s.snapshot exits).mapM (mergeSlot exits) (leaveAlternatives s s1) = .ok (changes, s2) ∧
      t = { s2 with snapshot := s.snapshot.withSlots changes, scope := mergeScopes L.graph s.level exits } := by
  unfold branch at h
  rw [get_bind, bind_ok] at h
  obtain ⟨d, s', hd, h⟩ := h
  cases depth_ok.1 hd
  obtain ⟨exits, s1, h1, h⟩ := bind_ok.1 h
  rw [modify_bind, bind_ok] at h
  obtain ⟨changes, s2, h2, h⟩ := h
  exact ⟨exits, s1, changes, s2, h1, h2, congrArg Prod.snd (modify_ok.1 h)⟩

theorem ifElse_ok (h : ifElse L condition thenRun elseRun s = .ok ((), t)) :
    ∃ taken s1 skipped s2 s3, freshPred "then" [] s = .ok (taken, s1) ∧ freshPred "else" [] s1 = .ok (skipped, s2) ∧
      axiomOver (decided L condition taken skipped) s2 = .ok ((), s3) ∧ s.Quiet s3 ∧
      branch L [(taken, thenRun), (skipped, elseRun)] s3 = .ok ((), t) := by
  obtain ⟨taken, s1, h1, h⟩ := bind_ok.1 h
  obtain ⟨skipped, s2, h2, h⟩ := bind_ok.1 h
  obtain ⟨⟨⟩, s3, h3, h⟩ := bind_ok.1 h
  have hq := ((quiet_freshPred _ _).of_ok h1).trans ((quiet_freshPred _ _).of_ok h2)
  exact ⟨taken, s1, skipped, s2, s3, h1, h2, h3, hq.trans ((quiet.axiomOver (quiet_decided L _ _ _)).of_ok h3), h⟩

theorem either_ok (h : either L (first :: second :: rest) s = .ok ((), t)) :
    ∃ indicators s1 s2, choiceIndicators (first :: second :: rest).length s = .ok (indicators, s1) ∧
      axiomOver (oneTaken indicators) s1 = .ok ((), s2) ∧ s.Quiet s2 ∧
      branch L (indicators.zip (first :: second :: rest)) s2 = .ok ((), t) := by
  obtain ⟨indicators, s1, h1, h⟩ := bind_ok.1 h
  obtain ⟨⟨⟩, s2, h2, h⟩ := bind_ok.1 h
  have hq := ((quiet_choiceIndicators _).of_ok h1).trans ((quiet.axiomOver quiet.oneTaken).of_ok h2)
  exact ⟨indicators, s1, s2, h1, h2, hq, h⟩

/-! ## Loops -/

/-- The session at the start of a loop's body. -/
def enterBody (f : LoopFrame) (entry : Snapshot) (s : Session) : Session :=
  { s with
    context := f.child
    snapshot := entry
    scope := s.scope.insert f.var ⟨.param (s.contexts.level f.child), f.iterator.1, f.iterator.2⟩ }

/-- The session after a loop's body, back at the place of the loop. -/
def leaveBody (entry : Snapshot) (outer inner : Session) : Session :=
  { inner with context := outer.context, snapshot := entry, scope := outer.scope }

theorem loopBody_ok {entry : Snapshot} (h : loopBody f entry s = .ok (body, t)) :
    ∃ s1, f.body (enterBody f entry s) = .ok ((), s1) ∧ body = ⟨entry, s1.snapshot, s1.scope⟩ ∧ t = leaveBody entry s s1 := by
  unfold loopBody at h
  rw [get_bind, modify_bind, bind_ok] at h
  obtain ⟨⟨⟩, s1, h1, h⟩ := h
  cases pure_ok.1 h
  exact ⟨s1, h1, rfl, rfl⟩

theorem bodyChanges_ok {changed : List SortId} (h : bodyChanges f body s = .ok (changed, t)) :
    t = s ∧ changed = body.entry.difference body.out ∧ ∀ sort ∈ changed, sort ∈ f.plan.writes := by
  unfold bodyChanges at h
  cases hfind : (body.entry.difference body.out).find? fun sort => !f.plan.writes.contains sort with
  | some sort =>
    simp only [hfind] at h
    rw [get_bind] at h
    exact (throw_ok.1 h).elim
  | none =>
    simp only [hfind] at h
    cases pure_ok.1 h
    refine ⟨rfl, rfl, fun sort hsort => ?_⟩
    simpa using List.find?_eq_none.1 hfind sort hsort

theorem inContext_ok {α : Type} {run : Encode α} {a : α} (h : inContext child run s = .ok (a, t)) :
    ∃ s1, run (s.inContext child) = .ok (a, s1) ∧ t = s1.inContext s.context := by
  unfold inContext at h
  rw [get_bind, modify_bind, bind_ok] at h
  obtain ⟨a', s1, h1, h⟩ := h
  cases pure_ok.1 h
  exact ⟨s1, h1, rfl⟩

theorem mergeIterations_ok (h : mergeIterations f body written s = .ok (p, t)) :
    ∃ new s1, freshSlot written s = .ok (new, s1) ∧
      axiomOver (keptOrAdded f written (body.entry.slot written) (body.out.slot written) new) s1 = .ok ((), t) ∧
      p = (written, new) := by
  obtain ⟨new, s1, h1, h⟩ := bind_ok.1 h
  obtain ⟨⟨⟩, s2, h2, h⟩ := bind_ok.1 h
  cases pure_ok.1 h
  exact ⟨new, s1, h1, h2, rfl⟩

theorem flatLoop_ok (h : flatLoop f s = .ok ((), t)) :
    ∃ body s1 changes s2, checkFlat s.symbols f = .ok () ∧ loopBody f s.snapshot s = .ok (body, s1) ∧
      (∀ sort ∈ body.entry.difference body.out, sort ∈ f.plan.writes) ∧
      (body.entry.difference body.out).mapM (mergeIterations f body) s1 = .ok (changes, s2) ∧
      t = s2.atSnapshot (body.entry.withSlots changes) := by
  unfold flatLoop at h
  rw [get_bind, bind_ok] at h
  obtain ⟨⟨⟩, s', h0, h⟩ := h
  obtain ⟨⟨⟩, hcheck, h0⟩ := lift_ok.1 h0
  cases h0
  obtain ⟨body, s1, h1, h⟩ := bind_ok.1 h
  obtain ⟨changed, s1', h2, h⟩ := bind_ok.1 h
  obtain ⟨rfl, rfl, hplanned⟩ := bodyChanges_ok h2
  obtain ⟨changes, s2, h3, h⟩ := bind_ok.1 h
  exact ⟨body, s1', changes, s2, hcheck, h1, hplanned, h3, setSnapshot_eq_ok h⟩

/-- A carried variable gets a new predicate. -/
theorem carryIn_ok (h : carryIn L f name s = .ok (carry, t)) :
    ∃ before sort p s1, s.scope.find? name = some before ∧ L.sortOf before.type = .ok (some sort) ∧
      freshPred ("carry_" ++ name) [sort] s = .ok (p, s1) ∧ carry = ⟨name, p, sort, before.type⟩ ∧
      t = s1.bind name { before with value := .boundary f.child before.value (.pred p (s.contexts.level f.child)) } := by
  unfold carryIn at h
  rw [get_bind] at h
  cases hb : VarMap.find? s.scope name with
  | none =>
    simp only [hb] at h
    exact (throw_ok.1 h).elim
  | some before =>
    simp only [hb] at h
    obtain ⟨sort, hsort, h⟩ := liftBind_ok.1 h
    cases sort with
    | none => exact (throw_ok.1 h).elim
    | some sort =>
      obtain ⟨p, s1, h2, h⟩ := bind_ok.1 h
      obtain ⟨⟨⟩, s2, h3, h⟩ := bind_ok.1 h
      cases pure_ok.1 h
      exact ⟨before, sort, p, s1, rfl, hsort, h2, rfl, bind_eq_ok h3⟩

/-- A slot for a written sort that an iteration starts from. -/
def inputSlot (sort : SortId) : Encode (SortId × Slot) := do return (sort, ← freshSlot sort)

theorem iterationInputs_ok (h : iterationInputs L f s = .ok ((inputs, carries), t)) :
    ∃ s1, f.plan.writes.mapM inputSlot s = .ok (inputs, s1) ∧
      f.plan.boundary.mapM (carryIn L f) s1 = .ok (carries, t) := by
  obtain ⟨inputs', s1, h1, h⟩ := bind_ok.1 h
  obtain ⟨carries', s2, h2, h⟩ := bind_ok.1 h
  cases pure_ok.1 h
  exact ⟨s1, h1, h2⟩

theorem threadCarry_ok (h : threadCarry L body carry s = .ok ((), t)) :
    (body.scope.find? carry.name = none ∧ t = s) ∨
      ∃ after type, body.scope.find? carry.name = some after ∧ carry.type.join L.graph after.type = .ok type ∧
        axiomOver (sameMembers L carry.sort carry.pred after.value) s = .ok ((), t) := by
  unfold threadCarry at h
  cases hb : VarMap.find? body.scope carry.name with
  | none =>
    simp only [hb] at h
    exact .inl ⟨rfl, congrArg Prod.snd (pure_ok.1 h)⟩
  | some after =>
    simp only [hb] at h
    obtain ⟨type, htype, h⟩ := typedBind_ok.1 h
    exact .inr ⟨after, type, rfl, htype, h⟩

theorem exitSlot_ok (h : exitSlot f order pre body written s = .ok (p, t)) :
    ∃ new s1, freshSlot written s = .ok (new, s1) ∧
      axiomOver (lastSlot f order written (pre.slot written) (body.out.slot written) new) s1 = .ok ((), t) ∧
      p = (written, new) := by
  obtain ⟨new, s1, h1, h⟩ := bind_ok.1 h
  obtain ⟨⟨⟩, s2, h2, h⟩ := bind_ok.1 h
  cases pure_ok.1 h
  exact ⟨new, s1, h1, h2, rfl⟩

/-- How a variable gets its value after a chained loop. -/
theorem exitValue_ok (h : exitValue L f order pre body name s = .ok ((), t)) :
    ((pre.find? name = none ∨ body.scope.find? name = none) ∧ t = s) ∨
      ∃ before after type v s1, pre.find? name = some before ∧ body.scope.find? name = some after ∧
        before.type.join L.graph after.type = .ok type ∧ s.Quiet s1 ∧ t = s1.bind name ⟨v, type, before.isLocal && after.isLocal⟩ ∧
        ((L.sortOf type = .ok none ∧ v = .empty ∧ s1 = s) ∨
          ∃ sort p s2, L.sortOf type = .ok (some sort) ∧ freshPred ("after_" ++ name) [sort] s = .ok (p, s2) ∧
            axiomOver (lastValue L f order sort p before.value after.value) s2 = .ok ((), s1) ∧ v = .pred p s2.level) := by
  unfold exitValue at h
  cases hb : VarMap.find? pre name with
  | none =>
    simp only [hb] at h
    exact .inl ⟨.inl rfl, congrArg Prod.snd (pure_ok.1 h)⟩
  | some before =>
    cases ha : VarMap.find? body.scope name with
    | none =>
      simp only [hb, ha] at h
      exact .inl ⟨.inr rfl, congrArg Prod.snd (pure_ok.1 h)⟩
    | some after =>
      simp only [hb, ha] at h
      obtain ⟨type, htype, h⟩ := typedBind_ok.1 h
      obtain ⟨sort, hsort, h⟩ := liftBind_ok.1 h
      refine .inr ⟨before, after, type, ?_⟩
      cases sort with
      | none => exact ⟨.empty, s, rfl, rfl, htype, .refl s, bind_eq_ok h, .inl ⟨hsort, rfl, rfl⟩⟩
      | some sort =>
        obtain ⟨p, s2, h3, h⟩ := bind_ok.1 h
        obtain ⟨d, s', hd, h⟩ := bind_ok.1 h
        cases depth_ok.1 hd
        obtain ⟨⟨⟩, s1, h4, h⟩ := bind_ok.1 h
        have hq := ((quiet_freshPred _ _).of_ok h3).trans ((quiet.axiomOver (quiet.lastValue (quiet_member L _) (quiet_member L _))).of_ok h4)
        exact ⟨.pred p s2.level, s1, rfl, rfl, htype, hq, bind_eq_ok h, .inr ⟨sort, p, s2, hsort, h3, h4, rfl⟩⟩

/-- Tie what the iterations of a chained loop start from to what the ones before have left. -/
def threads (L : Layout) (f : LoopFrame) (order : ChainOrder) (pre : Snapshot) (body : LoopBody) (carries : List Carry)
    (inputs : List (SortId × Slot)) : Encode Unit := do
  carries.forM (threadCarry L body)
  inputs.forM (threadSlot f order pre body)

theorem quiet_threads (L : Layout) (f : LoopFrame) (order : ChainOrder) (pre : Snapshot) (body : LoopBody)
    (carries : List Carry) (inputs : List (SortId × Slot)) : Keeps Session.Quiet (threads L f order pre body carries inputs) :=
  Keeps.bind (Keeps.forM (fun _ => quiet_threadCarry L body _) _) fun _ => Keeps.forM (fun _ => quiet.threadSlot) _

/-- The steps of a chained loop. -/
theorem chainedLoop_ok (h : chainedLoop L f s = .ok ((), t)) :
    ∃ order inputs carries s1 body s2 s3 changes s4, (s.contexts.get f.child).kind = .chained order ∧
      iterationInputs L f (s.inContext f.child) = .ok ((inputs, carries), s1) ∧
      loopBody f (s.snapshot.withSlots inputs) (s1.inContext s.context) = .ok (body, s2) ∧
      (∀ sort ∈ body.entry.difference body.out, sort ∈ f.plan.writes) ∧
      threads L f order s.snapshot body carries inputs { s2 with scope := s.scope, context := f.child } = .ok ((), s3) ∧
      inputs.mapM (fun input => exitSlot f order s.snapshot body input.1) (s3.inContext s2.context) = .ok (changes, s4) ∧
      f.plan.carried.forM (exitValue L f order s.scope body) (s4.atSnapshot (s.snapshot.withSlots changes)) = .ok ((), t) := by
  unfold chainedLoop at h
  rw [get_bind] at h
  cases hk : (s.contexts.get f.child).kind with
  | root =>
    simp only [hk] at h
    exact (throw_ok.1 h).elim
  | flat =>
    simp only [hk] at h
    exact (throw_ok.1 h).elim
  | chained order =>
    simp only [hk] at h
    obtain ⟨⟨inputs, carries⟩, s0, h0, h⟩ := bind_ok.1 h
    obtain ⟨s1, h1, rfl⟩ := inContext_ok h0
    obtain ⟨body, s2, h2, h⟩ := bind_ok.1 h
    rw [modify_bind, bind_ok] at h
    obtain ⟨changed, s2', h3, h⟩ := h
    obtain ⟨rfl, rfl, hplanned⟩ := bodyChanges_ok h3
    obtain ⟨⟨⟩, s3', h3, h⟩ := bind_ok.1 h
    obtain ⟨s3, h4, rfl⟩ := inContext_ok h3
    obtain ⟨changes, s4, h5, h⟩ := bind_ok.1 h
    obtain ⟨⟨⟩, s5, h6, h⟩ := bind_ok.1 h
    rw [setSnapshot_eq_ok h6] at h
    exact ⟨order, inputs, carries, s1, body, s2, s3, changes, s4, rfl, h1, h2, hplanned, h4, h5, h⟩

theorem addContext_ok {order : LoopKind} (h : addContext sort order var s = .ok (child, t)) :
    child = (s.contexts.add s.symbols s.context sort order var).1 ∧ t = { s with
        contexts := (s.contexts.add s.symbols s.context sort order var).2.1
        symbols := (s.contexts.add s.symbols s.context sort order var).2.2 } := by
  cases modifyGet_ok.1 h
  exact ⟨rfl, rfl⟩

theorem contextAxioms_ok (h : contextAxioms L child var sort domain s = .ok ((), t)) :
    ∃ live s1 s2 nesting s3 s4 order, (s.contexts.get child).live = some live ∧
      axiomOver (sameMembers L sort live domain) s = .ok ((), s1) ∧
      fresh (s.contexts.nestingAxiom child) s1 = .ok (nesting, s2) ∧ emit nesting s2 = .ok ((), s3) ∧
      fresh (s.contexts.orderAxioms child) s3 = .ok (order, s4) ∧ order.forM emit s4 = .ok ((), t) := by
  unfold contextAxioms at h
  rw [get_bind] at h
  cases hl : (s.contexts.get child).live with
  | none =>
    simp only [hl] at h
    exact (throw_ok.1 h).elim
  | some live =>
    simp only [hl] at h
    obtain ⟨⟨⟩, s1, h1, h⟩ := bind_ok.1 h
    obtain ⟨nesting, s2, h2, h⟩ := bind_ok.1 h
    obtain ⟨⟨⟩, s3, h3, h⟩ := bind_ok.1 h
    obtain ⟨order, s4, h4, h⟩ := bind_ok.1 h
    exact ⟨live, s1, s2, nesting, s3, s4, order, rfl, h1, h2, h3, h4, h⟩

/-- The frame of a loop. -/
def loopFrame (var : String) (type : ObjType) (isLocal : Bool) (child : ContextId) (sort : SortId) (plan : LoopPlan)
    (run : Encode Unit) : LoopFrame :=
  { var, iterator := (type.single, isLocal), child, sort, plan, body := run }

/-- A loop over nothing does nothing; else it is planned, its context is added, and its rule is run. -/
theorem forEach_ok {body : Block} {order : LoopKind} {run : Encode Unit}
    (h : forEach L var domain body order run s = .ok ((), t)) :
    ∃ value type s1, objSet L false s.scope domain s = .ok ((value, type), s1) ∧ ((L.sortOf type = .ok none ∧ t = s1) ∨
        ∃ sort plan child s2 s3, L.sortOf type = .ok (some sort) ∧
          planLoop L s.scope var type (s.scope.isLocal domain) body = .ok plan ∧
          addContext sort order var s1 = .ok (child, s2) ∧ contextAxioms L child var sort value s2 = .ok ((), s3) ∧
          (order = .flat → flatLoop (loopFrame var type (s.scope.isLocal domain) child sort plan run) s3 = .ok ((), t)) ∧
          (order = .chained →
            chainedLoop L (loopFrame var type (s.scope.isLocal domain) child sort plan run) s3 = .ok ((), t))) := by
  unfold forEach at h
  rw [get_bind, bind_ok] at h
  obtain ⟨⟨value, type⟩, s1, h1, h⟩ := h
  obtain ⟨sort, hsort, h⟩ := liftBind_ok.1 h
  refine ⟨value, type, s1, h1, ?_⟩
  cases sort with
  | none => exact .inl ⟨hsort, congrArg Prod.snd (pure_ok.1 h)⟩
  | some sort =>
    obtain ⟨plan, hplan, h⟩ := typedBind_ok.1 h
    obtain ⟨child, s2, h3, h⟩ := bind_ok.1 h
    obtain ⟨⟨⟩, s3, h4, h⟩ := bind_ok.1 h
    refine .inr ⟨sort, plan, child, s2, s3, hsort, hplan, h3, h4, ?_, ?_⟩
    · rintro rfl
      exact h
    · rintro rfl
      exact h

/-! ## Goals -/

/-- The walk over an action: its parameters, then its block. -/
def walk (L : Layout) (a : Action) : Encode Unit := do
  a.params.forM (param L)
  block L a.block

/-- Encoding an action is the walk over it and two quiet steps. -/
theorem action_ok (h : action L a s = .ok ((), t)) :
    ∃ s1 s2, walk L a s = .ok ((), s1) ∧ distinctAxioms L s1 = .ok ((), s2) ∧ L.sorts.forM finalSlot s2 = .ok ((), t) := by
  obtain ⟨⟨⟩, s0, hparams, h⟩ := bind_ok.1 h
  obtain ⟨⟨⟩, s1, hblock, h⟩ := bind_ok.1 h
  obtain ⟨⟨⟩, s2, hdistinct, h⟩ := bind_ok.1 h
  exact ⟨s1, s2, bind_ok.2 ⟨(), s0, hparams, hblock⟩, hdistinct, h⟩

theorem closedFormulas_ok (h : closedFormulas L snapshot fs s = .ok (F, t)) :
    ∃ Fs, formulas L [] fs [] (s.atSnapshot snapshot) = .ok (Fs, t) ∧ F = .mkAnd Fs := by
  obtain ⟨⟨⟩, s1, h1, h⟩ := bind_ok.1 h
  cases modify_ok.1 h1
  obtain ⟨Fs, s2, h2, h⟩ := bind_ok.1 h
  cases pure_ok.1 h
  exact ⟨Fs, h2, rfl⟩

theorem preservation_ok (h : preservation L a assumed checked s = .ok (F, t)) :
    ∃ s1 s2 Fs Gs, action L a s = .ok ((), s1) ∧ formulas L [] assumed [] (s1.atSnapshot L.initial) = .ok (Fs, s2) ∧
      formulas L [] checked [] (s2.atSnapshot s1.snapshot) = .ok (Gs, t) ∧ F = .mkImplies (.mkAnd Fs) (.mkAnd Gs) := by
  obtain ⟨⟨⟩, s1, h1, h⟩ := bind_ok.1 h
  rw [get_bind] at h
  obtain ⟨F1, s2, h2, h⟩ := bind_ok.1 h
  obtain ⟨F2, s3, h3, h⟩ := bind_ok.1 h
  cases pure_ok.1 h
  obtain ⟨Fs, hassumed, rfl⟩ := closedFormulas_ok h2
  obtain ⟨Gs, hchecked, rfl⟩ := closedFormulas_ok h3
  exact ⟨s1, s2, Fs, Gs, h1, hassumed, hchecked, rfl⟩

end Encode

/-- The theory of a preservation goal comes from a walk over the action, which the analysis accepts. -/
theorem preservationTheory_ok {t : Theory} (h : preservationTheory store a assumed checked name = .ok t) :
    ∃ effects F final, a.effects store = .ok effects ∧
      Encode.preservation (Layout.ofStore store).1 a assumed checked (Layout.ofStore store).2 = .ok (F, final) ∧
      t = ⟨name, final.symbols, final.axioms, [F]⟩ := by
  unfold preservationTheory at h
  split at h
  · cases h
  · rename_i effects heffects
    obtain ⟨⟨F, final⟩, hrun, h⟩ := exceptBind_ok.1 h
    cases h
    exact ⟨effects, F, final, heffects, hrun, rfl⟩

/-- Assert a closed formula at the initial snapshot. -/
def Encode.assertInitially (L : Layout) (f : FormulaExpr) : Encode Unit := do
  emit (← closedFormulas L L.initial [f])

theorem consistencyTheory_ok {t : Theory} (h : consistencyTheory store fs name = .ok t) :
    ∃ final, (fs.forM (Encode.assertInitially (Layout.ofStore store).1) : Encode Unit) (Layout.ofStore store).2 = .ok ((), final) ∧
      t = ⟨name, final.symbols, final.axioms, [.bot]⟩ := by
  obtain ⟨⟨F, final⟩, hrun, h⟩ := exceptBind_ok.1 h
  cases h
  obtain ⟨⟨⟩, s1, h1, h2⟩ := bind_ok.1 hrun
  cases pure_ok.1 h2
  exact ⟨_, h1, rfl⟩

end StoreCheck
