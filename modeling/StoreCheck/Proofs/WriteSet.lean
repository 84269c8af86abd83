import StoreCheck.Proofs.Encoding.ScopeFlow

/-!
# The analysis reports every sort that an action changes

The encoding of a statement replaces the slots of the sorts that the statement changes. Where the analysis and the encoding see
the same types (`Flow.aligned`), each replaced slot belongs to a class or relation that the analysis has noted as written
(`writes_block`). For a loop the argument goes through its plan, which is itself an analysis of the body.
-/

namespace StoreCheck

open List StoreCheck.Flow Snapshot Bool VarMap

variable {type : ObjType} {isLocal : Bool} {s t : Session} {f : Encode.LoopFrame}

/-! ## Replaced slots -/

namespace Snapshot

theorem slot_link_of_ne (s : Snapshot) (slot : Slot) (h : sort' ≠ sort) : (s.link sort slot).slot sort' = s.slot sort' := by
  have hne : sort.index ≠ sort'.index := by
    intro he
    apply h
    cases sort
    cases sort'
    simp_all
  unfold link Snapshot.slot
  rw [getD_eq_getElem?_getD, getD_eq_getElem?_getD, getElem?_set_ne hne]

/-- Only the slots that are given change. -/
theorem exists_mem_of_slot_withSlots_ne : ∀ (changes : List (SortId × Slot)) (s : Snapshot) {sort : SortId},
    (s.withSlots changes).slot sort ≠ s.slot sort → ∃ slot, (sort, slot) ∈ changes
  | [], _, _, h => (h rfl).elim
  | (k, new) :: rest, s, sort, h => by
    by_cases hk : sort = k
    · exact ⟨new, by rw [hk]; exact mem_cons_self⟩
    · have hrest : ((s.link k new).withSlots rest).slot sort ≠ (s.link k new).slot sort := by
        rw [slot_link_of_ne s new hk]
        exact h
      obtain ⟨slot, hslot⟩ := exists_mem_of_slot_withSlots_ne rest (s.link k new) hrest
      exact ⟨slot, mem_cons_of_mem _ hslot⟩

end Snapshot

/-! ## Noted writes -/

/-- The analysis has noted a write to a domain of the sort. -/
def Written (L : Layout) (a : Analysis) (sort : SortId) : Prop := ∃ d ∈ a.effects.writes, L.domainSort d = some sort

variable {L : Layout} {sort : SortId}

theorem Written.mono (h : Written L a sort) (hab : Analysis.More a b) : Written L b sort := by
  obtain ⟨d, hd, hs⟩ := h
  exact ⟨d, hab.domainsWith hd, hs⟩

theorem Layout.mem_sortsOf : sort ∈ L.sortsOf domains ↔ sort ∈ L.sorts ∧ ∃ d ∈ domains, L.domainSort d = some sort := by
  simp [sortsOf, mem_filter]

theorem Layout.domainSort_relation (h : L.tupleSort r = .ok ts) : L.domainSort (.ofRelation r) = some ts.sort := by
  unfold Layout.tupleSort at h
  split at h
  · rename_i ts' hts
    cases h
    simp [Layout.domainSort, hts]
  · cases h

/-- The sort of a type is the sort of each class of its signature's first member. -/
theorem Layout.sortOf_some (h : L.sortOf type = .ok (some sort)) : ∃ c ∈ type.signature.classes, L.classSort c = sort := by
  unfold Layout.sortOf at h
  split at h
  · cases h
  · split at h
    · rename_i component hcomponent
      cases h
      unfold ClassGraph.componentOfSignature at hcomponent
      split at hcomponent
      · cases hcomponent
      · rename_i c rest hclasses
        split at hcomponent
        · cases hcomponent
          exact ⟨c, by rw [hclasses]; exact mem_cons_self, rfl⟩
        · cases hcomponent
    · cases h

namespace Analysis

theorem mem_writes_of_notes {m : EffectMap} (hop : operation ≠ .read) (h : m.Notes d ⟨operation, isLocal⟩) : d ∈ m.writes :=
  (m.mem_domainsWith _ d).2 ⟨⟨operation, isLocal⟩, h, by simpa using hop⟩

end Analysis

/-! ## Statements -/

namespace Encode

open Analysis

/-- Whatever the encoding changes, the analysis notes: both succeed from the types of the flow. -/
def Reported (L : Layout) (types : TypeEnv) (run : Encode Unit) (path : Analyze Unit) : Prop :=
  ∀ s t a b, s.Follows types → Analysis.Follows types a → run s = .ok ((), t) → path a = .ok ((), b) →
    ∀ sort, t.snapshot.slot sort ≠ s.snapshot.slot sort → Written L b sort

variable {L : Layout} {types : TypeEnv}

theorem reported_assign (var : String) (value : ObjExpr) (path : Analyze Unit) :
    Reported L types (assign L var value) path := by
  intro s t a b _ _ h _ sort hne
  obtain ⟨v, type, s1, v', s2, -, hq, rfl, -⟩ := assign_ok h
  exact (hne (congrArg (·.slot sort) hq.snapshot)).elim

theorem snapshot_bindTo (s : Session) (b : Binding) (var : Option String) : (s.bindTo b var).snapshot = s.snapshot := by
  cases var <;> rfl

theorem reported_create (className : String) (var : Option String) :
    Reported L types (create L className var) (runStatement L.store (.create className var)) := by
  intro s t a b _ _ h hb sort hne
  obtain ⟨c, p, s1, s2, after, s3, s4, hc, -, -, -, -, q, rfl⟩ := create_ok h
  rw [snapshot_bindTo] at hne
  have hsort : sort = L.classSort c := by
    by_contra hk
    apply hne
    have : (created (L.classSort c) after p s4).snapshot = s4.snapshot.link (L.classSort c) after := rfl
    rw [this, slot_link_of_ne _ _ hk, q.snapshot]
  subst hsort
  obtain ⟨c', hc'', hb⟩ := liftBind_ok.1 hb
  have : c' = c := by
    have hc0 : L.store.graph.resolve className = .ok c := hc
    rw [hc0] at hc''
    cases hc''
    rfl
  subst this
  obtain ⟨⟨⟩, a2, hn, hb⟩ := bind_ok.1 hb
  have hw : Written L a2 (L.classSort c') := ⟨_, mem_writes_of_notes (by decide) (notes_note hn), rfl⟩
  refine hw.mono ?_
  cases var with
  | none => exact (Keeps.pure _).of_ok hb
  | some name => exact (more_bind name _ _).of_ok hb

theorem mem_pruned {rs : List Relation} (h : rs.mapM (pruneTuples L sort value) s = .ok (pruned, t)) :
    ∀ p ∈ pruned, ∃ r ∈ rs, ∃ ts, L.tupleSort r.id = .ok ts ∧ p.1 = ts.sort := by
  intro p hp
  obtain ⟨r, hr, s', t', hrun⟩ := exists_of_mem_mapM h hp
  obtain ⟨ts, after, s'', hts, -, -, rfl⟩ := pruneTuples_ok hrun
  exact ⟨r, hr, ts, hts, rfl⟩

/-- What a deletion changes is reported. -/
theorem reported_delete (objects : ObjExpr) :
    Reported L types (delete L objects) (runStatement L.store (.delete objects)) := by
  intro s t a b hs ha h hb sort hne
  obtain ⟨value, type, s1, h1, q1, hcases⟩ := delete_ok h
  -- the analysis deletes from the same classes and relations
  obtain ⟨l, a1, hr, hb⟩ := bind_ok.1 hb
  obtain ⟨type', htype, hb⟩ := typeOfBind_ok.1 hb
  obtain ⟨⟨⟩, a3, hclasses, hrelations⟩ := bind_ok.1 hb
  have hsig : type'.signature = type.signature := by
    have ha1 := ha.of_reads ((reads_readSet L.store false objects).of_ok hr)
    exact infer_signature_eq (hs.alike.symm.trans ha1.alike) (objSet_ok h1).1 htype
  rcases hcases with ⟨-, rfl⟩ | ⟨dsort, after, s2, s3, pruned, s4, hdsort, -, -, h4, q, rfl⟩
  · exact (hne (congrArg (·.slot sort) q1.snapshot)).elim
  · rw [← q.snapshot] at hne
    obtain ⟨slot, hslot⟩ := Snapshot.exists_mem_of_slot_withSlots_ne _ s4.snapshot hne
    rcases mem_cons.1 hslot with heq | hslot
    · cases heq
      obtain ⟨c, hc, hcsort⟩ := Layout.sortOf_some hdsort
      rw [← hsig] at hc
      have hw : Written L a3 sort := ⟨_, mem_writes_of_notes (by decide) (notes_forM hclasses c hc), by rw [← hcsort]; rfl⟩
      exact hw.mono ((Keeps.forM (fun r : Relation => more_note (.ofRelation r.id) _ _) _).of_ok hrelations)
    · obtain ⟨r, hr, ts, hts, hsort⟩ := mem_pruned h4 _ hslot
      rw [← hsig] at hr
      have hnoted := notes_forM (d := fun r : Relation => .ofRelation r.id) hrelations r hr
      refine ⟨.ofRelation r.id, mem_writes_of_notes (by decide) hnoted, ?_⟩
      rw [Layout.domainSort_relation hts, ← hsort]

theorem reported_updateTuples (source : ObjExpr) (relation : String) (target : ObjExpr) (update : TupleUpdate)
    (operation : Operation) (hop : operation ≠ .read) :
    Reported L types (updateTuples L source relation target update)
      (Analysis.updateTuples L.store source relation target operation) := by
  intro s t a b hs ha h hb sort hne
  obtain ⟨sv, st, s1, tv, tt, s2, r, ts, after, s3, s4, h1, -, hr, -, hts, -, -, q, rfl⟩ := updateTuples_ok h
  have hsort : sort = ts.sort := by
    by_contra hk
    apply hne
    have : (s4.atSnapshot (s4.snapshot.link ts.sort after)).snapshot = s4.snapshot.link ts.sort after := rfl
    rw [this, slot_link_of_ne _ _ hk, q.snapshot]
  obtain ⟨l, a1, hr1, hb⟩ := bind_ok.1 hb
  obtain ⟨l', a2, hr2, hb⟩ := bind_ok.1 hb
  obtain ⟨type', htype, hb⟩ := typeOfBind_ok.1 hb
  obtain ⟨r', hr'', hb⟩ := liftBind_ok.1 hb
  have ha2 := (ha.of_reads ((reads_readSet L.store false source).of_ok hr1)).of_reads
    ((reads_readSet L.store false target).of_ok hr2)
  have hsig : type'.signature = st.signature :=
    infer_signature_eq (hs.alike.symm.trans ha2.alike) (objSet_ok h1).1 htype
  rw [hsig, hr] at hr''
  cases hr''
  refine ⟨_, mem_writes_of_notes hop (notes_note hb), ?_⟩
  rw [Layout.domainSort_relation hts, hsort]

/-! ## Alternatives -/

/-- What an alternative changes is reported by the analysis of its path. -/
theorem changed_runAlternatives {entry : Session} (hentry : entry.Follows types) (hstart : Analysis.Follows types start) :
    ∀ {alternatives : List (PredId × Encode Unit)} {paths : List (Analyze Unit)},
      List.Forall₂ (fun r p => Reported L types r.2 p) alternatives paths → (∀ p ∈ paths, Keeps More p) →
      ∀ {s t : Session} {a b : Analysis} {exits : List Exit} {ends}, runAlternatives entry alternatives s = .ok (exits, t) →
        runPaths start paths a = .ok (ends, b) →
        ∀ e ∈ exits, ∀ sort, e.snapshot.slot sort ≠ entry.snapshot.slot sort → Written L b sort := by
  intro alternatives paths hall
  induction hall with
  | nil =>
    intro _ s t a b exits ends h _ e he
    obtain ⟨rfl, -⟩ := runAlternatives_nil_ok h
    cases he
  | @cons alternative path _ _ hrun hrest ih =>
    intro hmore s t a b exits ends h hb e he sort hne
    obtain ⟨p, run⟩ := alternative
    obtain ⟨s1, others, h1, h2, rfl⟩ := runAlternatives_cons_ok h
    unfold runPaths at hb
    rw [modify_bind, bind_ok] at hb
    obtain ⟨⟨⟩, a1, hb1, hb⟩ := hb
    rw [get_bind, bind_ok] at hb
    obtain ⟨others', b', hb2, hb⟩ := hb
    cases pure_ok.1 hb
    have hmore' := fun q hq => hmore q (mem_cons_of_mem _ hq)
    rcases mem_cons.1 he with rfl | he
    · have hw : Written L a1 sort := hrun (enterAlternative entry p s) s1
        { a with types := start.types, locals := start.locals } a1 ⟨hentry.alike, hentry.distinct⟩
        ⟨hstart.alike, hstart.distinct⟩ h1 hb1 sort hne
      exact hw.mono (((walking_more L.store).runPaths start _ hmore').of_ok hb2)
    · exact ih hmore' h2 hb2 e he sort hne

variable {sort : SortId}

theorem slot_ne_of_mem_difference {a b : Snapshot} (h : sort ∈ a.difference b) : b.slot sort ≠ a.slot sort := by
  have := (mem_filter.1 h).2
  simp only [decide_not, not_eq_eq_eq_not, Bool.not_true, decide_eq_false_iff_not] at this
  exact fun he => this he.symm

theorem reported_branch {alternatives : List (PredId × Encode Unit)}
    (hruns : List.Forall₂ (fun r p => Reported L types r.2 p) alternatives paths) (hmore : ∀ p ∈ paths, Keeps More p) :
    Reported L types (branch L alternatives) (Analysis.alternatives L.store paths) := by
  intro s t a b hs ha h hb sort hne
  obtain ⟨exits, s1, changes, s2, h1, h2, rfl⟩ := branch_ok h
  unfold Analysis.alternatives at hb
  rw [get_bind, bind_ok] at hb
  obtain ⟨ends, b1, hb1, hb⟩ := hb
  have hmore1 : More b1 b := by
    cases modify_ok.1 hb
    exact .of_effects rfl
  obtain ⟨slot, hslot⟩ := exists_mem_of_slot_withSlots_ne changes s.snapshot hne
  have hchanged : sort ∈ changedSorts s.snapshot exits := by
    obtain ⟨sort', hsort', s3, s4, hmerge⟩ := exists_of_mem_mapM h2 hslot
    obtain ⟨_, _, -, -, heq⟩ := mergeSlot_ok hmerge
    cases heq
    exact hsort'
  obtain ⟨e, he, hdiff⟩ := any_eq_true.1 (mem_filter.1 hchanged).2
  have hdiff' : sort ∈ s.snapshot.difference e.snapshot := by simpa using hdiff
  exact (changed_runAlternatives hs ha hruns hmore h1 hb1 e he sort (slot_ne_of_mem_difference hdiff')).mono hmore1

/-! ## Loops -/

/-- The plan of a loop's body is part of what the analysis notes for the body. -/
theorem written_of_planned {t : ObjType} {before inner : Analysis} (hplan : planLoop L scope var type isLocal body = .ok plan)
    (halike : TypeEnv.Alike scope.types before.types) (hdistinct : Distinct scope) (hbefore : Distinct before.types)
    (hsig : type.signature = t.signature) (hbody : runBlock L.store body (enterLoop var t l before) = .ok ((), inner)) :
    ∀ sort ∈ plan.writes, Written L inner sort := by
  obtain ⟨effects, heffects, h⟩ := exceptBind_ok.1 hplan
  cases h
  obtain ⟨⟨⟨⟩, after⟩, hafter, heq⟩ := exceptBind_ok.1 heffects
  cases heq
  have hwithin : Within ⟨scope.types.insert var type.single, scope.locals.insert var isLocal, .empty⟩
      (enterLoop var t l before) := by
    refine ⟨halike.insert var hsig, (Scope.distinct_types hdistinct).insert var _, hbefore.insert var _, fun d hd => ?_⟩
    cases hd
  have hwrites := (tracks_runBlock L.store body _ _ _ _ _ _ hwithin hafter hbody).1.writes
  intro sort hsort
  obtain ⟨-, d, hd, hs⟩ := Layout.mem_sortsOf.1 hsort
  exact ⟨d, hwrites d ((EffectMap.mem_domainsWith_normalize after.effects _ d).1 hd), hs⟩

/-- A flat loop replaces slots of planned sorts only. -/
theorem planned_of_flatLoop (h : flatLoop f s = .ok ((), t)) (hne : t.snapshot.slot sort ≠ s.snapshot.slot sort) :
    sort ∈ f.plan.writes := by
  obtain ⟨body, s1, changes, s2, -, h1, hplanned, h2, rfl⟩ := flatLoop_ok h
  obtain ⟨s1', -, rfl, rfl⟩ := loopBody_ok h1
  obtain ⟨slot, hslot⟩ := exists_mem_of_slot_withSlots_ne changes s.snapshot hne
  obtain ⟨sort', hsort', s3, s4, hmerge⟩ := exists_of_mem_mapM h2 hslot
  obtain ⟨_, _, -, -, heq⟩ := mergeIterations_ok hmerge
  cases heq
  exact hplanned sort hsort'

theorem snapshot_exitValues {names : List String} (h : names.forM (exitValue L f order pre body) s = .ok ((), t)) :
    t.snapshot = s.snapshot := by
  refine forM_keeps (P := fun u => u.snapshot = s.snapshot) (fun name _ s t hs h => hs ▸ ?_) rfl h
  rcases exitValue_ok h with ⟨-, rfl⟩ | ⟨before, after, type, v, s2, -, -, -, hq, rfl, -⟩
  · rfl
  · exact hq.snapshot

/-- A chained loop replaces slots of planned sorts only. -/
theorem planned_of_chainedLoop (h : chainedLoop L f s = .ok ((), t)) (hne : t.snapshot.slot sort ≠ s.snapshot.slot sort) :
    sort ∈ f.plan.writes := by
  obtain ⟨order, inputs, carries, s1, lb, s2, s3, changes, s4, -, h1, h2, -, h3, h4, h5⟩ := chainedLoop_ok h
  obtain ⟨s0, hinputs, -⟩ := iterationInputs_ok h1
  rw [snapshot_exitValues h5] at hne
  obtain ⟨slot, hslot⟩ := exists_mem_of_slot_withSlots_ne changes s.snapshot hne
  obtain ⟨input, hinput, s5, s6, hexit⟩ := exists_of_mem_mapM h4 hslot
  obtain ⟨_, _, -, -, heq⟩ := exitSlot_ok hexit
  obtain ⟨sort', hsort', s7, s8, hstart⟩ := exists_of_mem_mapM hinputs hinput
  obtain ⟨start, s9, -, hstart⟩ := bind_ok.1 hstart
  cases pure_ok.1 hstart
  cases heq
  exact hsort'

theorem reported_forEach (var : String) (domain : ObjExpr) (body : Block) (order : LoopKind) (run : Encode Unit) :
    Reported L types (forEach L var domain body order run)
      (loop L.store var domain (Block.assigned body) order (runBlock L.store body)) := by
  intro s t a b hs ha h hb sort hne
  obtain ⟨value, type, s1, h1, hcases⟩ := forEach_ok h
  have q1 := (quiet_objSet L false s.scope domain).of_ok h1
  obtain ⟨l, before, t0, inner, hr, ht0, hinner, hflat', hchained'⟩ := loop_ok hb
  have hbefore := ha.of_reads ((reads_readSet L.store false domain).of_ok hr)
  have halike : TypeEnv.Alike s.scope.types before.types := hs.alike.symm.trans hbefore.alike
  have hsig : type.signature = t0.signature := (infer_signature_eq halike (objSet_ok h1).1 ht0).symm
  have hmore : More inner b := more_afterLoop hflat' hchained'
  rcases hcases with ⟨-, rfl⟩ | ⟨dsort, plan, child, s2, s3, -, hplan, h2, h3, hflat, hchained⟩
  · exact (hne (congrArg (·.slot sort) q1.snapshot)).elim
  · have hwritten := written_of_planned hplan halike hs.distinct hbefore.distinct hsig hinner
    have hsnapshot : s3.snapshot = s.snapshot := by
      rw [((quiet_contextAxioms L child var dsort value).of_ok h3).snapshot, (addContext_ok h2).2]
      exact q1.snapshot
    rw [← hsnapshot] at hne
    cases order with
    | flat => exact (hwritten sort (planned_of_flatLoop (hflat rfl) hne)).mono hmore
    | chained => exact (hwritten sort (planned_of_chainedLoop (hchained rfl) hne)).mono hmore

/-! ## Blocks -/

mutual

/-- What a statement changes is reported, where the types are aligned. -/
theorem reported_statement : ∀ (st : Statement) {types : TypeEnv},
    everywhere L.store (aligned L.store) types st = true →
    Reported L types (statement L st) (runStatement L.store st)
  | .assign var value, _, _ => by rw [statement]; exact reported_assign var value _
  | .create className var, _, _ => by rw [statement]; exact reported_create className var
  | .delete objects, _, _ => by rw [statement]; exact reported_delete objects
  | .createTuple source relation target, _, _ => by
    exact reported_updateTuples source relation target .add .create (by decide)
  | .deleteTuple source relation target, _, _ => by
    exact reported_updateTuples source relation target .remove .delete (by decide)
  | .ifElse condition thenBlock elseBlock, types, haligned => by
    rw [everywhere, and_eq_true, and_eq_true] at haligned
    intro s t a b hs ha h hb sort hne
    obtain ⟨taken, s1, skipped, s2, s3, -, -, -, q, h⟩ := ifElse_ok h
    obtain ⟨⟨⟩, a1, hcondition, hb⟩ := bind_ok.1 hb
    have hruns : List.Forall₂ (fun r p => Reported L types r.2 p) [(taken, block L thenBlock), (skipped, block L elseBlock)]
        [runBlock L.store thenBlock, runBlock L.store elseBlock] :=
      .cons (reported_block thenBlock haligned.1.2) (.cons (reported_block elseBlock haligned.2) .nil)
    have hmore : ∀ p ∈ [runBlock L.store thenBlock, runBlock L.store elseBlock], Keeps More p :=
      forall_mem_cons.2 ⟨(walking_more L.store).runBlock thenBlock,
        forall_mem_cons.2 ⟨(walking_more L.store).runBlock elseBlock, by simp⟩⟩
    rw [← q.snapshot] at hne
    exact reported_branch hruns hmore s3 t a1 b (hs.of_scope q.scope)
      (ha.of_reads ((reads_readFormula L.store condition).of_ok hcondition)) h hb sort hne
  | .either branches, types, haligned => by
    rw [everywhere, and_eq_true] at haligned
    have hruns := reported_blocks branches haligned.2
    have hmore := (walking_more L.store).runEach branches
    intro s t a b hs ha h hb sort hne
    rw [statement] at h
    rw [runStatement] at hb
    revert h hb hruns hmore
    generalize blocks L branches = runs
    generalize runEach L.store branches = paths
    intro hruns hmore h hb
    match runs, paths, hruns with
    | [], [], .nil =>
      cases pure_ok.1 h
      exact (hne rfl).elim
    | [run], [path], .cons hrun .nil =>
      -- a single alternative runs as it is; the analysis merges its types with nothing
      have h' : run s = .ok ((), t) := h
      unfold Analysis.alternatives at hb
      rw [get_bind, bind_ok] at hb
      obtain ⟨ends, b1, hb1, hb⟩ := hb
      unfold runPaths at hb1
      rw [modify_bind, bind_ok] at hb1
      obtain ⟨⟨⟩, b2, hb2, hb1⟩ := hb1
      have hw : Written L b2 sort := hrun s t { a with types := a.types, locals := a.locals } b2 hs
        ⟨ha.alike, ha.distinct⟩ h' hb2 sort hne
      rw [get_bind, bind_ok] at hb1
      obtain ⟨others, b3, hb3, hb1⟩ := hb1
      cases pure_ok.1 hb3
      cases pure_ok.1 hb1
      cases modify_ok.1 hb
      exact hw
    | first :: second :: rest, p1 :: p2 :: ps, hruns =>
      obtain ⟨indicators, s1, s2, h1, -, q, h⟩ := either_ok h
      rw [← q.snapshot] at hne
      exact reported_branch (forall₂_zip_left (length_choiceIndicators h1) hruns) hmore s2 t a b (hs.of_scope q.scope) ha h hb
        sort hne
  | .forEach var domain body order, _, _ => by
    exact reported_forEach var domain body order (block L body)

theorem reported_block : ∀ (b : List Statement) {types : TypeEnv},
    everywhereIn L.store (aligned L.store) types b = true →
    Reported L types (block L b) (runBlock L.store b)
  | [], _, _ => by
    intro s t a b _ _ h _ sort hne
    cases pure_ok.1 h
    exact (hne rfl).elim
  | st :: rest, _, haligned => by
    intro s t a b hs ha h hb sort hne
    rw [everywhereIn, and_eq_true] at haligned
    obtain ⟨⟨⟩, s1, h1, h⟩ := bind_ok.1 h
    obtain ⟨⟨⟩, a1, hb1, hb⟩ := bind_ok.1 hb
    obtain ⟨mid, hmid, hs1⟩ := flows_statement st _ _ _ hs h1
    have ha1 := follows_runStatement L.store st haligned.1 hmid a a1 ha hb1
    have hrest := haligned.2
    dsimp only at hmid
    rw [hmid] at hrest
    by_cases hfirst : s1.snapshot.slot sort = s.snapshot.slot sort
    · rw [← hfirst] at hne
      exact reported_block rest hrest s1 t a1 b hs1 ha1 h hb sort hne
    · exact (reported_statement st haligned.1 s s1 a a1 hs ha h1 hb1 sort hfirst).mono
        (((walking_more L.store).runBlock rest).of_ok hb)

theorem reported_blocks : ∀ (bs : List (List Statement)) {types : TypeEnv},
    everywhereInAll L.store (aligned L.store) types bs = true →
    List.Forall₂ (Reported L types) (blocks L bs) (runEach L.store bs)
  | [], _, _ => by
    exact .nil
  | b :: rest, _, haligned => by
    rw [everywhereInAll, and_eq_true] at haligned
    exact .cons (reported_block b haligned.1) (reported_blocks rest haligned.2)

end

/-! ## Actions -/

/-- The parameters are bound with their types. -/
theorem follows_params : ∀ (ps : List Param) {types : TypeEnv} {s t : Session}, s.Follows types →
    ps.forM (param L) s = .ok ((), t) →
    ∃ out, params L.store types ps = .ok out ∧ t.Follows out ∧ t.snapshot = s.snapshot
  | [], types, _, _, hs, h => by
    cases forM_nil_ok.1 h
    exact ⟨types, rfl, hs, rfl⟩
  | p :: rest, types, _, _, hs, h => by
    obtain ⟨s1, h1, h2⟩ := forM_cons_ok.1 h
    obtain ⟨c, pred, s2, s3, hc, -, hp, hax, rfl⟩ := param_ok h1
    have q := ((quiet_rootPred _ _).of_ok hp).trans (quiet.paramAxioms.of_ok hax)
    have hbound : (s3.bind p.name ⟨.pred pred 0, paramType c p, false⟩).Follows
        (VarMap.insert types p.name (paramType c p)) := (hs.of_scope q.scope).bind p.name _ rfl
    obtain ⟨out, hout, hfollows, hsnapshot⟩ := follows_params rest hbound h2
    exact ⟨out, exceptBind_ok.2 ⟨c, hc, hout⟩, hfollows, hsnapshot.trans q.snapshot⟩

theorem follows_bindParams (store : Store) : ∀ (ps : List Param) {types out : TypeEnv},
    params store types ps = .ok out → Analysis.Carries types out (bindParams store ps)
  | [], _, _, hflow => by
    cases hflow
    intro a b ha h
    cases pure_ok.1 h
    exact ha
  | p :: rest, _, _, hflow => by
    obtain ⟨c, hc, hflow⟩ := exceptBind_ok.1 hflow
    intro a b ha h
    obtain ⟨c', hc', h⟩ := liftBind_ok.1 h
    rw [hc] at hc'
    cases hc'
    obtain ⟨⟨⟩, a2, h2, h⟩ := bind_ok.1 h
    cases modify_ok.1 h2
    exact follows_bindParams store rest hflow _ b (ha.insert p.name false rfl) h

end Encode

open Encode Analysis in
/-- Where the analysis and the walk over an action agree on the types, the analysis notes every slot that the walk changes. -/
theorem written_of_walk {action : Action} {after : Analysis} {final : Session}
    (haligned : everywhereOf store (aligned store) action = true)
    (hrun : (do bindParams store action.params; runBlock store action.block) ⟨[], [], .empty⟩ = .ok ((), after))
    (hwalk : Encode.walk (Layout.ofStore store).1 action (Layout.ofStore store).2 = .ok ((), final))
    (hchanged : final.snapshot.slot sort ≠ (Layout.ofStore store).2.snapshot.slot sort) :
    Written (Layout.ofStore store).1 after sort := by
  obtain ⟨⟨⟩, s1, hparams, hblock⟩ := bind_ok.1 hwalk
  have hstart : (Layout.ofStore store).2.Follows [] := ⟨fun _ => rfl, distinct_nil⟩
  obtain ⟨types, htypes, hs1, hsnapshot⟩ := follows_params action.params hstart hparams
  rw [← hsnapshot] at hchanged
  have hstore : (Layout.ofStore store).1.store = store := rfl
  rw [hstore] at htypes
  obtain ⟨⟨⟩, a1, hbind, hrun⟩ := bind_ok.1 hrun
  have ha1 := follows_bindParams store action.params htypes ⟨[], [], .empty⟩ a1 ⟨fun _ => rfl, distinct_nil⟩ hbind
  unfold everywhereOf at haligned
  rw [htypes] at haligned
  exact reported_block action.block haligned s1 final a1 after hs1 ha1 hblock hrun sort hchanged

/-- Every sort whose slot an action changes is the sort of a domain that the analysis of the action reports as written, if the
analysis and the walk agree on the types throughout. -/
theorem changed_sorts_reported (store : Store) (action : Action) (effects : EffectMap) (final : Session)
    (haligned : Flow.everywhereOf store (Flow.aligned store) action = true)
    (heffects : action.effects store = .ok effects)
    (hwalk : Encode.walk (Layout.ofStore store).1 action (Layout.ofStore store).2 = .ok ((), final)) (sort : SortId)
    (hchanged : final.snapshot.slot sort ≠ (Layout.ofStore store).2.snapshot.slot sort) :
    ∃ d ∈ effects.writes, (Layout.ofStore store).1.domainSort d = some sort := by
  obtain ⟨⟨⟨⟩, after⟩, hafter, heq⟩ := exceptBind_ok.mp heffects
  cases heq
  obtain ⟨d, hd, hsort⟩ := written_of_walk haligned hafter hwalk hchanged
  exact ⟨d, (EffectMap.mem_domainsWith_normalize after.effects _ d).mpr hd, hsort⟩

namespace Hotel

/-- Guests, some of them regular ones, stay in rooms. -/
def spec : Spec where
  classes := [⟨"Guest", []⟩, ⟨"Regular", ["Guest"]⟩, ⟨"Room", []⟩]
  relations := [⟨"Guest", "stays", "Room", .any, none⟩, ⟨"Room", "guests", "Guest", .any, some "stays"⟩]
  actions := []
  invariants := []

/-- The store of the hotel: guests have sort 0, rooms sort 1 and stays sort 2. -/
def store : Store := (Store.ofSpec spec).toOption.get (by decide +kernel)

theorem ofSpec_spec : Store.ofSpec spec = .ok store := toOption_get_ok _

/-- Guests leave one after another: each is removed, or only gives back some of the rooms. -/
def checkout : Action where
  name := "checkout"
  params := [⟨"leaving", "Guest", .any⟩]
  block := [
    .assign "rooms" (.deref (.var "leaving") "stays"),
    .forEach "g" (.var "leaving") [
      .either [
        [.delete (.iterator "g")],
        [.assign "rooms" (.subset (.var "rooms")), .deleteTuple (.iterator "g") "stays" (.var "rooms")]]] .chained]

/-- All rooms are removed; the variable that holds them is hidden by that of a loop over the guests. -/
def closing : Action where
  name := "closing"
  params := []
  block := [
    .assign "x" (.allOf "Room"),
    .forEach "x" (.allOf "Guest") [.assign "x" (.allOf "Guest")] .chained,
    .delete (.var "x")]

end Hotel

open Hotel

/-- Checking out changes which stays exist, and that is reported. -/
theorem changed_sorts_reported_checkout :
    Flow.everywhereOf Hotel.store (Flow.aligned Hotel.store) Hotel.checkout = true ∧
    ∃ effects final, Hotel.checkout.effects Hotel.store = .ok effects ∧
      Encode.walk (Layout.ofStore Hotel.store).1 Hotel.checkout (Layout.ofStore Hotel.store).2 = .ok ((), final) ∧
      final.snapshot.slot ⟨2⟩ ≠ (Layout.ofStore Hotel.store).2.snapshot.slot ⟨2⟩ ∧
      ∃ d ∈ effects.writes, (Layout.ofStore Hotel.store).1.domainSort d = some ⟨2⟩ := by
  have haligned : Flow.everywhereOf store (Flow.aligned store) checkout = true := by decide +kernel
  obtain ⟨effects, heffects, -⟩ := exists_ok_of_any (x := checkout.effects store) (p := fun _ => true)
    (by decide +kernel)
  obtain ⟨⟨⟨⟩, final⟩, hwalk, hchanged⟩ := exists_ok_of_any
    (x := Encode.walk (Layout.ofStore store).1 checkout (Layout.ofStore store).2)
    (p := fun r => decide (r.2.snapshot.slot ⟨2⟩ ≠ (Layout.ofStore store).2.snapshot.slot ⟨2⟩)) (by decide +kernel)
  exact ⟨haligned, effects, final, heffects, hwalk, of_decide_eq_true hchanged,
    changed_sorts_reported store checkout effects final haligned heffects hwalk ⟨2⟩ (of_decide_eq_true hchanged)⟩

/-- Where the types are not aligned a change can go unreported: closing removes the rooms, but the analysis reports no write. -/
theorem changed_sort_unreported_closing :
    ∃ effects final, Hotel.closing.effects Hotel.store = .ok effects ∧
      Encode.walk (Layout.ofStore Hotel.store).1 Hotel.closing (Layout.ofStore Hotel.store).2 = .ok ((), final) ∧
      final.snapshot.slot ⟨1⟩ ≠ (Layout.ofStore Hotel.store).2.snapshot.slot ⟨1⟩ ∧ effects.writes = [] := by
  obtain ⟨effects, heffects, hwrites⟩ := exists_ok_of_any (x := closing.effects store)
    (p := fun e => decide (e.writes = [])) (by decide +kernel)
  obtain ⟨⟨⟨⟩, final⟩, hwalk, hchanged⟩ := exists_ok_of_any
    (x := Encode.walk (Layout.ofStore store).1 closing (Layout.ofStore store).2)
    (p := fun r => decide (r.2.snapshot.slot ⟨1⟩ ≠ (Layout.ofStore store).2.snapshot.slot ⟨1⟩)) (by decide +kernel)
  exact ⟨effects, final, heffects, hwalk, of_decide_eq_true hchanged, of_decide_eq_true hwrites⟩

end StoreCheck
