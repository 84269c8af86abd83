import StoreCheck.Proofs.Scoping

/-!
# What a successful encoding has come to

Every statement that the encoding of a block comes to (`Reaches`) has been encoded itself, if the encoding of the block
succeeds, and what it made is still there at the end (`encoded_of_reaches`). Two different create statements are not encoded at
the same time: what one of them made is there when the other one starts (`created_apart`).
-/

namespace StoreCheck

open List StoreCheck.Flow Bool Session

variable {alternatives : List (PredId × Block)} {exits : List Encode.Exit} {order : LoopKind} {types : TypeEnv} {x : PredId × Block}
  {st0 : Statement}

namespace Encode

variable {L : Layout} {s t u : Session}

/-! ## Alternatives -/

theorem blocks_eq_map (L : Layout) (bs : List Block) : blocks L bs = bs.map (block L) := by
  induction bs with
  | nil => rw [blocks, map_nil]
  | cons b rest ih => rw [blocks, ih, map_cons]

/-- The encodings of alternatives, each with its indicator. -/
def encodings (L : Layout) (alternatives : List (PredId × Block)) : List (PredId × Encode Unit) :=
  alternatives.map fun a => (a.1, block L a.2)

variable {st : Statement} {before after : List (PredId × Block)} {s1 s2 : Session} {b body c rest : Block}
variable {var className : String} {domain : ObjExpr} {f : LoopFrame} {p : TypeEnv → Statement → Bool}

/-- A statement with alternatives is their branch. -/
theorem branch_of_alternativesOf
    (h : alternativesOf L st s = .ok (alternatives, s1)) (hne : alternatives ≠ []) (hrun : statement L st s = .ok ((), t)) :
    branch L (encodings L alternatives) s1 = .ok ((), t) := by
  unfold alternativesOf at h
  split at h
  · obtain ⟨taken, s2, h1, h⟩ := bind_ok.1 h
    obtain ⟨skipped, s3, h2, h⟩ := bind_ok.1 h
    obtain ⟨⟨⟩, s4, h3, h⟩ := bind_ok.1 h
    cases pure_ok.1 h
    obtain ⟨taken', s2', skipped', s3', s4', h1', h2', h3', -, h4'⟩ := ifElse_ok hrun
    cases h1.symm.trans h1'
    cases h2.symm.trans h2'
    cases h3.symm.trans h3'
    exact h4'
  · rename_i first second rest
    obtain ⟨indicators, s2, h1, h⟩ := bind_ok.1 h
    obtain ⟨⟨⟩, s3, h2, h⟩ := bind_ok.1 h
    cases pure_ok.1 h
    rw [statement, blocks_eq_map] at hrun
    obtain ⟨indicators', s2', s3', h1', h2', -, h3'⟩ := either_ok hrun
    rw [← map_cons, ← map_cons, length_map] at h1'
    cases h1.symm.trans h1'
    cases h2.symm.trans h2'
    rw [← map_cons, ← map_cons, zip_map_right] at h3'
    exact h3'
  · cases pure_ok.1 h
    exact absurd rfl hne

/-- Alternatives are run one after another. -/
theorem runAlternatives_append_ok {after : List (PredId × Encode Unit)} {exits : List Exit} :
    ∀ {before : List (PredId × Encode Unit)} {s : Session}, runAlternatives entry (before ++ after) s = .ok (exits, t) →
      ∃ first others s1, runAlternatives entry before s = .ok (first, s1) ∧ runAlternatives entry after s1 = .ok (others, t) ∧
        exits = first ++ others
  | [], s, h => ⟨[], exits, s, rfl, h, rfl⟩
  | (p, run) :: before, s, h => by
    obtain ⟨s1, others, h1, h2, rfl⟩ := runAlternatives_cons_ok h
    obtain ⟨first, others', s2, h3, h4, rfl⟩ := runAlternatives_append_ok h2
    refine ⟨_ :: first, others', s2, ?_, h4, rfl⟩
    unfold runAlternatives
    rw [modify_bind]
    refine bind_ok.2 ⟨(), s1, h1, ?_⟩
    rw [get_bind]
    exact bind_ok.2 ⟨first, s2, h3, rfl⟩

theorem grows_encodings (L : Layout) (alternatives : List (PredId × Block)) :
    ∀ a ∈ encodings L alternatives, Keeps Grows a.2 := by
  intro a ha
  obtain ⟨b, -, rfl⟩ := mem_map.1 ha
  exact grows_block L b.2

/-- Where alternatives succeed each of them does, from where the ones before it ended. -/
theorem alternative_of_runs {p : PredId} (hbefore : runAlternatives s (encodings L before) s1 = .ok (exits, s2))
    (hrun : runAlternatives s (encodings L (before ++ (p, b) :: after)) s1 = .ok (exits', t)) :
    ∃ s3, block L b (enterAlternative s p s2) = .ok ((), s3) ∧ s3.Extends t := by
  rw [encodings, map_append, map_cons] at hrun
  obtain ⟨first, others, s4, h1, h2, -⟩ := runAlternatives_append_ok hrun
  cases hbefore.symm.trans h1
  obtain ⟨s3, others', h3, h4, -⟩ := runAlternatives_cons_ok h2
  exact ⟨s3, h3, (extends_runAlternatives s (encodings L after) (grows_encodings L after) h4).1⟩

/-- In a branch that succeeds each alternative does, from where the ones before it ended. -/
theorem alternative_of_branch {p : PredId} (halternatives : alternativesOf L st s = .ok (before ++ (p, b) :: after, s1))
    (hbefore : runAlternatives s1 (encodings L before) s1 = .ok (exits, s2)) (hrun : statement L st s = .ok ((), t)) :
    ∃ s3, block L b (enterAlternative s1 p s2) = .ok ((), s3) ∧ s3.Extends t := by
  have hbranch := branch_of_alternativesOf halternatives (by simp) hrun
  obtain ⟨exits', s4, changes, s5, h1, h2, rfl⟩ := branch_ok hbranch
  obtain ⟨s3, h3, hext⟩ := alternative_of_runs hbefore h1
  have hleave : s4.Extends (leaveAlternatives s1 s4) := s4.extends_place _ _ _ _
  have hmerge := ((Keeps.mapM (fun sort => quiet.mergeSlot) _).of_ok h2).extends
  exact ⟨s3, h3, (hext.trans hleave).trans (hmerge.trans (s5.extends_place _ _ _ _))⟩

/-! ## Loops -/

/-- The encoding of a loop comes to its body in one way. -/
theorem StartsLoop.unique (h : StartsLoop L var domain body order s f s1) (h' : StartsLoop L var domain body order s f' s1') :
    f = f' ∧ s1 = s1' := by
  obtain ⟨hdomain, hsort, hplan, hcontext, haxioms⟩ := h
  obtain ⟨hdomain', hsort', hplan', hcontext', haxioms'⟩ := h'
  cases hdomain.symm.trans hdomain'
  cases hsort.symm.trans hsort'
  cases hplan.symm.trans hplan'
  cases hcontext.symm.trans hcontext'
  cases haxioms.symm.trans haxioms'
  exact ⟨rfl, rfl⟩

/-- What the encoding of a loop has made when it comes to the body. -/
theorem grows_of_starts (hstart : StartsLoop L var domain body order s f t) : s.Grows t := by
  obtain ⟨hdomain, -, -, hcontext, haxioms⟩ := hstart
  exact ((quiet_objSet L false s.scope domain).of_ok hdomain).toGrows.trans
    (((grows_addContext _ order var).of_ok hcontext).trans ((quiet_contextAxioms L _ var _ _).of_ok haxioms).toGrows)

/-- A loop that starts and succeeds is a flat or a chained loop from there. -/
theorem loop_of_starts
    (h : StartsLoop L var domain body order s f s1) (hrun : statement L (.forEach var domain body order) s = .ok ((), t)) :
    (order = .flat → flatLoop f s1 = .ok ((), t)) ∧ (order = .chained → chainedLoop L f s1 = .ok ((), t)) ∧
      f.body = block L body := by
  obtain ⟨hdomain, hsort, hplan, hcontext, haxioms⟩ := h
  obtain ⟨value, type, s2, h1, ⟨h2, -⟩ | ⟨sort, plan, child, s3, s4, h2, h3, h4, h5, hflat, hchained⟩⟩ := forEach_ok hrun
  · cases hdomain.symm.trans h1
    cases hsort.symm.trans h2
  · cases hdomain.symm.trans h1
    cases hsort.symm.trans h2
    cases hplan.symm.trans h3
    cases hcontext.symm.trans h4
    cases haxioms.symm.trans h5
    exact ⟨hflat, hchained, rfl⟩

/-- In a flat loop that succeeds the body does. -/
theorem flatBody_of_starts
    (h : StartsLoop L var domain body .flat s f s1) (hrun : statement L (.forEach var domain body .flat) s = .ok ((), t)) :
    ∃ s2, block L body (enterBody f s1.snapshot s1) = .ok ((), s2) ∧ s2.Extends t := by
  obtain ⟨hflat, -, hbody⟩ := loop_of_starts h hrun
  obtain ⟨loop, s2, changes, s3, -, h1, -, h2, rfl⟩ := flatLoop_ok (hflat rfl)
  obtain ⟨s4, h3, -, rfl⟩ := loopBody_ok h1
  rw [hbody] at h3
  have hleave : s4.Extends (leaveBody s1.snapshot s1 s4) := s4.extends_place _ _ _ _
  have hmerge := ((Keeps.mapM (fun sort => quiet.mergeIterations) _).of_ok h2).toGrows
  exact ⟨s4, h3, hleave.trans (hmerge.trans (s3.grows_atSnapshot _)).extends⟩

/-- In a chained loop that succeeds the body does. -/
theorem chainedBody_of_starts (h : StartsLoop L var domain body .chained s f s1)
    (hinputs : iterationInputs L f (s1.inContext f.child) = .ok ((inputs, carries), s2))
    (hrun : statement L (.forEach var domain body .chained) s = .ok ((), t)) :
    ∃ s3, block L body (enterBody f (s1.snapshot.withSlots inputs) (s2.inContext s1.context)) = .ok ((), s3) ∧
      s3.Extends t := by
  obtain ⟨-, hchained, hbody⟩ := loop_of_starts h hrun
  obtain ⟨order, inputs', carries', s3, loop, s4, s5, changes, s6, -, h1, h2, -, h3, h4, h5⟩ := chainedLoop_ok (hchained rfl)
  cases hinputs.symm.trans h1
  obtain ⟨s7, h6, -, rfl⟩ := loopBody_ok h2
  rw [hbody] at h6
  refine ⟨s7, h6, ?_⟩
  have hleave := s7.extends_place s7.guards s1.context (s1.snapshot.withSlots inputs) s2.scope
  have hagain := (leaveBody (s1.snapshot.withSlots inputs) (s2.inContext s1.context) s7).extends_place
    s7.guards f.child (s1.snapshot.withSlots inputs) s1.scope
  have hthreads := ((quiet_threads L f order s1.snapshot loop carries inputs).of_ok h3).extends
  have hback : s5.Extends (s5.inContext s1.context) := s5.extends_place _ _ _ _
  have hslots :=
    ((Keeps.mapM (fun input : SortId × Slot => quiet.exitSlot) _).of_ok h4).extends
  have hvalues := ((Keeps.forM (fun name => grows_exitValue f order s1.scope loop name) _).of_ok h5).extends
  exact ((hleave.trans hagain).trans (hthreads.trans hback)).trans
    (hslots.trans ((s6.grows_atSnapshot _).extends.trans hvalues))

/-! ## Statements that the encoding comes to -/

theorem Reaches.trans (h : Reaches L s b t c) (h' : Reaches L t c u d) : Reaches L s b u d := by
  induction h with
  | here => exact h'
  | later hrun _ ih => exact .later hrun (ih h')
  | alternative halternatives hbefore _ ih => exact .alternative halternatives hbefore (ih h')
  | only _ ih => exact .only (ih h')
  | flatBody hstart _ ih => exact .flatBody hstart (ih h')
  | chainedBody hstart hinputs _ ih => exact .chainedBody hstart hinputs (ih h')

/-- What was there at the start is there wherever the encoding comes to. -/
theorem extends_of_reaches (h : Reaches L s b t c) : s.Extends t := by
  induction h with
  | here s b => exact (Grows.refl s).extends
  | @later s s1 t st rest c hrun h ih => exact ((grows_statement L st).of_ok hrun).extends.trans ih
  | @alternative s s1 s2 t st rest b c p before after exits halternatives hbefore h ih =>
    have hq : s.Quiet s1 := (quiet_alternativesOf L st).of_ok halternatives
    have hext := (extends_runAlternatives s1 (encodings L before) (grows_encodings L before) hbefore).1
    have henter : s2.Extends (enterAlternative s1 p s2) := s2.extends_place _ _ _ _
    exact ((hq.extends.trans hext).trans henter).trans ih
  | only h ih => exact ih
  | @flatBody s s1 t var domain body rest c f hstart h ih =>
    have henter : s1.Extends (enterBody f s1.snapshot s1) := s1.extends_place _ _ _ _
    exact ((grows_of_starts hstart).extends.trans henter).trans ih
  | @chainedBody s s1 s2 t var domain body rest c f inputs carries hstart hinputs h ih =>
    have hin : s1.Extends (s1.inContext f.child) := s1.extends_place _ _ _ _
    have hinput := ((grows_iterationInputs f).of_ok hinputs).extends
    have henter : s2.Extends (enterBody f (s1.snapshot.withSlots inputs) (s2.inContext s1.context)) :=
      s2.extends_place _ _ _ _
    exact ((((grows_of_starts hstart).extends.trans hin).trans hinput).trans henter).trans ih

/-- A block that succeeds has encoded every statement that its encoding comes to. -/
theorem encoded_of_reaches (h : Reaches L s b u c) : ∀ {t : Session} {st : Statement} {rest : Block},
    c = st :: rest → block L b s = .ok ((), t) → ∃ u', statement L st u = .ok ((), u') ∧ u'.Extends t := by
  induction h with
  | here s b =>
    rintro t st rest rfl hrun
    obtain ⟨⟨⟩, s1, h1, h2⟩ := bind_ok.1 hrun
    exact ⟨s1, h1, ((grows_block L rest).of_ok h2).extends⟩
  | later hfirst h ih =>
    intro t st rest hc hrun
    obtain ⟨⟨⟩, s1, h1, h2⟩ := bind_ok.1 hrun
    cases hfirst.symm.trans h1
    exact ih hc h2
  | alternative halternatives hbefore h ih =>
    intro t st rest hc hrun
    obtain ⟨⟨⟩, s1, h1, h2⟩ := bind_ok.1 hrun
    obtain ⟨s3, h3, hext⟩ := alternative_of_branch halternatives hbefore h1
    obtain ⟨u', hu, hext'⟩ := ih hc h3
    exact ⟨u', hu, (hext'.trans hext).trans ((grows_block L _).of_ok h2).extends⟩
  | only h ih =>
    intro t st rest hc hrun
    obtain ⟨⟨⟩, s1, h1, h2⟩ := bind_ok.1 hrun
    obtain ⟨u', hu, hext⟩ := ih hc h1
    exact ⟨u', hu, hext.trans ((grows_block L _).of_ok h2).extends⟩
  | flatBody hstart h ih =>
    intro t st rest hc hrun
    obtain ⟨⟨⟩, s1, h1, h2⟩ := bind_ok.1 hrun
    obtain ⟨s3, h3, hext⟩ := flatBody_of_starts hstart h1
    obtain ⟨u', hu, hext'⟩ := ih hc h3
    exact ⟨u', hu, (hext'.trans hext).trans ((grows_block L _).of_ok h2).extends⟩
  | chainedBody hstart hinputs h ih =>
    intro t st rest hc hrun
    obtain ⟨⟨⟩, s1, h1, h2⟩ := bind_ok.1 hrun
    obtain ⟨s3, h3, hext⟩ := chainedBody_of_starts hstart hinputs h1
    obtain ⟨u', hu, hext'⟩ := ih hc h3
    exact ⟨u', hu, (hext'.trans hext).trans ((grows_block L _).of_ok h2).extends⟩

/-! ## Conditions that hold everywhere -/

/-- The blocks of the alternatives are those of the statement. -/
theorem everywhereIn_of_alternative (h : alternativesOf L st s = .ok (alternatives, t))
    (hall : everywhere L.store p types st = true) (ha : a ∈ alternatives) :
    everywhereIn L.store p types a.2 = true := by
  have hblocks : ∀ {bs : List Block}, everywhereInAll L.store p types bs = true → ∀ b ∈ bs,
      everywhereIn L.store p types b = true := by
    intro bs
    induction bs with
    | nil => simp
    | cons b rest ih =>
      intro hbs
      rw [everywhereInAll, and_eq_true] at hbs
      exact forall_mem_cons.2 ⟨hbs.1, ih hbs.2⟩
  unfold alternativesOf at h
  split at h
  · obtain ⟨taken, s1, -, h⟩ := bind_ok.1 h
    obtain ⟨skipped, s2, -, h⟩ := bind_ok.1 h
    obtain ⟨⟨⟩, s3, -, h⟩ := bind_ok.1 h
    cases pure_ok.1 h
    rw [everywhere, and_eq_true, and_eq_true] at hall
    rcases mem_cons.1 ha with rfl | ha
    · exact hall.1.2
    · rw [mem_singleton.1 ha]
      exact hall.2
  · obtain ⟨indicators, s1, -, h⟩ := bind_ok.1 h
    obtain ⟨⟨⟩, s2, -, h⟩ := bind_ok.1 h
    cases pure_ok.1 h
    rw [everywhere, and_eq_true] at hall
    exact hblocks hall.2 _ (of_mem_zip ha).2
  · cases pure_ok.1 h
    cases ha

/-- The types at the start of a loop's body. -/
theorem follows_of_starts (hs : s.Follows types) (hstart : StartsLoop L var domain body order s f s1) :
    ∃ type, infer L.store types domain = .ok type ∧ type.signature.isBottom = false ∧ s1.Follows types ∧
      ∀ (entry : Snapshot) (u : Session), u.Follows types →
        (enterBody f entry u).Follows (VarMap.insert types var type.single) := by
  obtain ⟨hdomain, hsort, hplan, hcontext, haxioms⟩ := hstart
  obtain ⟨htype, -, -⟩ := objSet_ok hdomain
  obtain ⟨u, hu, hsignature⟩ := hs.infer htype
  have hscope : s1.scope = s.scope := ((quiet_contextAxioms L _ var _ _).of_ok haxioms).scope.trans
    ((scope_addContext hcontext).trans ((quiet_objSet L false s.scope domain).of_ok hdomain).scope)
  refine ⟨u, hu, by rw [hsignature]; exact isBottom_of_sortOf_some hsort, hs.of_scope hscope, fun entry v hv => ?_⟩
  refine (hv.bind var ⟨.param (v.contexts.level _), _, _⟩ ?_).of_scope rfl
  exact hsignature

/-- A condition that holds everywhere in a block holds of every part that its encoding comes to, with the types there. -/
theorem everywhere_of_reaches (h : Reaches L s b t c) :
    ∀ {types : TypeEnv}, s.Follows types → Flow.everywhereIn L.store p types b = true →
      ∃ types', t.Follows types' ∧ Flow.everywhereIn L.store p types' c = true := by
  induction h with
  | here s b => exact fun hs hall => ⟨_, hs, hall⟩
  | @later s s1 t st rest c hrun h ih =>
    intro types hs hall
    obtain ⟨after, hafter, hs1⟩ := flows_statement st types s s1 hs hrun
    rw [Flow.everywhereIn, and_eq_true] at hall
    have hrest := hall.2
    rw [show Flow.statement L.store types st = .ok after from hafter] at hrest
    exact ih hs1 hrest
  | @alternative s s1 s2 t st rest b c p before after exits halternatives hbefore h ih =>
    intro types hs hall
    rw [Flow.everywhereIn, and_eq_true] at hall
    exact ih (hs.of_scope ((quiet_alternativesOf L st).of_ok halternatives).scope)
      (everywhereIn_of_alternative halternatives hall.1 (a := (p, b)) (by simp))
  | @only s t rest b c h ih =>
    intro types hs hall
    rw [Flow.everywhereIn, and_eq_true, Flow.everywhere, and_eq_true, Flow.everywhereInAll, and_eq_true] at hall
    exact ih hs hall.1.2.1
  | flatBody hstart h ih =>
    intro types hs hall
    obtain ⟨type, htype, hbottom, hs1, henter⟩ := follows_of_starts hs hstart
    rw [Flow.everywhereIn, and_eq_true, Flow.everywhere, and_eq_true, htype] at hall
    exact ih (henter _ _ hs1) (by simpa [hbottom] using hall.1.2)
  | @chainedBody s s1 s2 t var domain body rest c f inputs carries hstart hinputs h ih =>
    intro types hs hall
    obtain ⟨type, htype, hbottom, hs1, henter⟩ := follows_of_starts hs hstart
    rw [Flow.everywhereIn, and_eq_true, Flow.everywhere, and_eq_true, htype] at hall
    have hs1' : (s1.inContext f.child).Follows types := hs1.of_scope rfl
    have hs2 := follows_iterationInputs hs1' hinputs
    exact ih (henter _ _ (hs2.of_scope rfl)) (by simpa [hbottom] using hall.1.2)

/-- The condition holds at the first statement of a block. -/
theorem everywhere_head (h : everywhereIn store p types (st :: rest) = true) : p types st = true := by
  rw [everywhereIn, and_eq_true] at h
  have hst := h.1
  cases st <;> simp only [everywhere, and_eq_true] at hst <;> simp [hst]

/-! ## Create statements -/

/-- The creation that a create statement adds in the session, and the class of its objects. -/
structure AddsCreation (L : Layout) (s : Session) (className : String) (c : ClassId) (made : Creation) : Prop where
  resolved : L.graph.resolve className = .ok c
  sort : made.sort = L.classSort c
  params : made.params = s.paramSorts
  pred : ∃ t, freshPred ("created_" ++ className) [L.classSort c] s = .ok (made.pred, t)

theorem AddsCreation.unique {c c' : ClassId} (h : AddsCreation L s className c made) (h' : AddsCreation L s className c' made') :
    c = c' ∧ made = made' := by
  obtain ⟨hc, hsort, hparams, s1, hp⟩ := h
  obtain ⟨hc', hsort', hparams', s1', hp'⟩ := h'
  cases hc.symm.trans hc'
  refine ⟨rfl, ?_⟩
  cases made
  cases made'
  simp_all

/-- A create statement adds its creation, and obeys the axioms on it. -/
theorem create_adds {var : Option String} (h : statement L (.create className var) s = .ok ((), t)) :
    ∃ c made s1 s2, AddsCreation L s className c made ∧ s.Quiet s1 ∧
      creationAxioms L c (L.classSort c) made.pred s1 = .ok ((), s2) ∧ s2.Extends t ∧ t.creations = s.creations ++ [made] := by
  obtain ⟨c, p, s1, s2, after, s3, s4, hc, h1, h2, h3, h4, hq, rfl⟩ := create_ok h
  have hq1 := (quiet_freshPred _ _).of_ok h1
  have hq4 := (quiet.freshSlot.of_ok h3).trans ((quiet.axiomOver quiet.createdSlot).of_ok h4)
  have hcreated : (created (L.classSort c) after p s4).creations = s.creations ++ [⟨L.classSort c, p, s.paramSorts⟩] := by
    rw [created, hq.made, hq.paramSorts]
  have hext : s2.Extends (created (L.classSort c) after p s4) := hq4.toGrows.extends.trans (grows_created _ _ _ _).extends
  refine ⟨c, ⟨L.classSort c, p, s.paramSorts⟩, s1, s2, ⟨hc, rfl, rfl, s1, h1⟩, hq1, h2, ?_⟩
  cases var with
  | none => exact ⟨hext, hcreated⟩
  | some name => exact ⟨hext.trans (grows_bind _ name _).extends, hcreated⟩

theorem creations_create {var : Option String} (h : statement L (.create className var) s = .ok ((), t)) :
    t.creations.length = s.creations.length + 1 := by
  obtain ⟨c, made, -, -, -, -, -, -, hcreations⟩ := create_adds h
  simp [hcreations]

/-- The statement creates an object. -/
def IsCreate (st : Statement) : Prop := ∃ className var, st = .create className var

/-- A create statement that was come to inside a part that has been encoded made its object before the part ended. -/
theorem created_before (hst : IsCreate st) (h : Reaches L s b u (st :: rest))
    (hrun : block L b s = .ok ((), t)) : u.creations.length < t.creations.length := by
  obtain ⟨className, var, rfl⟩ := hst
  obtain ⟨u', hu, hext⟩ := encoded_of_reaches h rfl hrun
  have hlength := creations_create hu
  have hle := hext.creations.length_le
  omega

theorem no_alternative (h : (pure [] : Encode (List (PredId × Block))) s = .ok (before ++ x :: after, t)) : False := by
  have hnil : before ++ x :: after = [] := congrArg Prod.fst (pure_ok.1 h)
  simp at hnil

theorem not_isCreate (h : alternativesOf L st s = .ok (before ++ x :: after, t)) : ¬ IsCreate st := by
  rintro ⟨className, var, rfl⟩
  exact no_alternative h

/-- The encoding of a block comes to the statement inside the first statement of the block, or after it; if it is a create
statement it may be the first one itself. -/
theorem reaches_cases (h : Reaches L s (st0 :: rest0) u (st :: rest)) :
    (u = s ∧ st = st0 ∧ rest = rest0) ∨ (∃ s1, statement L st0 s = .ok ((), s1) ∧ Reaches L s1 rest0 u (st :: rest)) ∨
      (¬ IsCreate st0 ∧ Reaches L s [st0] u (st :: rest)) := by
  cases h with
  | here => exact .inl ⟨rfl, rfl, rfl⟩
  | later hrun h => exact .inr (.inl ⟨_, hrun, h⟩)
  | alternative halternatives hbefore h => exact .inr (.inr ⟨not_isCreate halternatives, .alternative halternatives hbefore h⟩)
  | only h =>
    refine .inr (.inr ⟨?_, .only h⟩)
    rintro ⟨_, _, hst⟩
    cases hst
  | flatBody hstart h =>
    refine .inr (.inr ⟨?_, .flatBody hstart h⟩)
    rintro ⟨_, _, hst⟩
    cases hst
  | chainedBody hstart hinputs h =>
    refine .inr (.inr ⟨?_, .chainedBody hstart hinputs h⟩)
    rintro ⟨_, _, hst⟩
    cases hst

/-- A create statement inside a statement made its object before one that comes after the statement starts. -/
theorem created_inside {rest0 : Block} {v : Session} (hst : IsCreate st) (h : Reaches L s [st0] u (st :: rest))
    (hrun : statement L st0 s = .ok ((), s1)) (h' : Reaches L s1 rest0 v c) : u.creations.length < v.creations.length := by
  have hblock : block L [st0] s = .ok ((), s1) := by
    exact bind_ok.2 ⟨(), s1, hrun, by rw [block]; rfl⟩
  exact Nat.lt_of_lt_of_le (created_before hst h hblock) (extends_of_reaches h').creations.length_le

/-- Of two create statements that an encoding comes to, one has made its object when the other one starts, unless they are the
same. -/
theorem created_apart (h : Reaches L s b u c) : ∀ {v : Session} {st st' : Statement} {rest rest' : Block},
    c = st :: rest → IsCreate st → IsCreate st' → Reaches L s b v (st' :: rest') →
      (u = v ∧ st :: rest = st' :: rest') ∨ u.creations.length < v.creations.length ∨
        v.creations.length < u.creations.length := by
  induction h with
  | here s b =>
    rintro v st st' rest rest' rfl hst hst' h'
    rcases reaches_cases h' with ⟨rfl, rfl, rfl⟩ | ⟨s1, hrun, h'⟩ | ⟨hnot, -⟩
    · exact .inl ⟨rfl, rfl⟩
    · exact .inr (.inl (created_inside hst (.here s [st]) hrun h'))
    · exact absurd hst hnot
  | @later s s1 t st0 rest0 c hrun h ih =>
    rintro v st st' rest rest' rfl hst hst' h'
    rcases reaches_cases h' with ⟨rfl, rfl, rfl⟩ | ⟨s1', hrun', h'⟩ | ⟨-, h'⟩
    · exact .inr (.inr (created_inside hst' (.here v [st']) hrun h))
    · cases hrun.symm.trans hrun'
      exact ih rfl hst hst' h'
    · exact .inr (.inr (created_inside hst' h' hrun h))
  | @alternative s s1 s2 t st0 rest0 b c p before after exits halternatives hbefore h ih =>
    rintro v st st' rest rest' rfl hst hst' h'
    cases h' with
    | here => exact absurd hst' (not_isCreate halternatives)
    | later hrun h' => exact .inr (.inl (created_inside hst (.alternative halternatives hbefore h) hrun h'))
    | @alternative _ s1' s2' _ _ _ b' _ p' before' after' exits' halternatives' hbefore' h' =>
      obtain ⟨heq, rfl⟩ : before ++ (p, b) :: after = before' ++ (p', b') :: after' ∧ s1 = s1' := by
        simpa using halternatives.symm.trans halternatives'
      rcases append_eq_append_iff.1 heq with ⟨mid, rfl, hmid⟩ | ⟨mid, rfl, hmid⟩
      · cases mid with
        | nil =>
          cases hmid
          rw [append_nil] at hbefore'
          cases hbefore.symm.trans hbefore'
          exact ih rfl hst hst' h'
        | cons x mid =>
          obtain ⟨rfl, -⟩ := List.cons.inj hmid
          obtain ⟨s3, h3, hext⟩ := alternative_of_runs hbefore hbefore'
          have hlt := created_before hst h h3
          have hle := hext.creations.length_le
          have hle' : s2'.creations.length ≤ v.creations.length := (extends_of_reaches h').creations.length_le
          exact .inr (.inl (by omega))
      · cases mid with
        | nil =>
          cases hmid
          rw [append_nil] at hbefore
          cases hbefore.symm.trans hbefore'
          exact ih rfl hst hst' h'
        | cons x mid =>
          obtain ⟨rfl, -⟩ := List.cons.inj hmid
          obtain ⟨s3, h3, hext⟩ := alternative_of_runs hbefore' hbefore
          have hlt := created_before hst' h' h3
          have hle := hext.creations.length_le
          have hle' : s2.creations.length ≤ t.creations.length := (extends_of_reaches h).creations.length_le
          exact .inr (.inr (by omega))
    | only h' => exact (no_alternative halternatives).elim
    | flatBody hstart h' => exact (no_alternative halternatives).elim
    | chainedBody hstart hinputs h' => exact (no_alternative halternatives).elim
  | @only s t rest0 b c h ih =>
    rintro v st st' rest rest' rfl hst hst' h'
    cases h' with
    | here => exact absurd hst' (by rintro ⟨_, _, hst'⟩; cases hst')
    | later hrun h' => exact .inr (.inl (created_inside hst (.only h) hrun h'))
    | alternative halternatives hbefore h' => exact (no_alternative halternatives).elim
    | only h' => exact ih rfl hst hst' h'
  | @flatBody s s1 t var domain body rest0 c f hstart h ih =>
    rintro v st st' rest rest' rfl hst hst' h'
    cases h' with
    | here => exact absurd hst' (by rintro ⟨_, _, hst'⟩; cases hst')
    | later hrun h' => exact .inr (.inl (created_inside hst (.flatBody hstart h) hrun h'))
    | alternative halternatives hbefore h' => exact (no_alternative halternatives).elim
    | flatBody hstart' h' =>
      obtain ⟨rfl, rfl⟩ := hstart.unique hstart'
      exact ih rfl hst hst' h'
  | @chainedBody s s1 s2 t var domain body rest0 c f inputs carries hstart hinputs h ih =>
    rintro v st st' rest rest' rfl hst hst' h'
    cases h' with
    | here => exact absurd hst' (by rintro ⟨_, _, hst'⟩; cases hst')
    | later hrun h' => exact .inr (.inl (created_inside hst (.chainedBody hstart hinputs h) hrun h'))
    | alternative halternatives hbefore h' => exact (no_alternative halternatives).elim
    | chainedBody hstart' hinputs' h' =>
      obtain ⟨rfl, rfl⟩ := hstart.unique hstart'
      cases hinputs.symm.trans hinputs'
      exact ih rfl hst hst' h'

end Encode

end StoreCheck
