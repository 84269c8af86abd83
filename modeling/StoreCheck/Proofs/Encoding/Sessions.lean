import StoreCheck.Proofs.Encoding.SortedGoal
import StoreCheck.Proofs.TypeInvariants

/-!
# The sessions that an encoding comes to

The encoding of a goal walks over parameters, statements and formulas, whether it succeeds in the end or fails. `Reaches` follows
it inside a block, into alternatives and loop bodies, and `Reached` from the start of a goal. Every session that is reached is
sorted (`Reached.placed`), and the types of its variables have every property that types hand on (`Reached.typed`).
-/

namespace StoreCheck

open List Encode ObjValue Layout

variable {symbols : Symbols} {body b c : Block} {domain : ObjExpr} {order : LoopKind} {var : String}

variable {k : SortId → SortId} {L : Layout} {s t : Session}

namespace Encode

/-- The alternatives of a statement, each with its indicator; other statements have none. -/
def alternativesOf (L : Layout) : Statement → Encode (List (PredId × Block))
  | .ifElse condition thenBlock elseBlock => do
    let taken ← freshPred "then" []
    let skipped ← freshPred "else" []
    axiomOver (decided L condition taken skipped)
    return [(taken, thenBlock), (skipped, elseBlock)]
  | .either (first :: second :: rest) => do
    let indicators ← choiceIndicators (rest.length + 2)
    axiomOver (oneTaken indicators)
    return indicators.zip (first :: second :: rest)
  | _ => return []

/-- The encoding of a loop comes to its body: the domain, the plan and the context of the loop are there. -/
inductive StartsLoop (L : Layout) (var : String) (domain : ObjExpr) (body : Block) (order : LoopKind) (s : Session) :
    LoopFrame → Session → Prop where
  | intro {value : ObjValue} {type : ObjType} {sort : SortId} {plan : LoopPlan} {child : ContextId} {s1 s2 s3 : Session}
      (hdomain : objSet L false s.scope domain s = .ok ((value, type), s1)) (hsort : L.sortOf type = .ok (some sort))
      (hplan : planLoop L s.scope var type (s.scope.isLocal domain) body = .ok plan)
      (hcontext : addContext sort order var s1 = .ok (child, s2))
      (haxioms : contextAxioms L child var sort value s2 = .ok ((), s3)) :
      StartsLoop L var domain body order s (loopFrame var type (s.scope.isLocal domain) child sort plan (block L body)) s3

/-- The encoding of a block that starts in the first session comes to a later part of the block, or of a block inside it, in the
second session. -/
inductive Reaches (L : Layout) : Session → Block → Session → Block → Prop where
  | here (s : Session) (b : Block) : Reaches L s b s b
  | later {s s1 t : Session} {st : Statement} {rest c : Block} (hrun : statement L st s = .ok ((), s1))
      (h : Reaches L s1 rest t c) : Reaches L s (st :: rest) t c
  -- the alternatives before have been encoded
  | alternative {s s1 s2 t : Session} {st : Statement} {rest b c : Block} {p : PredId} {before after : List (PredId × Block)}
      {exits : List Exit} (halternatives : alternativesOf L st s = .ok (before ++ (p, b) :: after, s1))
      (hbefore : runAlternatives s1 (before.map fun a => (a.1, block L a.2)) s1 = .ok (exits, s2))
      (h : Reaches L (enterAlternative s1 p s2) b t c) : Reaches L s (st :: rest) t c
  | only {s t : Session} {rest b c : Block} (h : Reaches L s b t c) : Reaches L s (.either [b] :: rest) t c
  | flatBody {s s1 t : Session} {var : String} {domain : ObjExpr} {body rest c : Block} {f : LoopFrame}
      (hstart : StartsLoop L var domain body .flat s f s1) (h : Reaches L (enterBody f s1.snapshot s1) body t c) :
      Reaches L s (.forEach var domain body .flat :: rest) t c
  | chainedBody {s s1 s2 t : Session} {var : String} {domain : ObjExpr} {body rest c : Block} {f : LoopFrame}
      {inputs : List (SortId × Slot)} {carries : List Carry} (hstart : StartsLoop L var domain body .chained s f s1)
      (hinputs : iterationInputs L f (s1.inContext f.child) = .ok ((inputs, carries), s2))
      (h : Reaches L (enterBody f (s1.snapshot.withSlots inputs) (s2.inContext s1.context)) body t c) :
      Reaches L s (.forEach var domain body .chained :: rest) t c

/-- The encoding of a block comes to the end of the block, if it succeeds. -/
theorem reaches_end : ∀ (b : Block) {s t : Session}, block L b s = .ok ((), t) → Reaches L s b t []
  | [], s, t, hrun => by
    cases pure_ok.1 hrun
    exact .here s []
  | st :: rest, s, t, hrun => by
    obtain ⟨⟨⟩, s1, h1, h2⟩ := bind_ok.1 hrun
    exact .later h1 (reaches_end rest h2)

theorem quiet_alternativesOf (L : Layout) (st : Statement) : Keeps Session.Quiet (alternativesOf L st) := by
  unfold alternativesOf
  split
  · exact .bind (quiet_freshPred _ _) fun _ => .bind (quiet_freshPred _ _) fun _ =>
      .bind (quiet.axiomOver (quiet_decided L _ _ _)) fun _ => .pure _
  · exact .bind (quiet_choiceIndicators _) fun _ => .bind (quiet.axiomOver quiet.oneTaken) fun _ => .pure _
  · exact .pure _

theorem placed_alternativesOf (hlaid : L.Laid symbols) (h : s.Placed k L)
    (hrun : alternativesOf L st s = .ok (alternatives, t)) :
    t.Placed k L ∧ ∀ a ∈ alternatives, t.HasPred k a.1 [] := by
  unfold alternativesOf at hrun
  split at hrun
  · obtain ⟨taken, s1, h1, hrun⟩ := bind_ok.1 hrun
    obtain ⟨skipped, s2, h2, hrun⟩ := bind_ok.1 hrun
    obtain ⟨⟨⟩, s3, h3, hrun⟩ := bind_ok.1 hrun
    cases pure_ok.1 hrun
    obtain ⟨ht, htaken, hskipped, -⟩ := placed_decide hlaid h h1 h2 h3
    exact ⟨ht, forall_mem_cons.2 ⟨htaken, forall_mem_singleton.2 hskipped⟩⟩
  · obtain ⟨indicators, s1, h1, hrun⟩ := bind_ok.1 hrun
    obtain ⟨⟨⟩, s2, h2, hrun⟩ := bind_ok.1 hrun
    cases pure_ok.1 hrun
    obtain ⟨ht, hpreds, -⟩ := placed_choose h h1 h2
    exact ⟨ht, fun a ha => hpreds a.1 (of_mem_zip ha).1⟩
  · cases pure_ok.1 hrun
    exact ⟨h, by simp⟩

theorem placed_loop (hlaid : L.Laid symbols) (h : s.Placed k L)
    (hstart : StartsLoop L var domain body order s f t) :
    t.Placed k L ∧ f.Sorted L t ∧ t.scope = s.scope ∧
      (order = .chained → ∃ chain, (t.contexts.get f.child).kind = .chained chain) := by
  obtain ⟨hdomain, hsort, hplan, hcontext, haxioms⟩ := hstart
  obtain ⟨ht, hf, hscope⟩ := placed_startLoop hlaid (block L body) h hdomain hsort hplan hcontext haxioms
  refine ⟨ht, hf, hscope, fun horder => ?_⟩
  subst horder
  rw [((quiet_contextAxioms L _ var _ _).of_ok haxioms).table]
  exact chained_addContext hcontext

/-- A session has the types that its variables have. -/
theorem follows_self (h : VarMap.Distinct s.scope) : s.Follows s.scope.types := ⟨fun _ => rfl, h⟩

/-- What the encoding of a block comes to is sorted, up to which sort is which, and binds each variable once. -/
theorem placed_of_reaches (hlaid : L.Laid symbols) (hk : Loose k) (h : Reaches L s b t c) :
    s.Placed k L → VarMap.Distinct s.scope → t.Placed k L ∧ VarMap.Distinct t.scope := by
  induction h with
  | here => exact fun hs hdistinct => ⟨hs, hdistinct⟩
  | @later s s1 t st rest c hrun h ih =>
    intro hs hdistinct
    have hfollows := follows_self hdistinct
    obtain ⟨types, -, hfollows1⟩ := flows_statement st _ s s1 hfollows hrun
    exact ih (placed_statement hlaid st (.inr hk) s s1 hs hfollows hrun) hfollows1.distinct
  | @alternative s s1 s2 t st rest b c p before after exits halternatives hbefore h ih =>
    intro hs hdistinct
    obtain ⟨hs1, hpreds⟩ := placed_alternativesOf hlaid hs halternatives
    have hfollows1 : s1.Follows s.scope.types :=
      (follows_self hdistinct).of_scope ((quiet_alternativesOf L st).of_ok halternatives).scope
    obtain ⟨hs2, hover, -⟩ := sorted_runAlternatives hs1 hfollows1 (before.map fun a => (a.1, block L a.2)) (fun a ha => by
        obtain ⟨a', ha', rfl⟩ := mem_map.1 ha
        exact hpreds a' (by simp [ha']))
      (fun a ha => by
        obtain ⟨a', -, rfl⟩ := mem_map.1 ha
        exact grows_block L a'.2)
      (fun a ha => by
        obtain ⟨a', -, rfl⟩ := mem_map.1 ha
        exact placed_block hlaid a'.2 (.inr hk)) hs1.sorted (Session.Grows.refl s1).beside hbefore
    exact ih (placed_enterAlternative hs1 (hpreds (p, b) (by simp)) hs2 hover) hfollows1.distinct
  | only h ih => exact ih
  | flatBody hstart h ih =>
    intro hs hdistinct
    obtain ⟨hs1, hf, hscope, -⟩ := placed_loop hlaid hs hstart
    refine ih (placed_enterFlat hs1 hf) (VarMap.Distinct.insert ?_ _ _)
    rw [hscope]
    exact hdistinct
  | @chainedBody s s1 s2 t var domain body rest c f inputs carries hstart hinputs h ih =>
    intro hs hdistinct
    obtain ⟨hs1, hf, hscope, hkind⟩ := placed_loop hlaid hs hstart
    obtain ⟨chain, hkind⟩ := hkind rfl
    have hfollows1 : (s1.inContext f.child).Follows s.scope.types := (follows_self hdistinct).of_scope hscope
    exact ih (placed_enterChained hs1 hf hkind hinputs)
      (VarMap.Distinct.insert (follows_iterationInputs hfollows1 hinputs).distinct _ _)

end Encode

/-- The encoding of a goal over the store comes to the session, at the start of a step of its own: it encodes parameters, a part
of the action's block, what is said at the end of the action, or formulas. -/
inductive Reached (store : Store) : Session → Prop where
  | param {a : Action} {before after : List Param} {s : Session} (hparams : a.params = before ++ after)
      (hrun : before.forM (Encode.param (Layout.ofStore store).1) (Layout.ofStore store).2 = .ok ((), s)) : Reached store s
  | statement {a : Action} {s t : Session} {c : Block}
      (hparams : a.params.forM (Encode.param (Layout.ofStore store).1) (Layout.ofStore store).2 = .ok ((), s))
      (h : Encode.Reaches (Layout.ofStore store).1 s a.block t c) : Reached store t
  | final {a : Action} {sorts : List SortId} {s t u : Session} (hsorts : sorts <+: (Layout.ofStore store).1.sorts)
      (hwalk : Encode.walk (Layout.ofStore store).1 a (Layout.ofStore store).2 = .ok ((), s))
      (hdistinct : Encode.distinctAxioms (Layout.ofStore store).1 s = .ok ((), t))
      (hrun : sorts.forM Encode.finalSlot t = .ok ((), u)) : Reached store u
  | assumed {a : Action} {fs : List FormulaExpr} {Fs : List Formula} {s t : Session}
      (haction : Encode.action (Layout.ofStore store).1 a (Layout.ofStore store).2 = .ok ((), s))
      (hrun : Encode.formulas (Layout.ofStore store).1 [] fs [] (s.atSnapshot (Layout.ofStore store).1.initial) = .ok (Fs, t)) :
      Reached store t
  | checked {a : Action} {assumed fs : List FormulaExpr} {Fs Gs : List Formula} {s t u : Session}
      (haction : Encode.action (Layout.ofStore store).1 a (Layout.ofStore store).2 = .ok ((), s))
      (hassumed : Encode.formulas (Layout.ofStore store).1 [] assumed [] (s.atSnapshot (Layout.ofStore store).1.initial) =
        .ok (Fs, t))
      (hrun : Encode.formulas (Layout.ofStore store).1 [] fs [] (t.atSnapshot s.snapshot) = .ok (Gs, u)) : Reached store u
  | asserted {fs : List FormulaExpr} {s : Session}
      (hrun : fs.forM (Encode.assertInitially (Layout.ofStore store).1) (Layout.ofStore store).2 = .ok ((), s)) : Reached store s

namespace Reached

variable {store : Store}

/-- Every session that the encoding of a goal comes to is sorted, up to which sort is which. -/
theorem placed (hwf : store.WellFormed) (hk : Loose k) (h : Reached store s) : s.Placed k (ofStore store).1 := by
  have hlaid := laid_ofStore hwf
  have hstart := placed_start (k := k) hwf
  have hfollows := follows_start store
  cases h with
  | @param a before after s hparams hrun => exact (placed_params hlaid hstart rfl hrun).1
  | @statement a s t c hparams h =>
    have hs := (placed_params hlaid hstart rfl hparams).1
    obtain ⟨types, -, hfollows1, -⟩ := follows_params a.params hfollows hparams
    exact (placed_of_reaches hlaid hk h hs hfollows1.distinct).1
  | @final a sorts s t u hsorts hwalk hdistinct hrun =>
    obtain ⟨hs, hroot⟩ := placed_walk hlaid (.inr hk) hstart hfollows rfl hwalk
    have hq := (Encode.quiet.distinctAxioms).of_ok hdistinct
    have ht := hs.of_quiet hq (sorted_distinctAxioms hs.sorted hroot hdistinct)
    exact (placed_finalSlots (fun sort hsort => hlaid.mem_sorts.1 (hsorts.subset hsort)) ht
      (hq.paramSorts.trans hroot) hrun).1
  | assumed haction hrun =>
    obtain ⟨hs, hroot⟩ := placed_action hlaid (.inr hk) hstart hfollows rfl haction
    exact (placed_closedFormulas hlaid hs hroot (sorted_initial hlaid hs.sorted) hrun).2.1
  | @checked a assumed fs Fs Gs s t u haction hassumed hrun =>
    obtain ⟨hs, hroot⟩ := placed_action hlaid (.inr hk) hstart hfollows rfl haction
    obtain ⟨hgrows, ht, hroot', -⟩ :=
      placed_closedFormulas hlaid hs hroot (sorted_initial hlaid hs.sorted) hassumed
    have hfinal : s.snapshot.Sorted k (ofStore store).1 t.symbols [] :=
      Snapshot.Sorted.later (hroot ▸ hs.snapshot) hgrows (prefix_refl _)
    exact (placed_closedFormulas hlaid ht hroot' hfinal hrun).2.1
  | @asserted fs s hrun => exact placed_asserted hlaid hstart rfl hrun

end Reached

/-! ## Types -/

/-- The types of all variables of the session have the property, and no variable is bound twice. -/
structure Session.Typed (P : Signature → Prop) (s : Session) : Prop where
  types : s.scope.types.All P
  distinct : VarMap.Distinct s.scope

variable {P : Signature → Prop}

namespace Session.Typed

theorem of_follows {types : TypeEnv} (h : s.Follows types) (htypes : types.All P) : s.Typed P :=
  ⟨htypes.alike h.alike, h.distinct⟩

theorem of_scope (h : s.Typed P) (hscope : t.scope = s.scope) : t.Typed P :=
  .of_follows ((Encode.follows_self h.distinct).of_scope hscope) h.types

/-- A loop starts its body with one more variable: an object of its domain. -/
theorem enterBody {f : LoopFrame} {s1 : Session} (hwf : L.store.WellFormed) (hP : L.store.graph.Hereditary P) (hs : s.Typed P)
    (hstart : StartsLoop L var domain body order s f s1) (ht : t.Typed P) (entry : Snapshot) :
    (Encode.enterBody f entry t).Typed P := by
  obtain ⟨hdomain, -, -, -, -⟩ := hstart
  have htype := infer_hereditary hwf hP hs.types domain (objSet_ok hdomain).1
  refine ⟨?_, ht.distinct.insert _ _⟩
  rw [Encode.enterBody, Scope.types_insert]
  exact ht.types.insert var htype

end Session.Typed

namespace Encode

theorem scope_startsLoop {f : LoopFrame} (h : StartsLoop L var domain body order s f t) : t.scope = s.scope := by
  obtain ⟨hdomain, -, -, hcontext, haxioms⟩ := h
  have hq := (quiet_objValue L false s.scope domain).of_ok (objSet_ok hdomain).2.1
  exact (((quiet_contextAxioms L _ _ _ _).of_ok haxioms).scope.trans (scope_addContext hcontext)).trans hq.scope

/-- A hereditary property of all types is kept wherever the encoding of a block comes to. -/
theorem typed_of_reaches {b c : Block} (hwf : L.store.WellFormed) (hP : L.store.graph.Hereditary P) (h : Reaches L s b t c) :
    s.Typed P → t.Typed P := by
  induction h with
  | here => exact id
  | @later s s1 t st rest c hrun h ih =>
    intro hs
    obtain ⟨types, htypes, hfollows⟩ := flows_statement st _ s s1 (follows_self hs.distinct) hrun
    exact ih (.of_follows hfollows (Flow.all_statement hwf hP st hs.types htypes))
  | alternative halternatives hbefore h ih =>
    intro hs
    exact ih (hs.of_scope ((quiet_alternativesOf L _).of_ok halternatives).scope)
  | only h ih => exact ih
  | flatBody hstart h ih => exact fun hs => ih (hs.enterBody hwf hP hstart (hs.of_scope (scope_startsLoop hstart)) _)
  | @chainedBody s s1 s2 t var domain body rest c f inputs carries hstart hinputs h ih =>
    intro hs
    have hs1 : s1.Typed P := hs.of_scope (scope_startsLoop hstart)
    have hfollows : (s1.inContext f.child).Follows s1.scope.types := (follows_self hs1.distinct).of_scope rfl
    have hs2 : s2.Typed P := .of_follows (follows_iterationInputs hfollows hinputs) hs1.types
    exact ih (hs.enterBody hwf hP hstart (hs2.of_scope rfl) _)

end Encode

namespace Reached

variable {store : Store}

theorem typed_params (hP : store.graph.Hereditary P) {ps : List Param}
    (h : ps.forM (Encode.param (ofStore store).1) (ofStore store).2 = .ok ((), s)) : s.Typed P := by
  obtain ⟨types, htypes, hfollows, -⟩ := Encode.follows_params ps (follows_start store) h
  exact .of_follows hfollows (Flow.all_params hP ps .nil htypes)

theorem typed_walk {a : Action} (hwf : store.WellFormed) (hP : store.graph.Hereditary P)
    (h : Encode.walk (ofStore store).1 a (ofStore store).2 = .ok ((), s)) : s.Typed P := by
  obtain ⟨⟨⟩, s1, hparams, hblock⟩ := bind_ok.1 h
  exact Encode.typed_of_reaches hwf hP (Encode.reaches_end _ hblock) (typed_params hP hparams)

/-- Every session that the encoding of a goal comes to has types with a hereditary property. -/
theorem typed (hwf : store.WellFormed) (hP : store.graph.Hereditary P) (h : Reached store s) : s.Typed P := by
  have haction : ∀ {a : Action} {s : Session},
      Encode.action (ofStore store).1 a (ofStore store).2 = .ok ((), s) → s.Typed P := by
    intro a s hrun
    obtain ⟨s1, s2, hwalk, hdistinct, hfinal⟩ := Encode.action_ok hrun
    have hq := ((Encode.quiet.distinctAxioms).of_ok hdistinct).trans
      ((Keeps.forM (fun _ => Encode.quiet.finalSlot) _).of_ok hfinal)
    exact (typed_walk hwf hP hwalk).of_scope hq.scope
  cases h with
  | param hparams hrun => exact typed_params hP hrun
  | statement hparams h => exact Encode.typed_of_reaches hwf hP h (typed_params hP hparams)
  | final hsorts hwalk hdistinct hrun =>
    have hq := ((Encode.quiet.distinctAxioms).of_ok hdistinct).trans ((Keeps.forM (fun _ => Encode.quiet.finalSlot) _).of_ok hrun)
    exact (typed_walk hwf hP hwalk).of_scope hq.scope
  | assumed ha hrun => exact (haction ha).of_scope ((Encode.quiet_formulas _ _ _ _).of_ok hrun).scope
  | checked ha hassumed hrun =>
    have hbefore := (haction ha).of_scope ((Encode.quiet_formulas _ _ _ _).of_ok hassumed).scope
    exact hbefore.of_scope ((Encode.quiet_formulas _ _ _ _).of_ok hrun).scope
  | asserted hrun =>
    refine forM_keeps (P := Session.Typed P) (fun f _ u v hu h1 => ?_) ⟨.nil, VarMap.distinct_nil⟩ hrun
    obtain ⟨F, u1, h1, hemit⟩ := bind_ok.1 h1
    obtain ⟨Fs, hFs, -⟩ := Encode.closedFormulas_ok h1
    exact hu.of_scope (((Encode.quiet_emit F).of_ok hemit).scope.trans ((Encode.quiet_formulas _ _ _ _).of_ok hFs).scope)

end Reached

end StoreCheck
