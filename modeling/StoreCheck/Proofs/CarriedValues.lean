import StoreCheck.Proofs.Encoding.Carrying
import StoreCheck.Proofs.Threading

/-!
# Chained loops hand variables on

In a model of an action's theory, a variable from outside a chained loop that the body assigns, and reads before it assigns it on
some path, is handed on from iteration to iteration as the state is. A variable that is not read first is not handed on: every
iteration starts with the value from before the loop, also where the body leaves the variable alone on some path. After the loop
each of them has the value from the end of the last iteration (`carried_variables_handed_on`).
-/

namespace StoreCheck

open List Encode Block

variable {body : Block} {domain : ObjExpr} {f : Encode.LoopFrame} {order : LoopKind} {var name : String} {before : Binding}
  {k : SortId → SortId} {start : Session} {a : Action}

variable {M : Structure} {L : Layout} {s t : Session} {ρ : M.Env}

/-- What a structure says of a variable that a chained loop carries: its bindings before the loop, at the start and at the end of
the body, and after the loop. -/
structure VariableCarried (M : Structure) (L : Layout) (ρ : M.Env) (f : LoopFrame) (order : ChainOrder) (readFirst : Prop)
    (s enter inner t : Session) (before begins after later : Binding) : Prop where
  /-- A variable that is not read first starts every iteration with the value from before the loop. -/
  unread : ¬ readFirst → begins = before
  /-- A variable without a sort is the empty set after the loop. -/
  bottom : L.sortOf later.type = .ok none → later.value = .empty
  /-- Among the objects of the variable's sort, at every position where the loop is run and has finitely many live iterations:
  after the loop there is what the last one ended with, and a variable that is read first is threaded. -/
  handed : ∀ sort, L.sortOf later.type = .ok (some sort) → ∀ es, s.Runs M es →
    {x | M.sort x = f.sort ∧ enter.contexts.Live M f.child (es ++ [x])}.Finite →
    ∃ its, order.Lists M es (fun x => M.sort x = f.sort ∧ enter.contexts.Live M f.child (es ++ [x])) its ∧
      later.on L M t.contexts ρ sort es =
        (its.getLast?.map fun x => after.on L M inner.contexts ρ sort (es ++ [x])).getD (before.on L M s.contexts ρ sort es) ∧
      (readFirst → Threaded (fun x => begins.on L M enter.contexts ρ sort (es ++ [x]))
        (fun x => after.on L M inner.contexts ρ sort (es ++ [x])) (before.on L M s.contexts ρ sort es) its
        (later.on L M t.contexts ρ sort es))

/-- What a structure says of the variables of a chained loop that was encoded from the first session to the second one. -/
inductive ChainedLoopCarries (M : Structure) (L : Layout) (ρ : M.Env) (var : String) (domain : ObjExpr) (body : Block)
    (s t : Session) : Prop where
  /-- Over a set of the bottom type there is nothing to iterate. -/
  | nothing {value : ObjValue} {type : ObjType} {s1 : Session} (hdomain : objSet L false s.scope domain s = .ok ((value, type), s1))
      (hbottom : L.sortOf type = .ok none) (hscope : t.scope = s.scope)
  /-- Every variable of the scope around the loop that the body assigns is carried. -/
  | carried {f : LoopFrame} {start ready inner : Session} {order : ChainOrder} {inputs : List (SortId × Slot)}
      {carries : List Carry} (hstart : StartsLoop L var domain body .chained s f start)
      (horder : (start.contexts.get f.child).kind = .chained order)
      (hinputs : iterationInputs L f (start.inContext f.child) = .ok ((inputs, carries), ready))
      (hbody : block L body (enterBody f (start.snapshot.withSlots inputs) (ready.inContext start.context)) = .ok ((), inner))
      (hcarried : ∀ name before, name ∈ Block.assigned body → name ≠ var → s.scope.find? name = some before →
        ∃ begins after later,
          (enterBody f (start.snapshot.withSlots inputs) (ready.inContext start.context)).scope.find? name = some begins ∧
          inner.scope.find? name = some after ∧ t.scope.find? name = some later ∧
          VariableCarried M L ρ f order (name ∈ Block.readBeforeWrite body) s
            (enterBody f (start.snapshot.withSlots inputs) (ready.inContext start.context)) inner t before begins after later)

/-! ## The plan of a loop -/

namespace Encode.StartsLoop

variable (h : StartsLoop L var domain body order s f t)

include h

theorem carried_eq :
    f.var = var ∧ f.plan.carried = sortNames ((assigned body).filter fun name => name != var && s.scope.contains name) ∧
      f.plan.boundary = f.plan.carried.filter (readBeforeWrite body).contains := by
  obtain ⟨hdomain, hsort, hplan, hcontext, haxioms⟩ := h
  obtain ⟨effects, -, hplan⟩ := exceptBind_ok.1 hplan
  cases hplan
  exact ⟨rfl, rfl, rfl⟩

theorem nodup_carried : f.plan.carried.Nodup := by
  rw [h.carried_eq.2.1]
  exact nodup_sortNames _

theorem nodup_boundary : f.plan.boundary.Nodup := by
  rw [h.carried_eq.2.2]
  exact h.nodup_carried.filter _

/-- The loop carries the outer variables that the body assigns. -/
theorem mem_carried (hname : name ∈ assigned body) (hvar : name ≠ var) (hbefore : s.scope.find? name = some before) :
    name ∈ f.plan.carried := by
  rw [h.carried_eq.2.1, mem_sortNames, mem_filter, Bool.and_eq_true, bne_iff_ne]
  exact ⟨hname, hvar, by rw [VarMap.contains, hbefore]; rfl⟩

theorem mem_boundary (hname : name ∈ f.plan.carried) :
    name ∈ f.plan.boundary ↔ name ∈ readBeforeWrite body := by
  rw [h.carried_eq.2.2, mem_filter, contains_iff_mem]
  exact and_iff_right hname

end Encode.StartsLoop

/-! ## Statements -/

theorem getLast_of_lists {order : ChainOrder} {sort : SortId} {es : List M.Elem} {live : M.Elem → Prop} {its : List M.Elem}
    {β : Type} {out : M.Elem → β} {pre post : β} (hordered : order.Orders M sort es live)
    (hlist : order.Lists M es (fun x => M.sort x = sort ∧ live x) its) (hnone : (∀ x, M.sort x = sort → ¬ live x) → post = pre)
    (hlast : ∀ x, M.sort x = sort → M.pred order.last (es ++ [x]) → post = out x) : post = (its.getLast?.map out).getD pre := by
  rcases eq_nil_or_concat its with rfl | ⟨init, z, rfl⟩
  · exact hnone fun x hx hlive => by simpa using (hlist.mem x).2 ⟨hx, hlive⟩
  · rw [concat_eq_append] at hlist ⊢
    rw [getLast?_concat]
    exact hlast z ((hlist.mem z).1 (by simp)).1 (ChainOrder.Lists.last hordered hlist)

section Statement

/-- What is said of a carried variable, from its value at the start and at the end of an iteration. -/
theorem variableCarried_of_run (hlaid : L.Laid symbols) (hk : Loose k) (hs : s.Nested k L M)
    (hstart : StartsLoop L var domain body .chained s f start) (r : ChainedRun L f start t) (hbody : f.body = block L body)
    (hM : M.Obeys ρ t) (hname : name ∈ assigned body) (hvar : name ≠ var) (hbefore : s.scope.find? name = some before) :
    ∃ begins after later, (enterBody f r.entry (r.ready.inContext start.context)).scope.find? name = some begins ∧
      r.inner.scope.find? name = some after ∧ t.scope.find? name = some later ∧
      VariableCarried M L ρ f r.order (name ∈ readBeforeWrite body) s (enterBody f r.entry (r.ready.inContext start.context))
        r.inner t before begins after later := by
  have hf := placed_of_starts hlaid hs.placed hstart
  have hgrows := grows_of_starts hstart
  have hscope : start.scope = s.scope := (placed_loop hlaid hs.placed hstart).2.2.1
  have hext : start.Extends t := (r.made_inner hf).trans r.extends_inner
  obtain ⟨_, _, _, _, _, hiterates⟩ := iterates_of_starts hlaid hs.placed hstart (hM.of_grows hext.axioms)
  have hirrefl : start.contexts.Irreflexive M start.context := by
    rw [hgrows.context]
    exact hs.irreflexive.extend hs.placed.sorted.contexts hgrows.contexts hs.placed.sorted.context
  -- the session at the start of the body, and the one at its end
  have henter : Reaches L s [.forEach var domain body .chained] _ body := .chainedBody hstart r.starts (.here _ body)
  have hrunBody := r.body
  rw [hbody] at hrunBody
  have hM' : M.Obeys ρ (enterBody f r.entry (r.ready.inContext start.context)) :=
    hM.of_grows (((grows_block L body).of_ok hrunBody).axioms.trans r.extends_inner.axioms)
  have hnested := nested_of_reaches hlaid hk henter hM' hs
  have hinner := (placed_of_reaches hlaid hk (henter.trans (reaches_end body hrunBody)) hs.placed hs.distinct).1
  obtain ⟨begins, hready, hunread, hread⟩ := r.exists_begins hstart.nodup_boundary (hscope ▸ hbefore)
  have hbegins : (enterBody f r.entry (r.ready.inContext start.context)).scope.find? name = some begins := by
    rw [← hstart.carried_eq.1] at hvar
    exact (VarMap.find?_insert r.ready.scope f.var name _).trans ((if_neg hvar).trans hready)
  have hcontains : VarMap.contains (enterBody f r.entry (r.ready.inContext start.context)).scope name := by
    rw [VarMap.contains, hbegins]
    rfl
  obtain ⟨after, hafter⟩ := Option.isSome_iff_exists.1 (contains_of_block hnested.distinct hrunBody hcontains)
  have hcarried := hstart.mem_carried hname hvar hbefore
  have hboundary := hstart.mem_boundary hcarried
  rw [← hscope] at hbefore
  obtain ⟨later, hlater, hjoin, hbottom, hend⟩ := r.end_of_carried hf hinner hM hstart.nodup_carried hcarried hbefore hafter
  refine ⟨begins, after, later, hbegins, hafter, hlater, fun h => hunread (mt hboundary.1 h), hbottom, ?_⟩
  intro sort hsort es hes hfinite
  have hes' := hes.beside hs.placed.sorted hgrows.beside hgrows.guards
  have hordered := hiterates.ordered _ r.kind es hes'.sorts
  have htable : r.ready.contexts = start.contexts := (sorted_iterationInputs hf.session hf.frame r.kind r.starts).table
  have hcontexts : (enterBody f r.entry (r.ready.inContext start.context)).contexts = start.contexts := htable
  have hon : before.on L M s.contexts ρ sort es = before.on L M start.contexts ρ sort es := by
    rw [hscope] at hbefore
    ext e
    exact and_congr_right fun _ => (hs.placed.holds_later hbefore hgrows.contexts hes.sorts (prefix_refl es) e).symm
  obtain ⟨hnothing, hlast⟩ := hend sort hsort es hes'
  rw [hcontexts] at hfinite ⊢
  rw [hon]
  obtain ⟨its, hlist⟩ := hordered.exists_list hfinite
  refine ⟨its, hlist, getLast_of_lists hordered hlist hnothing hlast, fun hreads => ?_⟩
  obtain ⟨sort', p, hsort', hcarry, rfl⟩ := hread (hboundary.2 hreads)
  obtain rfl : sort' = sort := by
    obtain ⟨a, ha⟩ := hinner.scope name after hafter
    obtain ⟨c, hc, hcover, -⟩ := Layout.sortOf_joinStrict hlaid.store.graph (ObjType.join_ok hjoin) hsort' ha.sortOf
    cases hcover.some_left
    exact Option.some.inj (Except.ok.inj (hc.symm.trans hsort))
  have hstarts := fun {x : M.Elem} (hx : M.sort x = f.sort) =>
    r.start_of_carried hf hinner hM hes' hirrefl hordered hbefore hcarry hafter hx
  rw [htable] at hstarts
  exact ChainOrder.Lists.threaded hordered hlist (fun x hx _ hfirst => (hstarts hx).1 hfirst)
    (fun y hy x hx _ hyx => (hstarts hx).2 y hy hyx) hnothing hlast

/-- A chained loop that was encoded carries its variables in every structure that obeys its axioms. -/
theorem carries_of_statement {body : List Statement} (hlaid : L.Laid symbols) (hk : Loose k) (hs : s.Nested k L M)
    (hrun : statement L (.forEach var domain body .chained) s = .ok ((), t)) (hM : M.Obeys ρ t) :
    ChainedLoopCarries M L ρ var domain body s t := by
  obtain ⟨value, type, s1, hdomain, hcases⟩ := forEach_ok hrun
  obtain ⟨hbottom, rfl⟩ | ⟨sort, plan, child, s2, s3, hsort, hplan, hcontext, haxioms, -, hchained⟩ := hcases
  · exact .nothing hdomain hbottom ((quiet_objSet L false s.scope domain).of_ok hdomain).scope
  · have hstart : StartsLoop L var domain body .chained s _ s3 := .intro hdomain hsort hplan hcontext haxioms
    obtain ⟨r⟩ := ChainedRun.of_ok (hchained rfl)
    exact .carried hstart r.kind r.starts r.body fun name before hname hvar hbefore =>
      variableCarried_of_run hlaid hk hs hstart r rfl hM hname hvar hbefore

end Statement

/-- The session in which the block of an action is encoded stands outside all loops. -/
theorem Stages.nested_entered (stages : Stages store a) (hwf : store.WellFormed) (hk : Loose k) (M : Structure) :
    stages.entered.Nested k (Layout.ofStore store).1 M := by
  obtain ⟨types, -, hfollows, -⟩ := follows_params a.params (Layout.follows_start store) stages.params
  have hstart := Layout.placed_start (k := k) hwf
  refine ⟨Reached.placed hwf hk (.statement stages.params (.here _ a.block)), hfollows.distinct, ?_⟩
  rw [stages.grows_entered.context]
  exact (Contexts.irreflexive_root M).extend hstart.sorted.contexts stages.grows_entered.contexts hstart.sorted.context

/-- Every chained loop of an action carries its variables. -/
theorem Stages.carries {body : List Statement} (stages : Stages store a) (hwf : store.WellFormed) (hM : M.Obeys ρ stages.final)
    (h : Reaches (Layout.ofStore store).1 stages.entered a.block s (.forEach var domain body .chained :: rest)) :
    ∃ t, statement (Layout.ofStore store).1 (.forEach var domain body .chained) s = .ok ((), t) ∧
      ChainedLoopCarries M (Layout.ofStore store).1 ρ var domain body s t := by
  have hlaid := Layout.laid_ofStore hwf
  have hk : Loose fun _ => (⟨0⟩ : SortId) := fun _ _ => rfl
  obtain ⟨t, ht, hext⟩ := encoded_of_reaches h rfl stages.block
  have hMt : M.Obeys ρ t := hM.of_grows (hext.axioms.trans stages.extends_walked.axioms)
  have hMs : M.Obeys ρ s := hMt.of_grows ((grows_statement _ _).of_ok ht).axioms
  have hs := nested_of_reaches hlaid hk h hMs (stages.nested_entered hwf hk M)
  exact ⟨t, ht, carries_of_statement hlaid hk hs ht hMt⟩

/-- For every valid store, every action whose theory can be made and every model of the theory: at every chained loop that the
encoding comes to, every variable of the scope around the loop that the body assigns has bindings before the loop, at the start of
the body, at its end and after the loop. At every position where the loop is run and has finitely many live iterations, these can
be listed in their order, and after the loop the variable has its value from the end of the last one, or the value from before
the loop if there is none. A variable that some path through the body reads before it assigns it starts the first iteration with
the value from before the loop and every other one with the value from the end of the one before it. Any other variable starts
every iteration with the value from before the loop. -/
theorem carried_variables_handed_on (spec : Spec) (store : Store) (hspec : Store.ofSpec spec = .ok store) (action : Action)
    (assumed checked : List FormulaExpr) (name : String) (theory : Theory)
    (htheory : preservationTheory store action assumed checked name = .ok theory) (M : Structure) (hM : M.Models theory)
    (ρ : M.Env) :
    ∃ entered, action.params.forM (Encode.param (Layout.ofStore store).1) (Layout.ofStore store).2 = .ok ((), entered) ∧
      ∀ s var domain body rest,
        Reaches (Layout.ofStore store).1 entered action.block s (.forEach var domain body .chained :: rest) →
        ∃ t, statement (Layout.ofStore store).1 (.forEach var domain body .chained) s = .ok ((), t) ∧
          ChainedLoopCarries M (Layout.ofStore store).1 ρ var domain body s t := by
  obtain ⟨stages, -, hobeys⟩ := Stages.of_models htheory hM
  exact ⟨stages.entered, stages.params, fun s var domain body rest h =>
    stages.carries (Store.wellFormed_ofSpec hspec) (hobeys ρ) h⟩

namespace Hotel

/-- All guests are gathered, one after another. -/
def gather : Action where
  name := "gather"
  params := [⟨"kept", "Guest", .any⟩]
  block := [.forEach "g" (.allOf "Guest") [.assign "kept" (.union [.var "kept", .iterator "g"])] .chained]

/-- Two guests are gathered. -/
def gathering : FiniteModel := model 2 1 [
  [[0], [1]], [], [[0]],
  [[0], [1]], [], [], [],
  [[0], [1]], [[0, 1]], [[0, 1]], [[0]], [[1]], [[0, 0], [1, 0], [1, 1]], [[0, 0], [1, 0], [1, 1]],
  [[0], [1]], [[0], [1]], [], []]

end Hotel

open Hotel

/-- When two guests are gathered, the second iteration starts with the guest that the first one has added. -/
theorem carried_variables_handed_on_gather :
    Store.ofSpec Hotel.spec = .ok Hotel.store ∧
    ∃ theory, preservationTheory Hotel.store Hotel.gather [] [] "gather" = .ok theory ∧
      Hotel.gathering.toStructure.Models theory ∧
      ∀ ρ, ∃ entered t, statement (Layout.ofStore Hotel.store).1 (Hotel.gather.block.headD (.either [])) entered = .ok ((), t) ∧
        ChainedLoopCarries Hotel.gathering.toStructure (Layout.ofStore Hotel.store).1 ρ "g" (.allOf "Guest")
          [.assign "kept" (.union [.var "kept", .iterator "g"])] entered t := by
  have hspec := ofSpec_spec
  obtain ⟨theory, htheory, hchecks⟩ := exists_ok_of_any
    (x := preservationTheory store gather [] [] "gather") (p := fun t => gathering.checks t) (by decide +kernel)
  have hmodels := models_of_checks hspec htheory hchecks
  refine ⟨hspec, theory, htheory, hmodels, fun ρ => ?_⟩
  obtain ⟨entered, -, hcarries⟩ :=
    carried_variables_handed_on spec store hspec gather [] [] "gather" theory htheory _ hmodels ρ
  obtain ⟨t, ht, hloop⟩ := hcarries entered "g" (.allOf "Guest") _ [] (.here _ _)
  exact ⟨entered, t, ht, hloop⟩

/-! ## A variable that is not handed on -/

/-- The variables at the end of the body of a chained loop, and the context of the loop. -/
def bodyEnd (L : Layout) (var : String) (domain : ObjExpr) (body : Block) : Encode (Context × LoopBody) := do
  let scope := (← get).scope
  let (value, type) ← objSet L false scope domain
  match ← L.sortOf type with
  | none => throw (.internal (.noLivePredicate var))
  | some sort =>
    let plan ← typed (planLoop L scope var type (scope.isLocal domain) body)
    let child ← addContext sort .chained var
    contextAxioms L child var sort value
    let start ← get
    let f := loopFrame var type (scope.isLocal domain) child sort plan (block L body)
    let (inputs, _) ← inContext child (iterationInputs L f)
    return (start.contexts.get child, ← loopBody f (start.snapshot.withSlots inputs))

theorem bodyEnd_ok {inner : Session} (hstart : StartsLoop L var domain body .chained s f start)
    (hinputs : iterationInputs L f (start.inContext f.child) = .ok ((inputs, carries), ready))
    (hbody : block L body (enterBody f (start.snapshot.withSlots inputs) (ready.inContext start.context)) = .ok ((), inner)) :
    ∃ u, bodyEnd L var domain body s =
      .ok ((start.contexts.get f.child, ⟨start.snapshot.withSlots inputs, inner.snapshot, inner.scope⟩), u) := by
  obtain @⟨value, type, sort, plan, child, s1, s2, _, hdomain, hsort, hplan, hcontext, haxioms⟩ := hstart
  refine ⟨leaveBody (start.snapshot.withSlots inputs) (ready.inContext start.context) inner, ?_⟩
  unfold bodyEnd
  rw [get_bind, bind_ok]
  refine ⟨(value, type), s1, hdomain, bind_ok.2 ⟨some sort, s1, lift_ok.2 ⟨_, hsort, rfl⟩, ?_⟩⟩
  refine bind_ok.2 ⟨plan, s1, typed_ok.2 ⟨plan, hplan, rfl⟩, bind_ok.2 ⟨child, s2, hcontext, ?_⟩⟩
  refine bind_ok.2 ⟨(), start, haxioms, ?_⟩
  rw [get_bind, bind_ok]
  refine ⟨(inputs, carries), ready.inContext start.context, ?_, bind_ok.2 ⟨_, _, ?_, pure_ok.2 rfl⟩⟩
  · unfold inContext
    rw [get_bind, modify_bind, bind_ok]
    exact ⟨_, ready, hinputs, rfl⟩
  · unfold loopBody
    rw [get_bind, modify_bind, bind_ok]
    exact ⟨(), inner, hbody, rfl⟩

namespace Hotel

/-- Every guest in turn may be picked. -/
def lottery : Action where
  name := "lottery"
  params := [⟨"picked", "Guest", .any⟩]
  block := [.forEach "g" (.allOf "Guest") [.either [[.assign "picked" (.iterator "g")], []]] .chained]

/-- Of two guests the first one is picked and the second one is not. -/
def drawing : FiniteModel := model 2 1 [
  [[0], [1]], [], [[0]],
  [[0], [1]], [], [], [],
  [[0], [1]], [[0, 1]], [[0, 1]], [[0]], [[1]], [[0]], [[1]],
  [], [[0], [1]], [], []]

/-- A guest of the hotel. -/
def guest (i : Fin 2) : drawing.toStructure.Elem := ⟨⟨0⟩, i⟩

/-- What is iterated, and what the picked guests are before the loop and at the end of its body. -/
theorem lottery_facts : ((do
    lottery.params.forM (Encode.param (Layout.ofStore store).1)
    let s ← get
    return (s.scope, ← bodyEnd (Layout.ofStore store).1 "g" (.allOf "Guest")
      [.either [[.assign "picked" (.iterator "g")], []]]) : Encode _) (Layout.ofStore store).2).toOption.any (fun r =>
        (r.1.1.find? "picked").any (·.value.beq (.pred ⟨6⟩ 0)) && decide (r.1.2.1.kind = .chained ⟨⟨8⟩, ⟨9⟩, ⟨10⟩, ⟨11⟩⟩) &&
        (r.1.2.2.scope.find? "picked").any (·.value.beq (.merge 1 [⟨12⟩, ⟨13⟩] [.param 1, .pred ⟨6⟩ 0]))) = true := by
  decide +kernel

end Hotel

/-- A variable that is assigned on some paths only is forgotten: of two guests the first one is picked and the second one is not,
and the second iteration does not start with what the first one ended with. -/
theorem picked_guest_forgotten_lottery :
    ∃ theory, preservationTheory Hotel.store Hotel.lottery [] [] "lottery" = .ok theory ∧
      Hotel.drawing.toStructure.Models theory ∧ ∀ ρ : Hotel.drawing.toStructure.Env,
      ∃ entered f start ready inner order inputs carries begins after,
        StartsLoop (Layout.ofStore Hotel.store).1 "g" (.allOf "Guest") [.either [[.assign "picked" (.iterator "g")], []]] .chained
          entered f start ∧
        (start.contexts.get f.child).kind = .chained order ∧
        iterationInputs (Layout.ofStore Hotel.store).1 f (start.inContext f.child) = .ok ((inputs, carries), ready) ∧
        block (Layout.ofStore Hotel.store).1 [.either [[.assign "picked" (.iterator "g")], []]]
          (enterBody f (start.snapshot.withSlots inputs) (ready.inContext start.context)) = .ok ((), inner) ∧
        (enterBody f (start.snapshot.withSlots inputs) (ready.inContext start.context)).scope.find? "picked" = some begins ∧
        inner.scope.find? "picked" = some after ∧
        Hotel.drawing.toStructure.pred order.justBefore [Hotel.guest 0, Hotel.guest 1] ∧
        begins.on (Layout.ofStore Hotel.store).1 _ ready.contexts ρ ⟨0⟩ [Hotel.guest 1] ≠
          after.on (Layout.ofStore Hotel.store).1 _ inner.contexts ρ ⟨0⟩ [Hotel.guest 0] := by
  obtain ⟨theory, htheory, hchecks⟩ := exists_ok_of_any
    (x := preservationTheory store lottery [] [] "lottery") (p := fun t => drawing.checks t) (by decide +kernel)
  have hmodels := models_of_checks ofSpec_spec htheory hchecks
  refine ⟨theory, htheory, hmodels, fun ρ => ?_⟩
  obtain ⟨stages, -, hobeys⟩ := Stages.of_models htheory hmodels
  obtain ⟨t, -, hcarries⟩ := stages.carries (Store.wellFormed_ofSpec ofSpec_spec) (hobeys ρ) (.here _ _)
  obtain ⟨⟨⟨scope, context, ending⟩, u⟩, hrun, hfacts⟩ := exists_ok_of_any lottery_facts
  obtain ⟨⟨⟩, entered, hparams, hrun⟩ := bind_ok.mp hrun
  rw [get_bind, bind_ok] at hrun
  obtain ⟨⟨context', ending'⟩, u', hrun, hpure⟩ := hrun
  cases pure_ok.mp hpure
  cases hparams.symm.trans stages.params
  simp only [Bool.and_eq_true, Option.any_eq_true, decide_eq_true_eq, ObjValue.beq_iff] at hfacts
  obtain ⟨⟨⟨before, hbefore, hbeforeValue⟩, hkind⟩, after, hafter, hafterValue⟩ := hfacts
  cases hcarries with
  | nothing hdomain hbottom hscope =>
    unfold bodyEnd at hrun
    rw [get_bind, bind_ok] at hrun
    obtain ⟨⟨value, type⟩, s1, hdomain', hrun⟩ := hrun
    cases hdomain'.symm.trans hdomain
    obtain ⟨sort, s2, hsort, hrun⟩ := bind_ok.mp hrun
    obtain ⟨sort', hsort', hpair⟩ := lift_ok.mp hsort
    cases hpair
    cases hsort'.symm.trans hbottom
    exact (throw_ok.mp hrun).elim
  | @carried f start ready inner order inputs carries hstart horder hinputs hbody hcarried =>
    obtain ⟨v, hv⟩ := bodyEnd_ok hstart hinputs hbody
    cases hv.symm.trans hrun
    cases horder.symm.trans hkind
    obtain ⟨begins, after', later, hbegins, hafter', -, hcarried⟩ := hcarried "picked" before (by decide) (by decide) hbefore
    cases hafter'.symm.trans hafter
    obtain rfl := hcarried.unread (by decide)
    refine ⟨_, f, start, ready, inner, _, inputs, carries, begins, after, hstart, horder, hinputs, hbody, hbegins, hafter,
      rfl, fun heq => ?_⟩
    -- the first guest is picked at the end of the first iteration
    have hpicked : Hotel.guest 0 ∈ after.on (Layout.ofStore Hotel.store).1 _ inner.contexts ρ ⟨0⟩ [Hotel.guest 0] := by
      refine ⟨rfl, ?_⟩
      rw [hafterValue, ObjValue.Holds, ObjValue.HoldsTaken, ObjValue.Holds]
      exact .inl ⟨rfl, rfl⟩
    rw [← heq] at hpicked
    obtain ⟨-, hholds⟩ := hpicked
    rw [hbeforeValue, ObjValue.Holds] at hholds
    exact Bool.false_ne_true hholds

end StoreCheck
