import StoreCheck.Proofs.Alignment
import StoreCheck.Proofs.Encoding.Inversion

/-!
# The scope of the encoding has the types of the flow

Whatever a statement's encoding does besides, it leaves the variables with the types that the flow computes
(`Encode.flows_statement`).
-/

namespace StoreCheck

open List StoreCheck.Flow

variable {types : TypeEnv} {e : ObjExpr} {scope : Scope} {t : Session} {type : ObjType} {value : ObjValue} {inFormula : Bool}
  {sort : SortId} {order : LoopKind} {var : String} {carries : List Encode.Carry} {body : List Statement}

/-- The variables of the session have the types of the flow, up to the bounds on sizes. -/
structure Session.Follows (types : TypeEnv) (s : Session) : Prop where
  alike : types.Alike s.scope.types
  distinct : VarMap.Distinct s.scope

namespace Session.Follows

variable {s t : Session}

/-- The types of a session depend on its scope only. -/
theorem of_scope (h : s.Follows types) (hs : t.scope = s.scope) : t.Follows types := by
  constructor
  · rw [hs]
    exact h.alike
  · rw [hs]
    exact h.distinct

theorem bind (h : s.Follows types) (name : String) (b : Binding) {u : ObjType} (hu : u.signature = b.type.signature) :
    (s.bind name b).Follows (VarMap.insert types name u) := by
  constructor
  · unfold Session.bind
    rw [Scope.types_insert]
    exact h.alike.insert name hu
  · exact h.distinct.insert name b

/-- Giving a variable another value of the same type changes no type. -/
theorem rebind (h : s.Follows types) (hb : s.scope.find? name = some before) (v : ObjValue) :
    (s.bind name { before with value := v }).Follows types := by
  refine ⟨fun x => ?_, h.distinct.insert name _⟩
  rw [Session.bind, Scope.types_insert, TypeEnv.signatureOf?_insert, h.alike x]
  by_cases hx : x = name
  · subst hx
    rw [if_pos rfl, TypeEnv.signatureOf?, Scope.find?_types, hb]
    rfl
  · rw [if_neg hx]

/-- The type of an expression in the flow. -/
theorem infer (h : s.Follows types) {t : ObjType} (ht : StoreCheck.infer store s.scope.types e = .ok t) :
    ∃ u, StoreCheck.infer store types e = .ok u ∧ u.signature = t.signature :=
  infer_alike h.alike.symm e ht

end Session.Follows

namespace Encode

variable {L : Layout}

variable {s : Session} {f : LoopFrame} {types : TypeEnv}

theorem checked_ok (h : checked L scope e encode s = .ok ((value, type), t)) :
    infer L.store scope.types e = .ok type ∧ encode s = .ok (value, t) ∧
      (type.signature.isBottom = true → value.isEmpty = true) := by
  obtain ⟨type', htype, h⟩ := typedBind_ok.1 h
  obtain ⟨value', s2, h2, h⟩ := bind_ok.1 h
  split at h
  · obtain ⟨_, _, h3, _⟩ := bind_ok.1 h
    exact (throw_ok.1 h3).elim
  · rename_i hcheck
    cases pure_ok.1 h
    refine ⟨htype, h2, fun hb => ?_⟩
    simpa [hb] using hcheck

/-- The choices are made outside formulas, of the value of an expression and its type. -/
theorem choice_ok {choose : ObjValue → ObjType → Encode ObjValue} (h : (do
      if inFormula then throw .choiceInFormula
      let (value, type) ← checked L scope e (objValue L inFormula scope e)
      choose value type : Encode ObjValue) s = .ok (v, t)) :
    inFormula = false ∧ ∃ value type s1, infer L.store scope.types e = .ok type ∧
      objValue L false scope e s = .ok (value, s1) ∧ choose value type s1 = .ok (v, t) := by
  cases inFormula with
  | true => exact (throw_ok.1 (bind_ok.1 h).choose_spec.choose_spec.1).elim
  | false =>
    obtain ⟨⟨value, type⟩, s1, h1, h⟩ := bind_ok.1 h
    obtain ⟨htype, hvalue, -⟩ := checked_ok h1
    exact ⟨rfl, value, type, s1, htype, hvalue, h⟩

/-- The encoding of a set has the inferred type. -/
theorem objSet_ok (h : objSet L inFormula scope e s = .ok ((value, type), t)) :
    infer L.store scope.types e = .ok type ∧ objValue L inFormula scope e s = .ok (value, t) ∧
      (type.signature.isBottom = true → value.isEmpty = true) := checked_ok h

theorem isBottom_of_sortOf_none (h : L.sortOf type = .ok none) : type.signature.isBottom = true := by
  unfold Layout.sortOf at h
  split at h
  · assumption
  · split at h <;> cases h

theorem isBottom_of_sortOf_some (h : L.sortOf type = .ok (some sort)) : type.signature.isBottom = false := by
  unfold Layout.sortOf at h
  split at h
  · cases h
  · rename_i hb
    simpa using hb

/-- From a session with the types of the flow, a successful run ends in one with the types that the flow computes. -/
def Flows (flow : TypeEnv → Except TypeError TypeEnv) (run : Encode Unit) : Prop :=
  ∀ types s t, Session.Follows types s → run s = .ok ((), t) → ∃ out, flow types = .ok out ∧ t.Follows out

theorem flows_assign (var : String) (value : ObjExpr) :
    Flows (fun types => Flow.statement L.store types (.assign var value)) (assign L var value) := by
  intro types s t hs h
  obtain ⟨v, type, s1, v', s2, h1, hq, rfl, -⟩ := assign_ok h
  obtain ⟨u, hu, hsig⟩ := hs.infer (objSet_ok h1).1
  refine ⟨_, ?_, (hs.of_scope hq.scope).bind var _ (u := u) hsig⟩
  simp only [Flow.statement, hu]
  rfl

theorem flows_create (className : String) (var : Option String) :
    Flows (fun types => Flow.statement L.store types (.create className var)) (create L className var) := by
  intro types s t hs h
  obtain ⟨c, p, s1, s2, after, s3, s4, hc, -, -, -, -, q, rfl⟩ := create_ok h
  have hs4 : (created (L.classSort c) after p s4).Follows types := hs.of_scope q.scope
  have hc' : L.store.graph.resolve className = .ok c := hc
  cases var with
  | none =>
    refine ⟨types, ?_, hs4⟩
    simp only [Flow.statement, hc']
    rfl
  | some name =>
    refine ⟨_, ?_, hs4.bind name _ (u := (ObjType.ofClass c).single) rfl⟩
    simp only [Flow.statement, hc']
    rfl

theorem flows_delete (objects : ObjExpr) :
    Flows (fun types => Flow.statement L.store types (.delete objects)) (delete L objects) := by
  intro types s t hs h
  obtain ⟨value, type, s1, -, q1, hcases⟩ := delete_ok h
  refine ⟨types, by simp only [Flow.statement]; rfl, ?_⟩
  rcases hcases with ⟨-, rfl⟩ | ⟨sort, after, s2, s3, pruned, s4, -, -, -, -, q, rfl⟩
  · exact hs.of_scope q1.scope
  · exact hs.of_scope q.scope

/-- A tuple update leaves the scope alone. -/
theorem scope_updateTuples (h : updateTuples L source relation target update s = .ok ((), t)) : t.scope = s.scope := by
  obtain ⟨sv, st, s1, tv, tt, s2, r, ts, after, s3, s4, -, -, -, -, -, -, -, q, rfl⟩ := updateTuples_ok h
  exact q.scope

/-! ## Alternatives -/

/-- The scope at the end of an alternative has the types of the flow. -/
def ExitFollows (out : TypeEnv) (e : Exit) : Prop := out.Alike e.scope.types ∧ VarMap.Distinct e.scope

theorem follows_runAlternatives {entry : Session} (hentry : entry.Follows types) :
    ∀ {alternatives : List (PredId × Encode Unit)} {blocks : List (List Statement)},
      List.Forall₂ (fun a b => Flows (fun types => Flow.block L.store types b) a.2) alternatives blocks →
      ∀ {s t : Session} {exits : List Exit}, runAlternatives entry alternatives s = .ok (exits, t) →
        ∃ outs, Flow.blocks L.store types blocks = .ok outs ∧ List.Forall₂ ExitFollows outs exits
  | _, _, .nil, _, _, _, h => by
    obtain ⟨rfl, -⟩ := runAlternatives_nil_ok h
    exact ⟨[], by rw [Flow.blocks]; rfl, .nil⟩
  | (p, run) :: _, b :: blocks, .cons hrun hrest, s, _, _, h => by
    obtain ⟨s1, others, h1, h2, rfl⟩ := runAlternatives_cons_ok h
    have hstart : (enterAlternative entry p s).Follows types := ⟨hentry.alike, hentry.distinct⟩
    obtain ⟨out, hout, hfollows⟩ := hrun _ _ _ hstart h1
    obtain ⟨outs, houts, hall⟩ := follows_runAlternatives hentry hrest h2
    refine ⟨out :: outs, ?_, .cons ⟨hfollows.alike, hfollows.distinct⟩ hall⟩
    dsimp only at hout
    rw [Flow.blocks, hout, houts]
    rfl

theorem distinct_mergeScopes (g : ClassGraph) (depth : Nat) (exits : List Exit) :
    VarMap.Distinct (mergeScopes g depth exits) := by
  unfold mergeScopes VarMap.Distinct VarMap.names
  rw [map_map]
  have hid : ((fun p : String × Binding => p.1) ∘ fun name => (name, mergeBinding g depth exits name)) = id := rfl
  rw [hid, map_id]
  exact nodup_sortNames _

theorem follows_mergeScopes (g : ClassGraph) (depth : Nat) (h : List.Forall₂ ExitFollows outs exits) :
    TypeEnv.Alike (mergeEnvs g outs) (Scope.types (mergeScopes g depth exits)) := by
  intro x
  rw [types_mergeScopes, signatureOf?_mergeEnvs, signatureOf?_mergeEnvs, map_map]
  congr 1
  induction h with
  | nil => rfl
  | cons hp _ ih => rw [map_cons, map_cons, ih, hp.1 x]; rfl

theorem flows_branch {blocks : List (List Statement)}
    (hruns : List.Forall₂ (fun a b => Flows (fun types => Flow.block L.store types b) a.2) alternatives blocks) :
    Flows (fun types => do return Flow.mergeEnvs L.store.graph (← Flow.blocks L.store types blocks))
      (branch L alternatives) := by
  intro types s t hs h
  obtain ⟨exits, s1, changes, s2, h1, h2, rfl⟩ := branch_ok h
  obtain ⟨outs, houts, hall⟩ := follows_runAlternatives hs hruns h1
  refine ⟨Flow.mergeEnvs L.store.graph outs, ?_, follows_mergeScopes _ _ hall, distinct_mergeScopes _ _ _⟩
  simp only [houts]
  rfl

theorem flows_ifElse (hthen : Flows (fun types => Flow.block L.store types thenBlock) thenRun)
    (helse : Flows (fun types => Flow.block L.store types elseBlock) elseRun) :
    Flows (fun types => Flow.statement L.store types (.ifElse condition thenBlock elseBlock))
      (ifElse L condition thenRun elseRun) := by
  intro types s t hs h
  obtain ⟨taken, s1, skipped, s2, s3, -, -, -, q, h⟩ := ifElse_ok h
  have hruns : List.Forall₂ (fun a b => Flows (fun types => Flow.block L.store types b) a.2)
      [(taken, thenRun), (skipped, elseRun)] [thenBlock, elseBlock] := .cons hthen (.cons helse .nil)
  obtain ⟨out, hout, hfollows⟩ := flows_branch hruns _ _ _ (hs.of_scope q.scope) h
  refine ⟨out, ?_, hfollows⟩
  dsimp only
  rw [Flow.statement]
  obtain ⟨outs, houts, hout⟩ := exceptBind_ok.1 hout
  obtain ⟨first, h4, houts⟩ := exceptBind_ok.1 houts
  obtain ⟨others, h5, houts⟩ := exceptBind_ok.1 houts
  obtain ⟨second, h6, h5⟩ := exceptBind_ok.1 h5
  cases h5
  cases houts
  cases hout
  rw [h4, h6]
  rfl

theorem forall₂_zip_left {α β γ : Type} {R : β → γ → Prop} : ∀ {as : List α} {bs : List β} {cs : List γ},
    as.length = bs.length → List.Forall₂ R bs cs → List.Forall₂ (fun p c => R p.2 c) (as.zip bs) cs
  | [], [], _, _, .nil => .nil
  | _ :: _, _ :: _, _, h, .cons hr hrest => .cons hr (forall₂_zip_left (by simpa using h) hrest)

theorem length_choiceIndicators (h : choiceIndicators n s = .ok (indicators, t)) : indicators.length = n := by
  rw [← (mapM_forall₂ h).length_eq, length_range]

theorem flows_either {blocks : List (List Statement)}
    (hruns : List.Forall₂ (fun run b => Flows (fun types => Flow.block L.store types b) run) runs blocks) :
    Flows (fun types => Flow.statement L.store types (.either blocks)) (either L runs) := by
  intro types s t hs h
  match runs, blocks, hruns with
  | [], [], .nil =>
    cases pure_ok.1 h
    exact ⟨types, by simp only [Flow.statement]; rfl, hs⟩
  | [run], [b], .cons hrun .nil =>
    obtain ⟨out, hout, hfollows⟩ := hrun _ _ _ hs h
    exact ⟨out, by dsimp only; rw [Flow.statement]; exact hout, hfollows⟩
  | first :: second :: rest, b1 :: b2 :: bs, hruns =>
    obtain ⟨indicators, s1, s2, h1, -, q, h⟩ := either_ok h
    have hzip := forall₂_zip_left (length_choiceIndicators h1) hruns
    obtain ⟨out, hout, hfollows⟩ := flows_branch hzip _ _ _ (hs.of_scope q.scope) h
    refine ⟨out, ?_, hfollows⟩
    dsimp only
    rw [Flow.statement]
    · exact hout
    · simp
    · simp

/-! ## Loops -/

/-- Adding a context leaves the scope alone. -/
theorem scope_addContext (h : addContext sort order var s = .ok (child, t)) : t.scope = s.scope := by
  rw [(addContext_ok h).2]

theorem scope_loopBody {body : LoopBody} (h : loopBody f entry s = .ok (body, t)) : t.scope = s.scope := by
  obtain ⟨s1, -, -, rfl⟩ := loopBody_ok h
  rfl

theorem scope_flatLoop (h : flatLoop f s = .ok ((), t)) : t.scope = s.scope := by
  obtain ⟨body, s1, changes, s2, -, h1, -, h2, rfl⟩ := flatLoop_ok h
  exact ((Keeps.mapM (fun _ => quiet.mergeIterations) _).of_ok h2).scope.trans (scope_loopBody h1)

theorem follows_carryIns {names : List String} {s : Session} (hs : s.Follows types)
    (h : names.mapM (carryIn L f) s = .ok (carries, t)) : t.Follows types := by
  refine (mapM_keeps (Q := fun _ _ => True) (fun name _ s carry t hs h => ⟨?_, trivial, fun _ _ => trivial⟩) hs h).1
  obtain ⟨before, sort, p, s1, hb, -, hp, -, rfl⟩ := carryIn_ok h
  have q := (quiet_freshPred _ _).of_ok hp
  have hb' : s1.scope.find? name = some before := by rw [q.scope]; exact hb
  exact (hs.of_scope q.scope).rebind hb' _

theorem follows_iterationInputs (hs : s.Follows types) (h : iterationInputs L f s = .ok ((inputs, carries), t)) :
    t.Follows types := by
  obtain ⟨s1, h1, h2⟩ := iterationInputs_ok h
  have q : s.Quiet s1 := (Keeps.mapM (fun sort => .bind quiet.freshSlot fun _ => .pure _) _).of_ok h1
  exact follows_carryIns (hs.of_scope q.scope) h2

/-- What a carried variable is bound to after a chained loop has the type of the flow. -/
theorem follows_exitValues {order : ChainOrder} {pre : Scope} {body : LoopBody} {types inner : TypeEnv}
    (hpre : types.Alike pre.types) (hbody : inner.Alike body.scope.types) :
    ∀ {names : List String} {current : TypeEnv} {s t : Session}, s.Follows current →
      names.forM (exitValue L f order pre body) s = .ok ((), t) →
      ∃ out, names.foldlM (carryOut L.store.graph types inner) current = .ok out ∧ t.Follows out
  | [], current, _, _, hs, h => by
    cases forM_nil_ok.1 h
    exact ⟨current, rfl, hs⟩
  | name :: names, current, s, _, hs, h => by
    obtain ⟨s1, h1, h2⟩ := forM_cons_ok.1 h
    have step : ∃ mid, carryOut L.store.graph types inner current name = .ok mid ∧ s1.Follows mid := by
      rcases exitValue_ok h1 with ⟨hnone, rfl⟩ | ⟨before, after, type, v, s2, hb, ha, htype, hq, rfl, -⟩
      · refine ⟨current, ?_, hs⟩
        unfold carryOut
        rcases hnone with hn | hn
        · have : VarMap.find? pre.types name = none := by rw [Scope.find?_types, hn]; rfl
          rw [hpre.symm.find?_none this]
        · have : VarMap.find? body.scope.types name = none := by rw [Scope.find?_types, hn]; rfl
          rw [hbody.symm.find?_none this]
          cases VarMap.find? types name <;> rfl
      · have hb' : VarMap.find? pre.types name = some before.type := by rw [Scope.find?_types, hb]; rfl
        have ha' : VarMap.find? body.scope.types name = some after.type := by rw [Scope.find?_types, ha]; rfl
        obtain ⟨b, hbt, hbs⟩ := hpre.symm.find? hb'
        obtain ⟨a, hat, has⟩ := hbody.symm.find? ha'
        refine ⟨VarMap.insert current name ⟨type.signature, b.cardinality.cover a.cardinality⟩, ?_,
          (hs.of_scope hq.scope).bind name _ rfl⟩
        have hjoin : L.store.graph.joinStrict b.signature a.signature = .ok type.signature := by
          rw [hbs, has]
          exact ObjType.join_ok htype
        unfold carryOut
        rw [hbt, hat]
        simp only [ObjType.join, hjoin]
        rfl
    obtain ⟨mid, hmid, hs1⟩ := step
    obtain ⟨out, hout, hfollows⟩ := follows_exitValues hpre hbody hs1 h2
    refine ⟨out, ?_, hfollows⟩
    rw [foldlM_cons, hmid]
    exact hout

/-- The variables that a loop's plan carries are those of the flow. -/
theorem planLoop_carried {body : Block} (h : planLoop L scope var type isLocal body = .ok plan) (halike : types.Alike scope.types) :
    plan.carried = carried types var body := by
  obtain ⟨effects, -, h⟩ := exceptBind_ok.1 h
  cases h
  unfold carried
  have hcontains : ∀ name, types.contains name = VarMap.contains scope name := fun name =>
    (halike.contains name).trans (Scope.contains_types scope name)
  simp only [hcontains]

theorem flows_chainedLoop {t0 : ObjType}
    (hs : s.Follows types) (hrun : Flows (fun types => Flow.block L.store types body) f.body)
    (htype : t0.single.signature = f.iterator.1.signature) (hcarried : f.plan.carried = Flow.carried types f.var body)
    (h : chainedLoop L f s = .ok ((), t)) :
    ∃ inner out, Flow.block L.store (VarMap.insert types f.var t0.single) body = .ok inner ∧
      (Flow.carried types f.var body).foldlM (Flow.carryOut L.store.graph types inner) types = .ok out ∧ t.Follows out := by
  obtain ⟨order, inputs, carries, s1, lb, s2, s3, changes, s4, -, h1, h2, -, h3, h4, h5⟩ := chainedLoop_ok h
  have hs1 : s1.Follows types := follows_iterationInputs (s := s.inContext f.child) ⟨hs.alike, hs.distinct⟩ h1
  obtain ⟨s1', hbody, rfl, rfl⟩ := loopBody_ok h2
  have henter : (enterBody f (s.snapshot.withSlots inputs) (s1.inContext s.context)).Follows
      (VarMap.insert types f.var t0.single) :=
    (hs1.bind f.var ⟨.param (s1.contexts.level f.child), f.iterator.1, f.iterator.2⟩ htype).of_scope rfl
  obtain ⟨inner, hinner, hfollows⟩ := hrun _ _ _ henter hbody
  have q : s4.scope = s.scope :=
    ((Keeps.mapM (fun _ => quiet.exitSlot) _).of_ok h4).scope.trans
      ((quiet_threads L f order _ _ carries inputs).of_ok h3).scope
  have hs4 : (s4.atSnapshot (s.snapshot.withSlots changes)).Follows types := hs.of_scope q
  obtain ⟨out, hout, hend⟩ := follows_exitValues hs.alike hfollows.alike hs4 h5
  rw [hcarried] at hout
  exact ⟨inner, out, hinner, hout, hend⟩

/-- A loop has the types of the flow, if its body does. -/
theorem flows_forEach (hrun : Flows (fun types => Flow.block L.store types body) run) :
    Flows (fun types => Flow.statement L.store types (.forEach var domain body order))
      (forEach L var domain body order run) := by
  intro types s t hs h
  obtain ⟨value, type, s1, h1, hcases⟩ := forEach_ok h
  have q1 := (quiet_objSet L false s.scope domain).of_ok h1
  obtain ⟨u, hu, hsig⟩ := hs.infer (objSet_ok h1).1
  rcases hcases with ⟨hnone, rfl⟩ | ⟨sort, plan, child, s2, s3, hsort, hplan, h2, h3, hflat, hchained⟩
  · refine ⟨types, ?_, hs.of_scope q1.scope⟩
    have hb : u.signature.isBottom = true := by rw [hsig]; exact isBottom_of_sortOf_none hnone
    cases order with
    | flat => simp only [Flow.statement]; rfl
    | chained =>
      refine exceptBind_ok.2 ⟨u, hu, ?_⟩
      rw [if_pos hb]
      rfl
  · have hscope : s3.scope = s.scope :=
      ((quiet_contextAxioms L child var sort value).of_ok h3).scope.trans ((scope_addContext h2).trans q1.scope)
    cases order with
    | flat =>
      exact ⟨types, by simp only [Flow.statement]; rfl, hs.of_scope ((scope_flatLoop (hflat rfl)).trans hscope)⟩
    | chained =>
      have hb : u.signature.isBottom = false := by rw [hsig]; exact isBottom_of_sortOf_some hsort
      have hiterator : u.single.signature = (type.single).signature := hsig
      obtain ⟨inner, out, hinner, hout, hend⟩ := flows_chainedLoop
        (f := loopFrame var type (s.scope.isLocal domain) child sort plan run) (hs.of_scope hscope) hrun hiterator
        (planLoop_carried hplan hs.alike) (hchained rfl)
      refine ⟨out, ?_, hend⟩
      refine exceptBind_ok.2 ⟨u, hu, ?_⟩
      rw [if_neg (by simp [hb])]
      exact exceptBind_ok.2 ⟨inner, hinner, hout⟩

/-! ## Statements and blocks -/

mutual

/-- The scope after a statement has the types that the flow computes. -/
theorem flows_statement : ∀ s : Statement, Flows (fun types => Flow.statement L.store types s) (statement L s)
  | .assign var value => by rw [statement]; exact flows_assign var value
  | .create className var => by rw [statement]; exact flows_create className var
  | .delete objects => by rw [statement]; exact flows_delete objects
  | .createTuple source relation target => by
    intro types s t hs h
    exact ⟨types, by simp only [Flow.statement]; rfl, hs.of_scope (scope_updateTuples h)⟩
  | .deleteTuple source relation target => by
    intro types s t hs h
    exact ⟨types, by simp only [Flow.statement]; rfl, hs.of_scope (scope_updateTuples h)⟩
  | .ifElse condition thenBlock elseBlock => by
    exact flows_ifElse (flows_block thenBlock) (flows_block elseBlock)
  | .either branches => by rw [statement]; exact flows_either (flows_blocks branches)
  | .forEach var domain body order => by rw [statement]; exact flows_forEach (flows_block body)

theorem flows_block : ∀ b : List Statement, Flows (fun types => Flow.block L.store types b) (block L b)
  | [] => by
    intro types s t hs h
    cases pure_ok.1 h
    exact ⟨types, by simp only [Flow.block]; rfl, hs⟩
  | s :: rest => by
    intro types s0 t hs h
    obtain ⟨⟨⟩, s1, h1, h⟩ := bind_ok.1 h
    obtain ⟨mid, hmid, hs1⟩ := flows_statement s _ _ _ hs h1
    obtain ⟨out, hout, hend⟩ := flows_block rest _ _ _ hs1 h
    refine ⟨out, ?_, hend⟩
    dsimp only at hmid hout ⊢
    rw [Flow.block, hmid]
    exact hout

theorem flows_blocks : ∀ bs : List (List Statement),
    List.Forall₂ (fun run b => Flows (fun types => Flow.block L.store types b) run) (blocks L bs) bs
  | [] => by rw [blocks]; exact .nil
  | b :: rest => by
    exact .cons (flows_block b) (flows_blocks rest)

end

end Encode

end StoreCheck
