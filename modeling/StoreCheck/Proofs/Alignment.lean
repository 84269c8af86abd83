import StoreCheck.Proofs.AnalysisRuns
import StoreCheck.Proofs.Flow

/-!
# When the analysis sees the types of the flow

The analysis and the encoding each keep the types of the variables. They differ in two places. Where there is nothing to choose
from, the analysis forgets all variables. After a chained loop, the analysis gives an outer variable that the body assigns a
type that covers the assigned values, also if the loop's own variable hides it, or if the loop has nothing to iterate over.
`Flow.aligned` says that neither happens at a statement; where it holds throughout, the analysis has the types of the flow
(`Analysis.follows_runBlock`).
-/

namespace StoreCheck

open StoreCheck.Flow TypeEnv VarMap Block Option

variable {b after before c : Analysis} {body : List Statement} {l : Bool} {operation : Operation}

namespace Flow

/-- At the statement the analysis and the encoding agree on the types: a choice has an alternative, and every outer variable
that the body of a chained loop assigns is one that the loop carries. -/
def aligned (store : Store) (types : TypeEnv) : Statement → Bool
  | .either [] => types.isEmpty
  | .forEach var domain body .chained =>
    (Block.assigned body).all fun name => !types.contains name || (name != var && !isBottom (infer store types domain))
  | _ => true
where
  /-- The type is known to be the bottom. -/
  isBottom : Except TypeError ObjType → Bool
    | .ok type => type.signature.isBottom
    | .error _ => false

/-! ## Signatures after alternatives and loops -/

section Merging

variable (g : ClassGraph)

theorem signature_mergeTypes : ∀ types : List (Option ObjType),
    (Encode.mergeTypes g types).signature =
      ((types.map fun t => t.map (·.signature)).foldl g.joinPath none).getD .bottom
  | [] => rfl
  | first :: rest => by
    rw [Encode.mergeTypes, List.map_cons, List.foldl_cons]
    have start : ((first.getD .bottom).signature) = ((g.joinPath none (first.map (·.signature))).getD .bottom) := by
      cases first <;> rfl
    revert start
    generalize first.getD .bottom = t
    generalize g.joinPath none (first.map (·.signature)) = o
    induction rest generalizing t o with
    | nil => exact fun start => start
    | cons u rest ih =>
      intro start
      apply ih
      rw [g.getD_joinPath, ← start]
      cases u <;> rfl

/-- A variable is bound after the paths if one of them binds it. -/
theorem isSome_foldl_joinPath : ∀ (paths : List (Option Signature)) (start : Option Signature),
    (paths.foldl g.joinPath start).isSome = (start.isSome || paths.any (·.isSome))
  | [], _ => by simp
  | p :: rest, _ => by
    rw [List.foldl_cons, isSome_foldl_joinPath rest, g.isSome_joinPath, List.any_cons, Bool.or_assoc]

/-- Looking up a variable after alternatives. -/
theorem signatureOf?_mergeEnvs (exits : List TypeEnv) (x : String) :
    (mergeEnvs g exits).signatureOf? x = (exits.map fun e => e.signatureOf? x).foldl g.joinPath none := by
  have bound : x ∈ sortNames (exits.flatMap names) ↔
      ((exits.map fun e => e.signatureOf? x).foldl g.joinPath none).isSome := by
    rw [isSome_foldl_joinPath, mem_sortNames]
    simp [List.mem_flatMap, mem_names_iff, signatureOf?]
  have lookup : (mergeEnvs g exits).signatureOf? x =
      if x ∈ sortNames (exits.flatMap names)
      then some (Encode.mergeTypes g (exits.map (·.find? x))).signature else none := by
    unfold mergeEnvs signatureOf?
    rw [find?_ofNames]
    split <;> rfl
  rw [lookup]
  by_cases h : x ∈ sortNames (exits.flatMap names)
  · rw [if_pos h, signature_mergeTypes, List.map_map]
    obtain ⟨s, hs⟩ := isSome_iff_exists.1 (bound.1 h)
    have paths : exits.map ((fun t => t.map (·.signature)) ∘ fun e : TypeEnv => VarMap.find? e x) =
        exits.map fun e => e.signatureOf? x := rfl
    rw [paths, hs]
    rfl
  · rw [if_neg h]
    rw [bound, not_isSome_iff_eq_none] at h
    exact h.symm

theorem alike_mergeEnvs_one (e : TypeEnv) : TypeEnv.Alike (mergeEnvs g [e]) e := by
  intro x
  rw [signatureOf?_mergeEnvs]
  rfl

/-- The signature of an outer variable that a chained loop carries: it covers those before the loop and after the body. -/
def carriedSignature : Option Signature → Option Signature → Option Signature
  | some b, some a => some (g.join b a)
  | b, _ => b

/-- The types after one variable is carried out of a loop. -/
theorem signatureOf?_carryOut (before inner types out : TypeEnv) (name : String)
    (h : carryOut g before inner types name = .ok out) (x : String) :
    out.signatureOf? x =
      if x = name ∧ before.contains name ∧ inner.contains name
      then carriedSignature g (before.signatureOf? x) (inner.signatureOf? x) else types.signatureOf? x := by
  unfold carryOut at h
  cases hb : VarMap.find? before name with
  | none =>
    simp only [hb, Except.ok.injEq] at h
    subst h
    simp [VarMap.contains, hb]
  | some b =>
    cases hi : VarMap.find? inner name with
    | none =>
      simp only [hb, hi, Except.ok.injEq] at h
      subst h
      simp [VarMap.contains, hi]
    | some a =>
      simp only [hb, hi] at h
      obtain ⟨t, ht, h⟩ := exceptBind_ok.1 h
      cases h
      rw [signatureOf?_insert]
      by_cases hx : x = name
      · subst hx
        simp only [if_true, VarMap.contains, hb, hi, isSome_some, and_self, signatureOf?, map_some,
          carriedSignature]
        rw [g.joinStrict_ok (ObjType.join_ok ht)]
      · simp [hx]

/-- Looking up a variable after a chained loop. -/
theorem signatureOf?_carryOuts (before inner : TypeEnv) (x : String) : ∀ (names : List String) (types out : TypeEnv),
    names.foldlM (carryOut g before inner) types = .ok out →
    out.signatureOf? x =
      if x ∈ names ∧ before.contains x ∧ inner.contains x
      then carriedSignature g (before.signatureOf? x) (inner.signatureOf? x) else types.signatureOf? x
  | [], _, _, h => by
    cases h
    simp
  | n :: rest, types, out, h => by
    obtain ⟨mid, hmid, h⟩ := exceptBind_ok.1 h
    rw [signatureOf?_carryOuts before inner x rest mid out h, signatureOf?_carryOut g before inner types mid n hmid]
    by_cases hx : x = n
    · subst hx
      by_cases hc : before.contains x ∧ inner.contains x <;> simp [hc]
    · by_cases hr : x ∈ rest <;> simp [hx, hr]

end Merging

end Flow

/-! ## The analysis follows the flow -/

namespace Analysis

/-- Looking up a variable after a chained loop, in the analysis. -/
theorem types_carryOuts (store : Store) (inner : Analysis) (x : String) : ∀ (names : List String) (a b : Analysis),
    names.Nodup → VarMap.Distinct a.types → names.forM (carryOut store inner) a = .ok ((), b) →
    VarMap.Distinct b.types ∧ b.types.signatureOf? x =
      if x ∈ names ∧ a.types.contains x ∧ inner.types.contains x
      then carriedSignature store.graph (a.types.signatureOf? x) (inner.types.signatureOf? x)
      else a.types.signatureOf? x
  | [], _, _, _, hd, h => by
    cases forM_nil_ok.1 h
    simp [hd]
  | n :: rest, a, b, hn, hd, h => by
    obtain ⟨hnot, hrest⟩ := List.nodup_cons.1 hn
    obtain ⟨mid, hmid, h⟩ := forM_cons_ok.1 h
    unfold carryOut at hmid
    rw [get_bind] at hmid
    -- one step changes at most the variable it names
    have step : VarMap.Distinct mid.types ∧ mid.types.signatureOf? x =
        if x = n ∧ a.types.contains n ∧ inner.types.contains n
        then Flow.carriedSignature store.graph (a.types.signatureOf? x) (inner.types.signatureOf? x)
        else a.types.signatureOf? x := by
      cases ha : VarMap.find? a.types n with
      | none =>
        simp only [ha] at hmid
        cases pure_ok.1 hmid
        simp [VarMap.contains, ha, hd]
      | some before =>
        cases hi : VarMap.find? inner.types n with
        | none =>
          simp only [ha, hi] at hmid
          cases pure_ok.1 hmid
          simp [VarMap.contains, hi, hd]
        | some after =>
          simp only [ha, hi] at hmid
          cases modify_ok.1 hmid
          refine ⟨hd.insert n _, ?_⟩
          rw [TypeEnv.signatureOf?_insert]
          by_cases hx : x = n
          · subst hx
            simp [VarMap.contains, ha, hi, TypeEnv.signatureOf?, Flow.carriedSignature, ObjType.merge]
          · simp [hx]
    obtain ⟨hdb, hb⟩ := types_carryOuts store inner x rest mid b hrest step.1 h
    refine ⟨hdb, ?_⟩
    rw [hb]
    by_cases hx : x = n
    · subst hx
      rw [step.2]
      simp [hnot]
    · have hmx : mid.types.signatureOf? x = a.types.signatureOf? x := by simp [step.2, hx]
      simp only [TypeEnv.contains_eq, hmx, List.mem_cons, hx, false_or]

/-- The types are those of the flow, up to the bounds on sizes. -/
structure Follows (types : TypeEnv) (a : Analysis) : Prop where
  alike : types.Alike a.types
  distinct : VarMap.Distinct a.types

variable {types out : TypeEnv} {a : Analysis}

theorem Follows.of_reads (h : Follows types a) (hr : Reads a b) : Follows types b := by
  constructor
  · rw [hr.types]
    exact h.alike
  · rw [hr.types]
    exact h.distinct

theorem Follows.insert (h : Follows types a) (name : String) {t u : ObjType} (l : Bool) (hs : t.signature = u.signature) :
    Follows (VarMap.insert types name t) { a with types := a.types.insert name u, locals := a.locals.insert name l } :=
  ⟨h.alike.insert name hs, h.distinct.insert name u⟩

/-- The step takes the types of the flow from the first ones to the second ones. -/
def Carries (types out : TypeEnv) (path : Analyze Unit) : Prop :=
  ∀ a b, Follows types a → path a = .ok ((), b) → Follows out b

theorem follows_runPaths (he : Follows types entry) :
    ∀ {outs : List TypeEnv} {paths : List (Analyze Unit)}, List.Forall₂ (Carries types) outs paths →
      ∀ {a b : Analysis} {exits}, runPaths entry paths a = .ok (exits, b) →
        List.Forall₂ (fun out e => TypeEnv.Alike out e.1 ∧ VarMap.Distinct e.1) outs exits
  | _, _, .nil, _, _, _, h => by
    cases pure_ok.1 h
    exact .nil
  | _, _, .cons hp hrest, a, _, _, h => by
    unfold runPaths at h
    rw [modify_bind, bind_ok] at h
    obtain ⟨⟨⟩, after, h1, h⟩ := h
    rw [get_bind, bind_ok] at h
    obtain ⟨others, b', h2, h⟩ := h
    cases pure_ok.1 h
    have hafter := hp { a with types := entry.types, locals := entry.locals } after ⟨he.alike, he.distinct⟩ h1
    exact .cons ⟨hafter.alike, hafter.distinct⟩ (follows_runPaths he hrest h2)

theorem follows_alternatives (store : Store) (hpaths : List.Forall₂ (Carries types) outs paths) :
    Carries types (mergeEnvs store.graph outs) (alternatives store paths) := by
  intro a b ha h
  unfold alternatives at h
  rw [get_bind, bind_ok] at h
  obtain ⟨exits, a', h1, h⟩ := h
  cases modify_ok.1 h
  have hexits := follows_runPaths ha hpaths h1
  refine ⟨fun x => ?_, distinct_mergeAll _ _ _ distinct_nil⟩
  have hd : ∀ e ∈ exits, VarMap.Distinct e.1 := forall_right_of_forall₂ (fun _ _ hp => hp.2) hexits
  rw [signatureOf?_mergeEnvs, signatureOf?_mergeAll store.graph x exits _ hd, List.foldl_map]
  clear hd h1 h hpaths
  change _ = exits.foldl _ none
  generalize (none : Option Signature) = start
  induction hexits generalizing start with
  | nil => rfl
  | cons hp _ ih => rw [List.foldl_cons, List.foldl_cons, hp.1 x, ih]

/-- A chained loop over a set that is not of the bottom type gives the carried variables the types of the flow. -/
theorem follows_carryOuts {inner : TypeEnv} (store : Store) (hbefore : Follows types before) (hafter : Follows inner after)
    (hvar : ∀ x ∈ assigned body, types.contains x = true → x ≠ var)
    (hflow : (Flow.carried types var body).foldlM (Flow.carryOut store.graph types inner) types = .ok out)
    (h : (assigned body).eraseDups.forM (carryOut store after) (leaveLoop before after) = .ok ((), c)) : Follows out c := by
  have hc := fun x => types_carryOuts store after x _ (leaveLoop before after) c (nodup_eraseDups _) hbefore.distinct h
  refine ⟨fun x => ?_, (hc "").1⟩
  rw [(hc x).2, Flow.signatureOf?_carryOuts store.graph types inner x _ types out hflow]
  simp only [leaveLoop, ← hbefore.alike x, ← hafter.alike x, TypeEnv.contains_eq]
  refine if_congr ?_ rfl rfl
  rw [Flow.carried, mem_sortNames, List.mem_filter, List.mem_eraseDups]
  constructor
  · rintro ⟨⟨hx, -⟩, hb, hi⟩
    exact ⟨hx, hb, hi⟩
  · rintro ⟨hx, hb, hi⟩
    have hbound : types.contains x = true := by
      rw [TypeEnv.contains_eq]
      exact hb
    exact ⟨⟨hx, by simp [hvar x hx hbound, hbound]⟩, hb, hi⟩

/-- A chained loop over a set of the bottom type carries nothing out. -/
theorem follows_noCarry (store : Store) (hbefore : Follows types before)
    (hnone : ∀ x ∈ assigned body, types.contains x = false)
    (h : (assigned body).eraseDups.forM (carryOut store after) (leaveLoop before after) = .ok ((), c)) :
    Follows types c := by
  have hc := fun x => types_carryOuts store after x _ (leaveLoop before after) c (nodup_eraseDups _) hbefore.distinct h
  refine ⟨fun x => ?_, (hc "").1⟩
  rw [(hc x).2, if_neg]
  · exact hbefore.alike x
  · rintro ⟨hx, hb, -⟩
    rw [List.mem_eraseDups] at hx
    have hbound : types.contains x = true := (hbefore.alike.contains x).trans hb
    rw [hnone x hx] at hbound
    cases hbound

theorem follows_assign (store : Store) (var : String) (value : ObjExpr)
    (hflow : statement store types (.assign var value) = .ok out) :
    Carries types out (runStatement store (.assign var value)) := by
  intro a c ha h
  obtain ⟨l, b, h1, h⟩ := bind_ok.1 h
  obtain ⟨t, ht, h⟩ := typeOfBind_ok.1 h
  cases modify_ok.1 h
  have hb := ha.of_reads ((reads_readSet store false value).of_ok h1)
  obtain ⟨u, hu, hflow⟩ := exceptBind_ok.1 hflow
  cases hflow
  exact hb.insert var l (infer_signature_eq hb.alike hu ht).symm

theorem follows_create (store : Store) (className : String) (var : Option String)
    (hflow : statement store types (.create className var) = .ok out) :
    Carries types out (runStatement store (.create className var)) := by
  intro a b ha h
  obtain ⟨c, hc, h⟩ := liftBind_ok.1 h
  obtain ⟨⟨⟩, a2, h2, h⟩ := bind_ok.1 h
  cases modify_ok.1 h2
  obtain ⟨c', hc', hflow⟩ := exceptBind_ok.1 hflow
  rw [hc] at hc'
  cases hc'
  have ha' : Follows types { a with effects := a.effects.add (.ofClass c) .create true } := ⟨ha.alike, ha.distinct⟩
  cases var with
  | none =>
    cases pure_ok.1 h
    cases hflow
    exact ha'
  | some name =>
    cases modify_ok.1 h
    cases hflow
    exact ha'.insert name true rfl

/-- Noting an effect leaves the types alone. -/
theorem Follows.note (ha : Follows types a) (h : Analysis.note d operation l a = .ok ((), b)) : Follows types b := by
  cases modify_ok.1 h
  exact ⟨ha.alike, ha.distinct⟩

theorem Follows.notes {α : Type} {d : α → Domain} {xs : List α} {a : Analysis} (ha : Follows types a)
    (h : xs.forM (fun x => Analysis.note (d x) operation l) a = .ok ((), b)) : Follows types b :=
  forM_keeps (fun _ _ _ _ => Follows.note) ha h

theorem follows_deleteObjects (store : Store) (e : ObjExpr) (types : TypeEnv) :
    Carries types types (deleteObjects store e) := by
  intro a b ha h
  obtain ⟨l, a1, h1, h⟩ := bind_ok.1 h
  obtain ⟨t, ht, h⟩ := typeOfBind_ok.1 h
  obtain ⟨⟨⟩, a3, h3, h⟩ := bind_ok.1 h
  exact ((ha.of_reads ((reads_readSet store false e).of_ok h1)).notes h3).notes h

theorem follows_updateTuples (store : Store) (source : ObjExpr) (relation : String) (target : ObjExpr)
    (operation : Operation) (types : TypeEnv) :
    Carries types types (updateTuples store source relation target operation) := by
  intro a b ha h
  obtain ⟨l, a1, h1, h⟩ := bind_ok.1 h
  obtain ⟨l', a2, h2, h⟩ := bind_ok.1 h
  obtain ⟨t, ht, h⟩ := typeOfBind_ok.1 h
  obtain ⟨r, hr, h⟩ := liftBind_ok.1 h
  have ha2 := (ha.of_reads ((reads_readSet store false source).of_ok h1)).of_reads
    ((reads_readSet store false target).of_ok h2)
  exact ha2.note h

/-- The analysis of a loop follows the flow, where it is aligned. -/
theorem follows_loop (store : Store) (var : String) (domain : ObjExpr) (body : Block) (order : LoopKind)
    (haligned : Flow.aligned store types (.forEach var domain body order) = true)
    (hflow : Flow.statement store types (.forEach var domain body order) = .ok out)
    (hbody : ∀ t inner, infer store types domain = .ok t → t.signature.isBottom = false →
      Flow.block store (types.insert var t.single) body = .ok inner →
      Carries (VarMap.insert types var t.single) inner (runBlock store body)) :
    Carries types out (loop store var domain (assigned body) order (runBlock store body)) := by
  intro a c ha h
  obtain ⟨l, before, t, after, h1, ht, h2, hflat, hchained⟩ := loop_ok h
  have hbefore := ha.of_reads ((reads_readSet store false domain).of_ok h1)
  cases order with
  | flat =>
    cases hflow
    rw [hflat rfl]
    exact ⟨hbefore.alike, hbefore.distinct⟩
  | chained =>
    obtain ⟨u, hu, hs⟩ := infer_alike hbefore.alike.symm domain ht
    rw [Flow.statement, hu] at hflow
    obtain ⟨u', hu', hflow⟩ := exceptBind_ok.1 hflow
    cases hu'
    simp only [Flow.aligned, hu, Flow.aligned.isBottom, List.all_eq_true] at haligned
    by_cases hb : u.signature.isBottom = true
    · rw [if_pos hb] at hflow
      cases hflow
      refine follows_noCarry store hbefore (fun x hx => ?_) (hchained rfl)
      simpa [hb] using haligned x hx
    · rw [if_neg hb] at hflow
      obtain ⟨inner, hinner, hflow⟩ := exceptBind_ok.1 hflow
      have henter : Follows (VarMap.insert types var u.single) (enterLoop var t l before) :=
        hbefore.insert var l (by rw [ObjType.single, ObjType.single]; exact hs)
      have hafter := hbody u inner hu (by simpa using hb) hinner _ _ henter h2
      refine follows_carryOuts store hbefore hafter (fun x hx hbound => ?_) hflow (hchained rfl)
      have := haligned x hx
      rw [hbound] at this
      simp only [Bool.not_true, Bool.false_or, Bool.and_eq_true, bne_iff_ne] at this
      exact this.1

mutual

/-- Where the types are aligned, the analysis of a statement ends with the types of the flow. -/
theorem follows_runStatement (store : Store) : ∀ (s : Statement) {types out : TypeEnv},
    everywhere store (aligned store) types s = true → statement store types s = .ok out →
    Carries types out (runStatement store s)
  | .assign var value, _, _, _, hflow => follows_assign store var value hflow
  | .create className var, _, _, _, hflow => follows_create store className var hflow
  | .delete objects, types, _, _, hflow => by
    cases hflow
    exact follows_deleteObjects store objects types
  | .createTuple source relation target, types, _, _, hflow => by
    cases hflow
    exact follows_updateTuples store source relation target .create types
  | .deleteTuple source relation target, types, _, _, hflow => by
    cases hflow
    exact follows_updateTuples store source relation target .delete types
  | .ifElse condition thenBlock elseBlock, _, _, haligned, hflow => by
    rw [everywhere, Bool.and_eq_true, Bool.and_eq_true] at haligned
    obtain ⟨first, h1, hflow⟩ := exceptBind_ok.1 hflow
    obtain ⟨second, h2, hflow⟩ := exceptBind_ok.1 hflow
    cases hflow
    intro a b ha h
    obtain ⟨⟨⟩, a1, h3, h⟩ := bind_ok.1 h
    refine follows_alternatives store (.cons ?_ (.cons ?_ .nil)) a1 b
      (ha.of_reads ((reads_readFormula store condition).of_ok h3)) h
    · exact follows_runBlock store thenBlock haligned.1.2 h1
    · exact follows_runBlock store elseBlock haligned.2 h2
  | .either [], types, _, haligned, hflow => by
    rw [everywhere, Bool.and_eq_true] at haligned
    have hnone : types = [] := List.isEmpty_iff.1 haligned.1
    cases hflow
    rw [runStatement, runEach, hnone]
    intro a b ha h
    have hb := follows_alternatives store .nil a b ha h
    have hmerged : TypeEnv.Alike [] (mergeEnvs store.graph []) := fun x =>
      (signatureOf?_mergeEnvs store.graph [] x).symm
    exact ⟨hmerged.trans hb.alike, hb.distinct⟩
  | .either [only], _, out, haligned, hflow => by
    rw [everywhere, Bool.and_eq_true, everywhereInAll, Bool.and_eq_true] at haligned
    intro a b ha h
    have hb := follows_alternatives store (.cons (follows_runBlock store only haligned.2.1 hflow) .nil) a b ha h
    exact ⟨(alike_mergeEnvs_one store.graph out).symm.trans hb.alike, hb.distinct⟩
  | .either (first :: second :: rest), _, _, haligned, hflow => by
    rw [everywhere, Bool.and_eq_true] at haligned
    rw [statement] at hflow
    · obtain ⟨outs, houts, hflow⟩ := exceptBind_ok.1 hflow
      cases hflow
      exact follows_alternatives store (follows_runEach store (first :: second :: rest) haligned.2 houts)
    · simp
    · simp
  | .forEach var domain body order, _, _, haligned, hflow => by
    rw [everywhere, Bool.and_eq_true] at haligned
    refine follows_loop store var domain body order haligned.1 hflow fun t inner ht hb hinner => ?_
    have hbody := haligned.2
    rw [ht] at hbody
    simp only [hb, Bool.false_or] at hbody
    exact follows_runBlock store body hbody hinner

theorem follows_runBlock (store : Store) : ∀ (b : List Statement) {types out : TypeEnv},
    everywhereIn store (aligned store) types b = true → block store types b = .ok out →
    Carries types out (runBlock store b)
  | [], _, _, _, hflow => by
    cases hflow
    intro a b ha h
    cases pure_ok.1 h
    exact ha
  | s :: rest, _, _, haligned, hflow => by
    rw [everywhereIn, Bool.and_eq_true] at haligned
    obtain ⟨mid, hmid, hflow⟩ := exceptBind_ok.1 hflow
    intro a b ha h
    obtain ⟨⟨⟩, a1, h1, h⟩ := bind_ok.1 h
    have hrest := haligned.2
    rw [hmid] at hrest
    exact follows_runBlock store rest hrest hflow a1 b (follows_runStatement store s haligned.1 hmid a a1 ha h1) h

theorem follows_runEach (store : Store) : ∀ (bs : List (List Statement)) {types : TypeEnv} {outs : List TypeEnv},
    everywhereInAll store (aligned store) types bs = true → blocks store types bs = .ok outs →
    List.Forall₂ (Carries types) outs (runEach store bs)
  | [], _, _, _, hflow => by
    cases hflow
    exact .nil
  | b :: rest, _, _, haligned, hflow => by
    rw [everywhereInAll, Bool.and_eq_true] at haligned
    obtain ⟨first, h1, hflow⟩ := exceptBind_ok.1 hflow
    obtain ⟨others, h2, hflow⟩ := exceptBind_ok.1 hflow
    cases hflow
    exact .cons (follows_runBlock store b haligned.1 h1) (follows_runEach store rest haligned.2 h2)

end

end Analysis

end StoreCheck
