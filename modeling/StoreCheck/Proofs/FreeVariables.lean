import StoreCheck.Proofs.Noninterference
import StoreCheck.Proofs.Paths

/-!
# Expressions depend on the variables they read

Two scopes that bind the variables which an expression or a formula reads in the same way cannot be told apart by its type, its
encoding or its effects (`read_variables_suffice`). The variables of a quantifier are bound one after the other, so that each domain
and the body are looked at in scopes that differ from the given ones.
-/

namespace StoreCheck

open List Encode Scope Analysis VarMap

variable {rest : List QuantVar} {v : QuantVar} {inFormula : Bool} {body : Analyze Unit}

/-! ## Agreement -/

/-- The maps have the same entries for the names. -/
def VarMap.AgreeOn {α : Type} (names : List String) (m m' : VarMap α) : Prop := ∀ x ∈ names, m.find? x = m'.find? x

namespace VarMap.AgreeOn

variable {α : Type} {m m' : VarMap α} {xs ys : List String}

theorem mono (h : AgreeOn xs m m') (hsub : ∀ x ∈ ys, x ∈ xs) : AgreeOn ys m m' := fun x hx => h x (hsub x hx)

theorem left (h : AgreeOn (xs ++ ys) m m') : AgreeOn xs m m' := h.mono fun _ => mem_append_left _

theorem right (h : AgreeOn (xs ++ ys) m m') : AgreeOn ys m m' := h.mono fun _ => mem_append_right _

/-- What a quantifier reads suffices for its first domain. -/
theorem domain (h : AgreeOn (quantifierReads (v :: rest) xs) m m') : AgreeOn v.domain.reads m m' :=
  h.mono fun _ hx => mem_quantifierReads.2 (.inl (Or.inl (ObjExpr.mem_reads.1 hx)))

/-- What a quantifier reads suffices for the rest of it, where its first variable is bound. -/
theorem insert (h : AgreeOn (quantifierReads (v :: rest) xs) m m') (a : α) :
    AgreeOn (quantifierReads rest xs) (m.insert v.name a) (m'.insert v.name a) := by
  intro x hx
  rw [find?_insert, find?_insert]
  split
  · rfl
  · rename_i hne
    refine h x (mem_quantifierReads.2 ((mem_quantifierReads.1 hx).imp (fun hx => Or.inr ⟨Ne.symm hne, hx⟩) fun hx => ⟨?_, hx.2⟩))
    exact forall_mem_cons.2 ⟨Ne.symm hne, hx.1⟩

theorem of_quantifierReads_nil (h : AgreeOn (quantifierReads [] xs) m m') : AgreeOn xs m m' :=
  h.mono fun _ hx => mem_quantifierReads.2 (.inr ⟨forall_mem_nil _, hx⟩)

end VarMap.AgreeOn

theorem Scope.agreeOn_types {scope scope' : Scope} {xs : List String} (h : AgreeOn xs scope scope') :
    AgreeOn xs scope.types scope'.types := by
  intro x hx
  rw [find?_types, find?_types, h x hx]

/-! ## Types -/

theorem inferUnion_congr {types types' : TypeEnv} : ∀ (es : List ObjExpr) (acc : ObjType),
    (∀ e ∈ es, infer store types e = infer store types' e) → inferUnion store types acc es = inferUnion store types' acc es
  | [], _, _ => rfl
  | e :: rest, acc, h => by
    obtain ⟨he, hrest⟩ := forall_mem_cons.1 h
    rw [inferUnion, inferUnion, he]
    exact bind_congr fun t => bind_congr fun u => inferUnion_congr rest u hrest

theorem infer_congr {types types' : TypeEnv} (e : ObjExpr) (h : AgreeOn e.reads types types') :
    infer store types e = infer store types' e := by
  induction e with
  | allOf => rfl
  | var name | iterator name =>
    unfold infer TypeEnv.typeOf
    rw [h name (mem_singleton_self _)]
  | subset source ih | oneOf source ih | deref source relation ih =>
    unfold infer
    rw [ih h]
  | union parts ih =>
    rw [infer_union, infer_union]
    exact inferUnion_congr parts _ fun e he => ih e he (h.mono fun x hx => ObjExpr.mem_readsAll.2 ⟨e, he, hx⟩)

/-! ## Encodings -/

namespace Encode

variable {L : Layout} {scope scope' : Scope}

theorem checked_congr (e : ObjExpr) (h : AgreeOn e.reads scope scope') (encode : Encode ObjValue) :
    checked L scope e encode = checked L scope' e encode := by
  unfold checked
  rw [infer_congr e (agreeOn_types h)]

theorem objValues_congr {es : List ObjExpr} (h : ∀ e ∈ es, objValue L inFormula scope e = objValue L inFormula scope' e) :
    objValues L inFormula scope es = objValues L inFormula scope' es := by
  induction es with
  | nil => rfl
  | cons e rest ih =>
    obtain ⟨he, hrest⟩ := forall_mem_cons.1 h
    rw [objValues, objValues, he, ih hrest]

theorem objValue_congr (e : ObjExpr) (h : AgreeOn e.reads scope scope') :
    objValue L inFormula scope e = objValue L inFormula scope' e := by
  induction e with
  | allOf => rfl
  | var name | iterator name =>
    unfold objValue boundValue
    rw [h name (mem_singleton_self _)]
  | subset source ih | oneOf source ih =>
    unfold objValue
    rw [ih h, checked_congr source h]
  | union parts ih =>
    unfold objValue
    rw [objValues_congr fun e he => ih e he (h.mono fun x hx => ObjExpr.mem_readsAll.2 ⟨e, he, hx⟩)]
  | deref source relation ih =>
    unfold objValue derefValue
    rw [ih h, infer_congr source (agreeOn_types h)]

theorem objSet_congr (e : ObjExpr) (h : AgreeOn e.reads scope scope') :
    objSet L inFormula scope e = objSet L inFormula scope' e := by
  unfold objSet
  rw [objValue_congr e h, checked_congr e h]

theorem comparable_congr : ∀ (es : List ObjExpr) (joined : Option ObjType), AgreeOn (ObjExpr.readsAll es) scope scope' →
    comparable L scope es joined = comparable L scope' es joined
  | [], _, _ => rfl
  | e :: rest, joined, h => by
    have hrest (joined : Option ObjType) := comparable_congr rest joined h.right
    unfold comparable
    rw [objSet_congr e h.left]
    simp only [hrest]

/-- A quantifier and what follows it, which may rely on the variables that its body reads. -/
theorem quantified_congr {β : Type} (params : List Term) {xs : List String} : ∀ (vars : List QuantVar) {scope scope' : Scope},
    AgreeOn (quantifierReads vars xs) scope scope' → ∀ {next next' : Option Quantified → Encode β}, next none = next' none →
    (∀ binders members scope scope', AgreeOn xs scope scope' →
      next (some ⟨binders, members, scope⟩) = next' (some ⟨binders, members, scope'⟩)) →
    (quantified L params vars scope >>= next) = (quantified L params vars scope' >>= next')
  | [], _, _, h, _, _, _, hsome => hsome _ _ _ _ h.of_quantifierReads_nil
  | v :: rest, scope, scope', h, next, next', hnone, hsome => by
    unfold quantified
    rw [objSet_congr v.domain h.domain]
    simp only [bind_assoc]
    refine bind_congr fun p => bind_congr fun sort => ?_
    cases sort with
    | none => simpa only [pure_bind] using hnone
    | some sort =>
      simp only [bind_assoc]
      refine bind_congr fun b => bind_congr fun F => quantified_congr params rest (h.insert _) ?_ fun bs ms sc sc' hsc => ?_
      · simpa only [pure_bind] using hnone
      · simpa only [pure_bind] using hsome _ _ _ _ hsc

theorem formulas_congr {fs : List FormulaExpr} (h : ∀ f ∈ fs, formula L params f scope = formula L params f scope') :
    formulas L params fs scope = formulas L params fs scope' := by
  induction fs with
  | nil => rfl
  | cons f rest ih =>
    obtain ⟨hf, hrest⟩ := forall_mem_cons.1 h
    rw [formulas, formulas, hf, ih hrest]

theorem formula_congr (params : List Term) (f : FormulaExpr) {scope scope' : Scope} (h : AgreeOn f.reads scope scope') :
    formula L params f scope = formula L params f scope' := by
  induction f generalizing scope scope' with
  | literal value => cases value <;> rfl
  | not f ih =>
    unfold formula
    rw [ih h]
  | and parts ih | or parts ih | equiv parts ih =>
    unfold formula
    rw [formulas_congr fun f hf => ih f hf (h.mono fun x hx => FormulaExpr.mem_readsAll.2 ⟨f, hf, hx⟩)]
  | implies premise conclusion ihp ihc =>
    unfold formula
    rw [ihp h.left, ihc h.right]
  | equal sets =>
    unfold formula equalSets
    rw [comparable_congr sets none h]
  | isIn set within =>
    unfold formula includedSet
    rw [objSet_congr set h.left, objSet_congr within h.right]
  | isEmpty set =>
    unfold formula emptySet
    rw [objSet_congr set h]
  | forAll vars body ih | forSome vars body ih =>
    unfold formula
    exact quantified_congr params vars h rfl fun _ _ _ _ hbody => by simp only [ih hbody]

end Encode

/-! ## Sessions -/

/-- The session with other variables in scope. -/
def Session.atScope (s : Session) (scope : Scope) : Session := { s with scope }

namespace Encode

variable {L : Layout} {k k' : Scope}

/-- The variables come from the given scope and not from that of the session. -/
theorem choosing_unscoped (L : Layout) : Choosing L (Oblivious Session.atScope k k') where
  toComparing := comparing_oblivious L (fun _ _ => rfl) (fun _ _ => rfl) fun _ _ _ => rfl
  slot _ _ := .read (fun _ _ => rfl) fun _ => .pure _
  freshPred _ _ := .modifyGet fun _ _ => rfl
  depth := .read (fun _ _ => rfl) fun _ => .pure _
  axiomOver hbuild := by
    refine .bind (.read (fun _ _ => rfl) fun _ => .modifyGet fun _ _ => rfl) fun _ => .bind (hbuild _) fun _ =>
      .read (fun _ _ => rfl) fun _ => .modifyGet fun s j => ?_
    dsimp only
    split <;> rfl

end Encode

/-! ## Effects -/

/-- The analysis where the variables in scope are others. -/
def Analysis.inScope (a : Analysis) (scope : Scope) : Analysis := { a with types := scope.types, locals := scope.locals }

namespace Analysis

variable {scope scope' : Scope}

theorem oblivious_localityOf (h : scope.find? name = scope'.find? name) : Oblivious inScope scope scope' (localityOf name) := by
  intro a
  refine ⟨(scope.find? name).elim (.error (TypeError.undefinedVariable name)) fun b => .ok (b.isLocal, a), fun j hj => ?_⟩
  have hj : j.find? name = scope.find? name := by rcases hj with rfl | rfl <;> simp [h]
  have hlocals : (a.inScope j).locals.find? name = (scope.find? name).map (·.isLocal) := hj ▸ VarMap.find?_map j _ name
  rw [localityOf, get_bind, hlocals]
  cases scope.find? name <;> rfl

theorem oblivious_typeOf (h : infer store scope.types e = infer store scope'.types e) :
    Oblivious inScope scope scope' (typeOf store e) := by
  intro a
  refine ⟨(infer store scope.types e).map (·, a), fun j hj => ?_⟩
  have hj : infer store j.types e = infer store scope.types e := by rcases hj with rfl | rfl <;> simp [h]
  change (liftM (infer store j.types e) : Analyze ObjType) (a.inScope j) = _
  rw [hj]
  cases infer store scope.types e <;> rfl

theorem oblivious_note (d : Domain) (operation : Operation) (isLocal : Bool) : Oblivious inScope scope scope' (note d operation isLocal) :=
  .modifyGet fun _ _ => rfl

theorem oblivious_readSets {es : List ObjExpr} (h : ∀ e ∈ es, Oblivious inScope scope scope' (readSet store inFormula e)) :
    Oblivious inScope scope scope' (readSets store inFormula es) := by
  induction es with
  | nil => exact .pure _
  | cons e rest ih =>
    obtain ⟨he, hrest⟩ := forall_mem_cons.1 h
    exact .bind he fun _ => .bind (ih hrest) fun _ => .pure _

theorem oblivious_readSet (e : ObjExpr) (h : AgreeOn e.reads scope scope') :
    Oblivious inScope scope scope' (readSet store inFormula e) := by
  induction e with
  | allOf => exact .lift_bind fun _ _ => .bind (oblivious_note _ _ _) fun _ => .pure _
  | var name | iterator name => exact oblivious_localityOf (h name (mem_singleton_self _))
  | subset source ih | oneOf source ih => exact ih h
  | union parts ih => exact oblivious_readSets fun e he => ih e he (h.mono fun x hx => ObjExpr.mem_readsAll.2 ⟨e, he, hx⟩)
  | deref source relation ih =>
    exact .bind (ih h) fun _ => .bind (oblivious_typeOf (infer_congr source (agreeOn_types h))) fun _ => .lift_bind fun _ _ =>
      .bind (oblivious_note _ _ _) fun _ => .pure _

/-- The effects of a quantifier, whose body relies on the variables that it reads. -/
theorem exists_effects_quantified (store : Store) {body : Analyze Unit} {xs : List String}
    (hbody : ∀ {scope scope' : Scope}, AgreeOn xs scope scope' → Oblivious inScope scope scope' body) :
    ∀ (vars : List QuantVar) {scope scope' : Scope}, AgreeOn (quantifierReads vars xs) scope scope' → ∀ a : Analysis,
      ∃ r : Except TypeError EffectMap, ∀ j, j = scope ∨ j = scope' →
        ((bindQuantified store vars >>= fun _ => body) (a.inScope j)).map (·.2.effects) = r
  | [], scope, scope', h, a => by
    obtain ⟨r, hr⟩ := hbody h.of_quantifierReads_nil a
    refine ⟨r.map (·.2.effects), fun j hj => ?_⟩
    change (body (a.inScope j)).map _ = _
    rw [hr j hj]
    cases r <;> rfl
  | v :: rest, scope, scope', h, a => by
    have hread : Oblivious inScope scope scope' (readSet store true v.domain) := oblivious_readSet v.domain h.domain
    obtain ⟨r, hr⟩ := hread.bind (fun _ => oblivious_typeOf (infer_congr v.domain (Scope.agreeOn_types h.domain))) a
    have hsteps : (bindQuantified store (v :: rest) >>= fun _ => body) =
        ((readSet store true v.domain >>= fun _ => typeOf store v.domain) >>= fun t =>
          bind v.name t.single false >>= fun _ => bindQuantified store rest >>= fun _ => body) := by
      simp only [bindQuantified, bind_assoc]
    rw [hsteps]
    cases r with
    | error e =>
      refine ⟨.error e, fun j hj => ?_⟩
      change Except.map _ (Except.bind ((readSet store true v.domain >>= _) (a.inScope j)) _) = _
      rw [hr j hj]
      rfl
    | ok p =>
      obtain ⟨r', hr'⟩ := exists_effects_quantified store hbody rest (h.insert ⟨.empty, p.1.single, false⟩) p.2
      refine ⟨r', fun j hj => ?_⟩
      have hbound := hr' (j.insert v.name ⟨.empty, p.1.single, false⟩) (hj.imp (by rintro rfl; rfl) (by rintro rfl; rfl))
      rw [inScope, Scope.types_insert, Scope.locals, insert_map] at hbound
      change Except.map _ (Except.bind ((readSet store true v.domain >>= _) (a.inScope j)) _) = _
      rw [hr j hj]
      exact hbound

theorem oblivious_readQuantifier {xs : List String}
    (hbody : ∀ {scope scope' : Scope}, AgreeOn xs scope scope' → Oblivious inScope scope scope' body)
    (h : AgreeOn (quantifierReads vars xs) scope scope') : Oblivious inScope scope scope' (readQuantifier store vars body) := by
  intro a
  obtain ⟨r, hr⟩ := exists_effects_quantified store hbody vars h a
  refine ⟨r.map fun effects => ((), { a with effects }), fun j hj => ?_⟩
  rw [← hr j hj, readQuantifier, get_bind, ← bind_assoc]
  change Except.bind ((bindQuantified store vars >>= fun _ => body) (a.inScope j)) _ = _
  cases (bindQuantified store vars >>= fun _ => body) (a.inScope j) <;> rfl

theorem oblivious_readFormulas {fs : List FormulaExpr} (h : ∀ f ∈ fs, Oblivious inScope scope scope' (readFormula store f)) :
    Oblivious inScope scope scope' (readFormulas store fs) := by
  induction fs with
  | nil => exact .pure _
  | cons f rest ih =>
    obtain ⟨hf, hrest⟩ := forall_mem_cons.1 h
    exact .bind hf fun _ => ih hrest

theorem oblivious_readFormula (f : FormulaExpr) {scope scope' : Scope} (h : AgreeOn f.reads scope scope') :
    Oblivious inScope scope scope' (readFormula store f) := by
  induction f generalizing scope scope' with
  | literal => exact .pure _
  | not f ih => exact ih h
  | and parts ih | or parts ih | equiv parts ih =>
    exact oblivious_readFormulas fun f hf => ih f hf (h.mono fun x hx => FormulaExpr.mem_readsAll.2 ⟨f, hf, hx⟩)
  | implies premise conclusion ihp ihc => exact .bind (ihp h.left) fun _ => ihc h.right
  | equal sets =>
    refine .bind (oblivious_readSets fun e he => oblivious_readSet e (h.mono fun x hx => ?_)) fun _ => .pure _
    exact ObjExpr.mem_readsAll.2 ⟨e, he, hx⟩
  | isIn set within => exact .bind (oblivious_readSet set h.left) fun _ => .bind (oblivious_readSet within h.right) fun _ => .pure _
  | isEmpty set => exact .bind (oblivious_readSet set h) fun _ => .pure _
  | forAll vars body ih | forSome vars body ih => exact oblivious_readQuantifier ih h

end Analysis

/-- What an oblivious step gives for one value of a part of the state, it gives for the other. -/
theorem Oblivious.map_eq {σ κ ε α : Type} {put : σ → κ → σ} {k k' : κ} {x : StateT σ (Except ε) α} (h : Oblivious put k k' x)
    (hput : ∀ s j j', put (put s j) j' = put s j') (s : σ) : x (put s k') = (x (put s k)).map fun (a, t) => (a, put t k') := by
  obtain ⟨r, hr⟩ := h s
  rw [hr k (.inl rfl), hr k' (.inr rfl)]
  cases r with
  | error e => rfl
  | ok p => exact congrArg (fun t => Except.ok (p.1, t)) (hput _ _ _).symm

/-- Take two scopes with the same bindings, in value, type and locality, for the variables that an expression or a formula reads.
Its type, its encoding from two sessions that are the same but for these scopes, and the analysis of its effects are the same under
both, or fail with the same error; and the sessions and the effects afterwards are the same but for the scopes. -/
theorem read_variables_suffice (L : Layout) (s : Session) (scope : Scope) (before : Analysis) :
    (∀ e : ObjExpr, VarMap.AgreeOn e.reads s.scope scope →
      infer L.store scope.types e = infer L.store s.scope.types e ∧ ∀ inFormula : Bool,
        objSet L inFormula scope e (s.atScope scope) =
          (objSet L inFormula s.scope e s).map (fun (p, t) => (p, t.atScope scope)) ∧
        readSet L.store inFormula e (before.inScope scope) =
          (readSet L.store inFormula e (before.inScope s.scope)).map fun (isLocal, a) => (isLocal, a.inScope scope)) ∧
      ∀ f : FormulaExpr, VarMap.AgreeOn f.reads s.scope scope → (∀ params : List Term,
        formula L params f scope (s.atScope scope) =
          (formula L params f s.scope s).map fun (F, t) => (F, t.atScope scope)) ∧
        readFormula L.store f (before.inScope scope) =
          (readFormula L.store f (before.inScope s.scope)).map fun ((), a) => ((), a.inScope scope) := by
  constructor
  · intro e h
    refine ⟨(infer_congr e (agreeOn_types h)).symm, fun inFormula => ⟨?_, ?_⟩⟩
    · rw [← objSet_congr e h]
      exact ((Encode.choosing_unscoped L).objSet inFormula s.scope e).map_eq (fun _ _ _ => rfl) s
    · exact (oblivious_readSet e h).map_eq (fun _ _ _ => rfl) before
  · intro f h
    refine ⟨fun params => ?_, (oblivious_readFormula f h).map_eq (fun _ _ _ => rfl) before⟩
    rw [← formula_congr params f h]
    exact ((Encode.choosing_unscoped L).formula params f s.scope).map_eq (fun _ _ _ => rfl) s

namespace Hotel

/-- Every guest but `x` has a room. -/
def othersHoused : FormulaExpr :=
  .forAll [⟨"g", .allOf "Guest"⟩] (.or [.isIn (.var "g") (.var "x"), .not (.isEmpty (.deref (.var "g") "stays"))])

/-- A scope with a guest, and one with a variable more that is called as the quantified one. -/
def visitor : Scope := [("x", ⟨.ofClass ⟨0⟩ ⟨⟨3⟩, 0⟩, .ofClass ⟨0⟩, false⟩)]

def visitors : Scope := ("g", ⟨.empty, .bottom, true⟩) :: visitor

end Hotel

open Hotel

/-- A quantified variable is not read from outside: what is called as it there does not matter. -/
theorem read_variables_suffice_housed :
    let L := (Layout.ofStore store).1
    let s := (Layout.ofStore store).2.atScope visitor
    AgreeOn othersHoused.reads s.scope visitors ∧
      formula L [] othersHoused visitors (s.atScope visitors) =
        (formula L [] othersHoused s.scope s).map fun (F, t) => (F, t.atScope visitors) := by
  intro L s
  have h : AgreeOn othersHoused.reads s.scope visitors := by
    intro x hx
    rw [show othersHoused.reads = ["x"] from rfl] at hx
    cases mem_singleton.1 hx
    rfl
  exact ⟨h, ((read_variables_suffice L s visitors ⟨[], [], .empty⟩).2 _ h).1 []⟩

end StoreCheck
