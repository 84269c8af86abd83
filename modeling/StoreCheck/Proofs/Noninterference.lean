import StoreCheck.Proofs.WriteSet

/-!
# A formula's encoding depends on the slots it reads

Encode a formula from two sessions that differ in the current snapshot only. If the snapshots have the same slots for the sorts
of all domains that the effect analysis reports as read, both encodings give the same formula or the same error, and leave the
same symbols and variables (`unread_slots_irrelevant`). So the analysis misses no read: it resolves every relation as the
encoding does, under the types of the variables bound so far, and looks at every set that the encoding may look at.
-/

namespace StoreCheck

open Layout

variable {sort : SortId} {L : Layout} {a b : Analysis}

/-! ## Steps that cannot tell two states apart -/

section Oblivious

variable {σ κ ε α β : Type} {put : σ → κ → σ} {k k' : κ}

/-- Whichever of the two values a part of the state has, the step gives the same result, or the same error, and the states after it
are the same but for that part, which it keeps. -/
def Oblivious (put : σ → κ → σ) (k k' : κ) (x : StateT σ (Except ε) α) : Prop :=
  ∀ s, ∃ r : Except ε (α × σ), ∀ j, j = k ∨ j = k' → x (put s j) = r.map fun p => (p.1, put p.2 j)

namespace Oblivious

theorem pure (a : α) : Oblivious put k k' (pure a : StateT σ (Except ε) α) := fun s => ⟨.ok (a, s), fun _ _ => rfl⟩

theorem throw (e : ε) : Oblivious put k k' (throw e : StateT σ (Except ε) α) := fun _ => ⟨.error e, fun _ _ => rfl⟩

/-- Sequences of oblivious steps are oblivious. -/
theorem bind {x : StateT σ (Except ε) α} {f : α → StateT σ (Except ε) β} (hx : Oblivious put k k' x)
    (hf : ∀ a, Oblivious put k k' (f a)) : Oblivious put k k' (x >>= f) := by
  intro s
  obtain ⟨r, hr⟩ := hx s
  cases r with
  | error e =>
    refine ⟨.error e, fun j hj => ?_⟩
    change Except.bind (x (put s j)) _ = _
    rw [hr j hj]
    rfl
  | ok p =>
    obtain ⟨r', hr'⟩ := hf p.1 p.2
    refine ⟨r', fun j hj => ?_⟩
    change Except.bind (x (put s j)) _ = _
    rw [hr j hj]
    exact hr' j hj

/-- A step that looks at the rest of the state only. -/
theorem read {f : σ → StateT σ (Except ε) β} (hread : ∀ s j, f (put s j) = f s) (hf : ∀ s, Oblivious put k k' (f s)) :
    Oblivious put k k' (get >>= f) := by
  intro s
  obtain ⟨r, hr⟩ := hf s s
  refine ⟨r, fun j hj => ?_⟩
  rw [get_bind, hread]
  exact hr j hj

theorem modifyGet {f : σ → α × σ} (hf : ∀ s j, f (put s j) = ((f s).1, put (f s).2 j)) :
    Oblivious put k k' (modifyGet f : StateT σ (Except ε) α) :=
  fun s => ⟨.ok (f s), fun j _ => congrArg Except.ok (hf s j)⟩

/-- What follows a computation without a state matters only if that succeeds. -/
theorem lift_bind {r : Except ε α} {f : α → StateT σ (Except ε) β} (hf : ∀ a, r = .ok a → Oblivious put k k' (f a)) :
    Oblivious put k k' (liftM r >>= f) := by
  cases r with
  | error e => exact throw e
  | ok a => exact hf a rfl

end Oblivious

end Oblivious

namespace Encode

variable {α β : Type} {σ σ' : Snapshot}

/-- What follows a step that types matters only if that succeeds. -/
theorem oblivious_typed_bind {κ : Type} {put : Session → κ → Session} {k k' : κ} {f : α → Encode β}
    (hf : ∀ a, r = .ok a → Oblivious put k k' (f a)) : Oblivious put k k' (typed r >>= f) := by
  cases r with
  | error e => exact .throw _
  | ok a => exact hf a rfl

/-- A step that only compares members takes variables and looks at the contexts. -/
theorem comparing_oblivious {κ : Type} {put : Session → κ → Session} {k k' : κ} (L : Layout) (hcontexts : ∀ s j, (put s j).contexts = s.contexts)
    (hvars : ∀ s j, (put s j).vars = s.vars) (hset : ∀ s j vars, put { s with vars } j = { put s j with vars }) :
    Comparing L (Oblivious put k k') where
  pure := .pure
  throw := .throw
  lift r s := by
    refine ⟨r.map fun a => (a, s), fun j _ => ?_⟩
    cases r <;> rfl
  bind := .bind
  binder sort := .modifyGet fun s j => by
    change ((VarGen.binder sort (put s j).vars).1, { put s j with vars := (VarGen.binder sort (put s j).vars).2 }) = _
    rw [hvars]
    exact congrArg _ (hset s j _).symm
  member v ps o := by
    refine .read (fun s j => by rw [hcontexts]) fun s0 s => ?_
    refine ⟨(v.member L s0.contexts ps o s.vars).map fun p => (p.1, { s with vars := p.2 }), fun j _ => ?_⟩
    unfold freshly
    rw [get_bind, hvars]
    cases v.member L s0.contexts ps o s.vars with
    | error e => rfl
    | ok p => exact congrArg (fun t => Except.ok (p.1, t)) (hset s j p.2).symm

/-- The step cannot tell the snapshots apart. -/
abbrev Indifferent (σ σ' : Snapshot) (x : Encode α) : Prop := Oblivious Session.atSnapshot σ σ' x

/-- A step that looks at a slot which both snapshots share. -/
theorem indifferent_readSlot (hslot : σ.slot sort = σ'.slot sort) (value : Slot → α) :
    Indifferent σ σ' (get >>= fun s => Pure.pure (value (s.snapshot.slot sort))) := by
  intro s
  refine ⟨.ok (value (σ.slot sort), s), fun τ hτ => ?_⟩
  rcases hτ with rfl | rfl
  · rfl
  · rw [hslot]
    rfl

theorem comparing_indifferent (L : Layout) : Comparing L (Indifferent σ σ') :=
  comparing_oblivious L (fun _ _ => rfl) (fun _ _ => rfl) fun _ _ _ => rfl

theorem indifferent_unknown (params : List Term) : Indifferent σ σ' (unknown params) :=
  .bind (.modifyGet fun _ _ => rfl) fun _ => .bind (.read (fun _ _ => rfl) fun _ => .pure _) fun _ => .pure _

/-! ## The encoding follows the analysis -/

open Analysis

/-- The snapshots have the same slots for the sorts of all domains that the analysis has noted as read. -/
def SharesReads (L : Layout) (σ σ' : Snapshot) (a : Analysis) : Prop :=
  ∀ d ∈ a.effects.reads, ∀ sort, L.domainSort d = some sort → σ.slot sort = σ'.slot sort

theorem SharesReads.of_more (h : SharesReads L σ σ' b) (hm : More a b) : SharesReads L σ σ' a :=
  fun d hd => h d (hm.domainsWith hd)

theorem SharesReads.of_note (h : SharesReads L σ σ' b) (hn : note d .read isLocal a = .ok ((), b))
    (hsort : L.domainSort d = some sort) : σ.slot sort = σ'.slot sort := by
  cases modify_ok.1 hn
  exact h d ((EffectMap.mem_domainsWith_add a.effects d d .read isLocal _).2 (.inr ⟨rfl, by simp⟩)) sort hsort

section Walk

variable {L : Layout}

theorem indifferent_boundValue (scope : Scope) (name : String) : Indifferent σ σ' (boundValue scope name) := by
  unfold boundValue
  split
  · exact .pure _
  · exact .throw _

variable {scope : Scope} {a b : Analysis} {l : Bool}

/-- The values of sets, each of which is indifferent where it is read. -/
theorem indifferent_objValues_of (hes : ∀ e ∈ es, ∀ {a b : Analysis} {l : Bool}, readSet L.store true e a = .ok (l, b) →
      scope.types = a.types → SharesReads L σ σ' b → Indifferent σ σ' (objValue L true scope e))
    (hrun : readSets L.store true es a = .ok (l, b)) (htypes : scope.types = a.types) (hshares : SharesReads L σ σ' b) :
    Indifferent σ σ' (objValues L true scope es) ∧ ∀ e ∈ es, Indifferent σ σ' (objValue L true scope e) := by
  induction es generalizing a l with
  | nil => exact ⟨.pure _, List.forall_mem_nil _⟩
  | cons e rest ih =>
    obtain ⟨he, hes⟩ := List.forall_mem_cons.1 hes
    obtain ⟨l1, l2, a1, h1, h2, -, hreads, hmore⟩ := readSets_cons_ok hrun
    have hfirst := he h1 htypes (hshares.of_more hmore)
    have hrest := ih hes h2 (htypes.trans hreads.types.symm)
    exact ⟨.bind hfirst fun _ => .bind hrest.1 fun _ => .pure _, List.forall_mem_cons.2 ⟨hfirst, hrest.2⟩⟩

/-- The value of an expression is indifferent to what the expression does not read. -/
theorem indifferent_objValue (e : ObjExpr)
    (hrun : readSet L.store true e a = .ok (l, b)) (htypes : scope.types = a.types) (hshares : SharesReads L σ σ' b) :
    Indifferent σ σ' (objValue L true scope e) := by
  induction e generalizing a b l with
  | allOf className =>
    obtain ⟨-, c, hc, h1⟩ := readSet_allOf_ok hrun
    refine oblivious_typed_bind fun c' hc' => ?_
    cases hc.symm.trans hc'
    exact indifferent_readSlot (hshares.of_note h1 rfl) _
  | var name => exact indifferent_boundValue scope name
  | iterator name => exact indifferent_boundValue scope name
  | subset source => exact .throw _
  | oneOf source => exact .throw _
  | union parts ih =>
    exact .bind (indifferent_objValues_of ih hrun htypes hshares).1 fun _ => .pure _
  | deref source relation ih =>
    obtain ⟨a1, t, r, h1, ht, hr, h2⟩ := readSet_deref_ok hrun
    rw [← htypes] at ht
    refine .bind (ih h1 htypes (hshares.of_more ((more_note _ _ _).of_ok h2))) fun v => ?_
    -- the encoding finds the relation that the analysis has noted
    refine oblivious_typed_bind fun t' ht' => ?_
    cases ht.symm.trans ht'
    refine oblivious_typed_bind fun r' hr' => ?_
    cases hr.symm.trans hr'
    refine .lift_bind fun ts hts => ?_
    exact indifferent_readSlot (hshares.of_note h2 (Layout.domainSort_relation hts)) _

/-- The values of the sets, together and each on its own. -/
theorem indifferent_objValues (es : List ObjExpr)
    (hrun : readSets L.store true es a = .ok (l, b)) (htypes : scope.types = a.types) (hshares : SharesReads L σ σ' b) :
    Indifferent σ σ' (objValues L true scope es) ∧ ∀ e ∈ es, Indifferent σ σ' (objValue L true scope e) :=
  indifferent_objValues_of (fun e _ => indifferent_objValue e) hrun htypes hshares

theorem indifferent_objSet (h : Indifferent σ σ' (objValue L true scope e)) : Indifferent σ σ' (objSet L true scope e) :=
  (comparing_indifferent L).checked L scope e h

/-- A quantifier and what follows it, which may rely on the types of the variables. -/
theorem indifferent_quantified (params : List Term) {next : Option Quantified → Encode β} : ∀ (qs : List QuantVar) {scope : Scope}
    {a b : Analysis}, bindQuantified L.store qs a = .ok ((), b) → scope.types = a.types → SharesReads L σ σ' b →
    Indifferent σ σ' (next none) → (∀ q : Quantified, q.scope.types = b.types → Indifferent σ σ' (next (some q))) →
    Indifferent σ σ' (quantified L params qs scope >>= next)
  | [], _, _, _, hrun, htypes, _, _, hsome => by
    cases pure_ok.1 hrun
    exact hsome _ htypes
  | v :: rest, _, a, _, hrun, htypes, hshares, hnone, hsome => by
    obtain ⟨l1, a1, h1, hrun⟩ := bind_ok.1 hrun
    obtain ⟨t, ht, hrun⟩ := typeOfBind_ok.1 hrun
    obtain ⟨⟨⟩, a3, h3, hrun⟩ := bind_ok.1 hrun
    have htypes1 : a1.types = a.types := ((reads_readSet L.store true v.domain).of_ok h1).types
    have hmore := ((walking_more L.store).bindQuantified more_bind rest).of_ok hrun
    have hdomain := indifferent_objValue v.domain h1 htypes ((hshares.of_more hmore).of_more ((more_bind _ _ _).of_ok h3))
    cases modify_ok.1 h3
    rw [htypes1, ← htypes] at ht
    unfold quantified objSet checked
    simp only [bind_assoc]
    refine oblivious_typed_bind fun t' ht' => ?_
    cases ht.symm.trans ht'
    refine .bind hdomain fun value => ?_
    split
    · exact .throw _
    simp only [pure_bind]
    refine .lift_bind fun sort hsort => ?_
    cases sort with
    | none => simpa only [pure_bind] using hnone
    | some sort =>
      simp only [bind_assoc]
      refine .bind ((comparing_indifferent L).binder sort) fun p => .bind ((comparing_indifferent L).member _ _ _) fun F => ?_
      refine indifferent_quantified params rest hrun ?_ hshares ?_ fun q hq => ?_
      · rw [Scope.types_insert, htypes, htypes1]
      · simpa only [pure_bind] using hnone
      · simp only [pure_bind]
        exact hsome _ hq

theorem indifferent_formulas
    (hfs : ∀ f ∈ fs, ∀ {scope : Scope} {a b : Analysis}, readFormula L.store f a = .ok ((), b) → scope.types = a.types →
      SharesReads L σ σ' b → Indifferent σ σ' (formula L params f scope)) (hrun : readFormulas L.store fs a = .ok ((), b))
    (htypes : scope.types = a.types) (hshares : SharesReads L σ σ' b) :
    Indifferent σ σ' (formulas L params fs scope) := by
  induction fs generalizing a with
  | nil => exact .pure _
  | cons f rest ih =>
    obtain ⟨hf, hfs⟩ := List.forall_mem_cons.1 hfs
    obtain ⟨a1, h1, h2, htypes1, hmore⟩ := readFormulas_cons_ok hrun
    have hrest := ih hfs h2 (htypes.trans htypes1.symm)
    exact .bind (hf h1 htypes (hshares.of_more hmore)) fun _ => .bind hrest fun _ => .pure _

/-- The encoding of a formula is indifferent to what the formula does not read. -/
theorem indifferent_formula (params : List Term) (f : FormulaExpr) {scope : Scope} {a b : Analysis}
    (hrun : readFormula L.store f a = .ok ((), b)) (htypes : scope.types = a.types) (hshares : SharesReads L σ σ' b) :
    Indifferent σ σ' (formula L params f scope) := by
  induction f generalizing scope a b with
  | literal value =>
    cases value with
    | true | false => exact .pure _
    | unknown => exact indifferent_unknown params
  | not f ih => exact .bind (ih hrun htypes hshares) fun _ => .pure _
  | and parts ih | or parts ih | equiv parts ih =>
    exact .bind (indifferent_formulas ih hrun htypes hshares) fun _ => .pure _
  | implies premise conclusion ihp ihc =>
    obtain ⟨⟨⟩, a1, h1, h2⟩ := bind_ok.1 hrun
    have htypes1 : a1.types = a.types := ((reads_readFormula L.store premise).of_ok h1).types
    have hfirst := ihp h1 htypes (hshares.of_more ((more_readFormula L.store conclusion).of_ok h2))
    have hsecond := ihc h2 (htypes.trans htypes1.symm) hshares
    exact .bind hfirst fun _ => .bind hsecond fun _ => .pure _
  | equal sets =>
    obtain ⟨l, a1, h1, h2⟩ := bind_ok.1 hrun
    cases pure_ok.1 h2
    have hsets := (indifferent_objValues sets h1 htypes hshares).2
    exact comparing_equalSets (comparing_indifferent L) scope params fun e he => indifferent_objSet (hsets e he)
  | isIn set within =>
    obtain ⟨l, a1, h1, hrun⟩ := bind_ok.1 hrun
    obtain ⟨l', a2, h2, h3⟩ := bind_ok.1 hrun
    cases pure_ok.1 h3
    have htypes1 : a1.types = a.types := ((reads_readSet L.store true set).of_ok h1).types
    have hset := indifferent_objValue set h1 htypes (hshares.of_more ((more_readSet L.store true within).of_ok h2))
    have hwithin := indifferent_objValue within h2 (htypes.trans htypes1.symm) hshares
    exact comparing_includedSet (comparing_indifferent L) scope params (indifferent_objSet hset) (indifferent_objSet hwithin)
  | isEmpty set =>
    obtain ⟨l, a1, h1, h2⟩ := bind_ok.1 hrun
    cases pure_ok.1 h2
    exact comparing_emptySet (comparing_indifferent L) scope params
      (indifferent_objSet (indifferent_objValue set h1 htypes hshares))
  | forAll qs body ih | forSome qs body ih =>
    obtain ⟨a1, a2, h1, h2, rfl⟩ := readQuantifier_ok hrun
    have hshares2 : SharesReads L σ σ' a2 := hshares
    have hshares1 := hshares2.of_more ((more_readFormula L.store body).of_ok h2)
    exact indifferent_quantified params qs h1 htypes hshares1 (.pure _) fun q hq => .bind (ih h2 hq hshares2) fun _ => .pure _

end Walk

end Encode

/-- For every store and every formula that the effect analysis accepts: encoding the formula from two sessions that are the same
but for the current snapshot, where both snapshots have the same slot for the sort of every domain that the analysis reports as
read, gives the same formula or the same error; and the sessions after it are the same but for the snapshot. -/
theorem unread_slots_irrelevant (store : Store) (f : FormulaExpr) (effects : EffectMap) (heffects : f.effects store = .ok effects)
    (params : List Term) (s : Session) (σ : Snapshot)
    (hshares : ∀ d ∈ effects.reads, ∀ sort, (Layout.ofStore store).1.domainSort d = some sort →
      s.snapshot.slot sort = σ.slot sort) :
    Encode.formula (Layout.ofStore store).1 params f [] { s with snapshot := σ } =
      (Encode.formula (Layout.ofStore store).1 params f [] s).map fun (F, t) => (F, { t with snapshot := σ }) := by
  obtain ⟨⟨⟨⟩, after⟩, hafter, heq⟩ := exceptBind_ok.mp heffects
  cases heq
  change Analysis.readFormula (ofStore store).1.store f ⟨[], [], .empty⟩ = _ at hafter
  have hreads : Encode.SharesReads (ofStore store).1 s.snapshot σ after := fun d hd =>
    hshares d ((EffectMap.mem_domainsWith_normalize after.effects _ d).mpr hd)
  obtain ⟨r, hr⟩ := Encode.indifferent_formula params f hafter (show Scope.types [] = [] from rfl) hreads s
  have hfirst : Encode.formula (ofStore store).1 params f [] s = _ := hr s.snapshot (.inl rfl)
  have hsecond : Encode.formula (ofStore store).1 params f [] { s with snapshot := σ } = _ := hr σ (.inr rfl)
  rw [hfirst, hsecond]
  cases r <;> rfl

namespace Hotel

/-- Every guest has a room. -/
def housed : FormulaExpr := .forAll [⟨"g", .allOf "Guest"⟩] (.not (.isEmpty (.deref (.var "g") "stays")))

/-- What exists is what existed initially, but for the rooms. -/
def rebuilt : Snapshot := (Layout.ofStore store).2.snapshot.link ⟨1⟩ ⟨⟨7⟩, 0⟩

end Hotel

open Hotel

/-- That every guest has a room says nothing about which rooms exist. -/
theorem unread_slots_irrelevant_housed :
    ∃ effects, Hotel.housed.effects Hotel.store = .ok effects ∧
      (∀ d ∈ effects.reads, ∀ sort, (Layout.ofStore Hotel.store).1.domainSort d = some sort →
        (Layout.ofStore Hotel.store).2.snapshot.slot sort = Hotel.rebuilt.slot sort) ∧
      Hotel.rebuilt ≠ (Layout.ofStore Hotel.store).2.snapshot ∧
      ∃ F t, Encode.formula (Layout.ofStore Hotel.store).1 [] Hotel.housed [] (Layout.ofStore Hotel.store).2 = .ok (F, t) ∧
        Encode.formula (Layout.ofStore Hotel.store).1 [] Hotel.housed []
          { (Layout.ofStore Hotel.store).2 with snapshot := Hotel.rebuilt } = .ok (F, { t with snapshot := Hotel.rebuilt }) := by
  obtain ⟨effects, heffects, hreads⟩ := exists_ok_of_any (x := housed.effects Hotel.store)
    (p := fun e => e.reads.all fun d => ((ofStore Hotel.store).1.domainSort d).all fun sort =>
      (ofStore Hotel.store).2.snapshot.slot sort = rebuilt.slot sort) (by decide +kernel)
  obtain ⟨⟨F, t⟩, hrun, -⟩ := exists_ok_of_any
    (x := Encode.formula (ofStore Hotel.store).1 [] housed [] (ofStore Hotel.store).2)
    (p := fun _ => true) (by decide +kernel)
  have hshares : ∀ d ∈ effects.reads, ∀ sort, (ofStore Hotel.store).1.domainSort d = some sort →
      (ofStore Hotel.store).2.snapshot.slot sort = rebuilt.slot sort := by
    intro d hd sort hsort
    have hslot := List.all_eq_true.mp hreads d hd
    simpa only [hsort, Option.all_some, decide_eq_true_eq] using hslot
  refine ⟨effects, heffects, hshares, by decide +kernel, F, t, hrun, ?_⟩
  rw [unread_slots_irrelevant Hotel.store housed effects heffects [] _ _ hshares, hrun]
  rfl

end StoreCheck
