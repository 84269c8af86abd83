import StoreCheck.Proofs.Encoding.Inversion

/-!
# The formulas of each axiom

Which formula each rule of the encoding emits is read off here once, together with the steps that make it: the variables it
takes and the membership formulas it is built from.
-/

namespace StoreCheck

variable {L : Layout} {ts : TupleSort} {s t : Session} {sort : SortId} {hint : String} {scope : Scope} {value v source : ObjValue}
  {p : PredId} {ps params : List Term} {c : ClassId} {o : Term} {new : Slot}

theorem Layout.lookup_of_tupleSort (h : L.tupleSort r = .ok ts) : List.lookup r L.tupleSorts = some ts := by
  unfold Layout.tupleSort at h
  split at h
  · cases h
    assumption
  · cases h

namespace Encode

variable {F : Formula}

/-! ## Primitive steps -/

variable {written : SortId} {before after : Slot} {f : LoopFrame}
variable {order : ChainOrder}

/-- A binder takes the next variable. -/
theorem binder_ok {p : (Binder × Term) × Session} :
    binder sort s = .ok p ↔ p = ((⟨VarGen.nameOf (s.vars.count + 1), sort⟩, .var (VarGen.nameOf (s.vars.count + 1))),
      { s with vars := ⟨s.vars.count + 1⟩ }) := modifyGet_ok

theorem freshPred_ok {extra : List SortId} {p : PredId × Session} :
    freshPred hint extra s = .ok p ↔
      p = (⟨s.symbols.predicates.length⟩, { s with symbols := (s.symbols.addPredicate hint (s.paramSorts ++ extra)).2 }) :=
  modifyGet_ok

theorem freshSlot_ok (h : freshSlot sort s = .ok (slot, t)) :
    ∃ hint, freshPred hint [sort] s = .ok (slot.pred, t) ∧ slot.depth = s.level := by
  unfold freshSlot at h
  rw [get_bind, bind_ok] at h
  obtain ⟨p, s1, h1, h⟩ := h
  obtain ⟨d, s2, h2, h⟩ := bind_ok.1 h
  cases depth_ok.1 h2
  cases pure_ok.1 h
  refine ⟨_, h1, ?_⟩
  cases freshPred_ok.1 h1
  rfl

/-- The variables for the parameters of the session's context. -/
def paramVars (s : Session) : List Binder × List Term := (VarGen.binders s.paramSorts s.vars).1

/-- The session after these variables have been taken. -/
def afterParams (s : Session) : Session := { s with vars := (VarGen.binders s.paramSorts s.vars).2 }

theorem quiet_afterParams (s : Session) : s.Quiet (afterParams s) := quiet_setVars s _ (Fresh.takes_binders _ _)

/-- The axiom that a formula holds at every live position of the session's context where all branches are taken. -/
def axiomAt (s : Session) (body : Formula) : Formula :=
  .mkForAll (paramVars s).1 (.mkImplies
    (.mkAnd [s.contexts.membership s.context (paramVars s).2, guarded s.guards (paramVars s).2]) body)

theorem axiomOver_ok (hbuild : ∀ ps, Keeps Session.Quiet (build ps)) (h : axiomOver build s = .ok ((), t)) :
    ∃ body s1, build (paramVars s).2 (afterParams s) = .ok (body, s1) ∧ emit (axiomAt s body) s1 = .ok ((), t) := by
  obtain ⟨p, s0, h0, h⟩ := bind_ok.1 h
  cases modifyGet_ok.1 h0
  obtain ⟨body, s1, h1, h⟩ := bind_ok.1 h
  rw [get_bind] at h
  have hq := (hbuild _).of_ok h1
  have hcontexts : s1.contexts = s.contexts := hq.table
  have hcontext : s1.context = s.context := hq.context
  have hguards : s1.guards = s.guards := hq.guards
  rw [hcontexts, hcontext, hguards] at h
  exact ⟨body, s1, h1, h⟩

/-! ## Values -/

theorem boundValue_ok {name : String} {s : Session} {p : ObjValue × Session} (h : boundValue scope name s = .ok p) :
    ∃ b, scope.find? name = some b ∧ p = (b.value, s) := by
  unfold boundValue at h
  cases hb : VarMap.find? scope name with
  | some b =>
    rw [hb] at h
    exact ⟨b, rfl, pure_ok.1 h⟩
  | none =>
    rw [hb] at h
    exact (throw_ok.1 h).elim

theorem derefValue_ok {source : ObjExpr} {relation : String} {p : ObjValue × Session}
    (h : derefValue L scope source relation value s = .ok p) :
    ∃ t r ts, infer L.store scope.types source = .ok t ∧ L.store.relationOn t.signature relation = .ok r ∧
      List.lookup r.base L.tupleSorts = some ts ∧ p = (.deref value r.base r.flipped (s.snapshot.slot ts.sort), s) := by
  obtain ⟨t, ht, h⟩ := typedBind_ok.1 h
  obtain ⟨r, hr, h⟩ := typedBind_ok.1 h
  obtain ⟨ts, hts, h⟩ := liftBind_ok.1 h
  exact ⟨t, r, ts, ht, hr, Layout.lookup_of_tupleSort hts, pure_ok.1 h⟩

/-! Inside a formula a set is read off the scope and the snapshot, and the session stays as it is. -/

instance : StepOrder (Eq : Session → Session → Prop) := ⟨fun _ => rfl, Eq.trans⟩

theorem still_objSet (scope : Scope) (e : ObjExpr) : Keeps (Eq : Session → Session → Prop) (objSet L true scope e) :=
  sequential_keeps.checked L scope e (sequential_keeps.objValue (fun _ _ => .bind .get fun _ => .pure _) (by simp) e)

theorem sameMembers_ok (h : sameMembers L sort p v ps s = .ok (F, t)) :
    ∃ b o s1 inValue, binder sort s = .ok ((b, o), s1) ∧ member L v ps o s1 = .ok (inValue, t) ∧
      F = .mkForAll [b] (.mkIff (.atom p (ps ++ [o])) inValue) := by
  obtain ⟨⟨b, o⟩, s1, h1, h⟩ := bind_ok.1 h
  obtain ⟨inValue, s2, h2, h⟩ := bind_ok.1 h
  cases pure_ok.1 h
  exact ⟨b, o, s1, inValue, h1, h2, rfl⟩

theorem someMembers_ok (h : someMembers L sort p source ps s = .ok (F, t)) :
    ∃ b o s1 within, binder sort s = .ok ((b, o), s1) ∧ member L source ps o s1 = .ok (within, t) ∧
      F = .mkForAll [b] (.mkImplies (.atom p (ps ++ [o])) within) := by
  obtain ⟨⟨b, o⟩, s1, h1, h⟩ := bind_ok.1 h
  obtain ⟨within, s2, h2, h⟩ := bind_ok.1 h
  cases pure_ok.1 h
  exact ⟨b, o, s1, within, h1, h2, rfl⟩

theorem oneMember_ok (h : oneMember L sort p source ps s = .ok (F, t)) :
    ∃ b o s1 within s2 b' o' s3 some s4 c y s5 b1 o1 s6 b2 o2, binder sort s = .ok ((b, o), s1) ∧
      member L source ps o s1 = .ok (within, s2) ∧ binder sort s2 = .ok ((b', o'), s3) ∧
      member L source ps o' s3 = .ok (some, s4) ∧ binder sort s4 = .ok ((c, y), s5) ∧ binder sort s5 = .ok ((b1, o1), s6) ∧
      binder sort s6 = .ok ((b2, o2), t) ∧ F = .mkAnd [.mkForAll [b] (.mkImplies (.atom p (ps ++ [o])) within),
        .mkImplies (.mkForSome [b'] some) (.mkForSome [c] (.atom p (ps ++ [y]))),
        .mkForAll [b1, b2] (.mkImplies (.mkAnd [.atom p (ps ++ [o1]), .atom p (ps ++ [o2])]) (.mkEq o1 o2))] := by
  obtain ⟨⟨b, o⟩, s1, h1, h⟩ := bind_ok.1 h
  obtain ⟨within, s2, h2, h⟩ := bind_ok.1 h
  obtain ⟨⟨b', o'⟩, s3, h3, h⟩ := bind_ok.1 h
  obtain ⟨some, s4, h4, h⟩ := bind_ok.1 h
  obtain ⟨⟨c, y⟩, s5, h5, h⟩ := bind_ok.1 h
  obtain ⟨⟨b1, o1⟩, s6, h6, h⟩ := bind_ok.1 h
  obtain ⟨⟨b2, o2⟩, s7, h7, h⟩ := bind_ok.1 h
  cases pure_ok.1 h
  exact ⟨b, o, s1, within, s2, b', o', s3, some, s4, c, y, s5, b1, o1, s6, b2, o2, h1, h2, h3, h4, h5, h6, h7, rfl⟩

theorem define_ok (h : define L hint sort v s = .ok (named, t)) :
    ∃ p s1, freshPred hint [sort] s = .ok (p, s1) ∧ axiomOver (sameMembers L sort p v) s1 = .ok ((), t) ∧
      named = .pred p s1.level := by
  obtain ⟨p, s1, h1, h⟩ := bind_ok.1 h
  obtain ⟨d, s2, h2, h⟩ := bind_ok.1 h
  cases depth_ok.1 h2
  obtain ⟨⟨⟩, s3, h3, h⟩ := bind_ok.1 h
  cases pure_ok.1 h
  exact ⟨p, s1, h1, h3, rfl⟩

/-- A choice among the elements of a set, by an axiom about a new predicate. -/
def chosen (L : Layout) (hint : String) (build : SortId → PredId → List Term → Encode Formula) (type : ObjType) :
    Encode ObjValue := do
  match ← L.sortOf type with
  | none => return .empty
  | some sort =>
    let p ← freshPred hint [sort]
    let d ← depth
    axiomOver (build sort p)
    return .pred p d

theorem chosen_ok (h : chosen L hint build type s = .ok (v, t)) :
    (L.sortOf type = .ok none ∧ v = .empty ∧ t = s) ∨
      ∃ sort p s1, L.sortOf type = .ok (some sort) ∧ freshPred hint [sort] s = .ok (p, s1) ∧
        axiomOver (build sort p) s1 = .ok ((), t) ∧ v = .pred p s1.level := by
  obtain ⟨sort, hsort, h⟩ := liftBind_ok.1 h
  cases sort with
  | none =>
    cases pure_ok.1 h
    exact .inl ⟨hsort, rfl, rfl⟩
  | some sort =>
    obtain ⟨p, s1, h1, h⟩ := bind_ok.1 h
    obtain ⟨d, s2, h2, h⟩ := bind_ok.1 h
    cases depth_ok.1 h2
    obtain ⟨⟨⟩, s3, h3, h⟩ := bind_ok.1 h
    cases pure_ok.1 h
    exact .inr ⟨sort, p, s1, hsort, h1, h3, rfl⟩

/-! ## Updates -/

theorem someCreated_ok (h : someCreated sort p ps s = .ok (F, t)) :
    ∃ b o, binder sort s = .ok ((b, o), t) ∧ F = .mkForSome [b] (.atom p (ps ++ [o])) := by
  obtain ⟨⟨b, o⟩, s1, h1, h⟩ := bind_ok.1 h
  cases pure_ok.1 h
  exact ⟨b, o, h1, rfl⟩

/-- What holds of the object that a creation makes at a position. -/
def creationFacts (L : Layout) (c : ClassId) (s : Session) (ps : List Term) (o : Term) : List Formula :=
  [s.contexts.membership s.context ps, guarded s.guards ps, .mkNot (L.initial.holds (L.classSort c) [] o), L.isClass c o] ++
    (foreignClasses L c).map fun d => .mkNot (L.isClass d o)

theorem creationAxioms_ok (h : creationAxioms L c (L.classSort c) p s = .ok ((), t)) :
    ∃ s1 b o s2 s3 b1 o1 s4 b2 o2 s5, axiomOver (someCreated (L.classSort c) p) s = .ok ((), s1) ∧
      binder (L.classSort c) (afterParams s1) = .ok ((b, o), s2) ∧
      emit (.mkForAll ((paramVars s1).1 ++ [b]) (.mkImplies (.atom p ((paramVars s1).2 ++ [o]))
        (.mkAnd (creationFacts L c s1 (paramVars s1).2 o)))) s2 = .ok ((), s3) ∧
      binder (L.classSort c) s3 = .ok ((b1, o1), s4) ∧ binder (L.classSort c) s4 = .ok ((b2, o2), s5) ∧
      emit (.mkForAll ((paramVars s1).1 ++ [b1, b2]) (.mkImplies
        (.mkAnd [.atom p ((paramVars s1).2 ++ [o1]), .atom p ((paramVars s1).2 ++ [o2])]) (.mkEq o1 o2))) s5 = .ok ((), t) := by
  obtain ⟨⟨⟩, s1, h1, h⟩ := bind_ok.1 h
  obtain ⟨q, s1', h2, h⟩ := bind_ok.1 h
  cases modifyGet_ok.1 h2
  obtain ⟨⟨b, o⟩, s2, h3, h⟩ := bind_ok.1 h
  dsimp only at h
  rw [get_bind, bind_ok] at h
  obtain ⟨⟨⟩, s3, h4, h⟩ := h
  obtain ⟨⟨b1, o1⟩, s4, h5, h⟩ := bind_ok.1 h
  obtain ⟨⟨b2, o2⟩, s5, h6, h⟩ := bind_ok.1 h
  have hplace : s2.contexts = s1.contexts ∧ s2.context = s1.context ∧ s2.guards = s1.guards := by
    cases binder_ok.1 h3
    exact ⟨rfl, rfl, rfl⟩
  rw [hplace.1, hplace.2.1, hplace.2.2] at h4
  exact ⟨s1, b, o, s2, s3, b1, o1, s4, b2, o2, s5, h1, h3, h4, h5, h6, h⟩

theorem createdSlot_ok (h : createdSlot sort before after p ps s = .ok (F, t)) : ∃ b o, binder sort s = .ok ((b, o), t) ∧
      F = .mkForAll [b] (.mkIff (after.holds ps o) (.mkOr [before.holds ps o, .atom p (ps ++ [o])])) := by
  obtain ⟨⟨b, o⟩, s1, h1, h⟩ := bind_ok.1 h
  cases pure_ok.1 h
  exact ⟨b, o, h1, rfl⟩

theorem endKept_ok (h : endKept L value ps isSort o s = .ok (Fs, t)) :
    (isSort = true ∧ ∃ gone, member L value ps o s = .ok (gone, t) ∧ Fs = [.mkNot gone]) ∨
      (isSort = false ∧ Fs = [] ∧ t = s) := by
  cases isSort with
  | true =>
    obtain ⟨gone, s1, h1, h⟩ := bind_ok.1 h
    cases pure_ok.1 h
    exact .inl ⟨rfl, gone, h1, rfl⟩
  | false =>
    cases pure_ok.1 h
    exact .inr ⟨rfl, rfl, rfl⟩

theorem prunedSlot_ok (h : prunedSlot L sort value ts before after ps s = .ok (F, t)) :
    ∃ b o s1 left s2 right, binder ts.sort s = .ok ((b, o), s1) ∧
      endKept L value ps (ts.source = sort) (ts.leftOf o) s1 = .ok (left, s2) ∧
      endKept L value ps (ts.target = sort) (ts.rightOf o) s2 = .ok (right, t) ∧
      F = .mkForAll [b] (.mkIff (after.holds ps o) (.mkAnd (before.holds ps o :: left ++ right))) := by
  obtain ⟨⟨b, o⟩, s1, h1, h⟩ := bind_ok.1 h
  obtain ⟨left, s2, h2, h⟩ := bind_ok.1 h
  obtain ⟨right, s3, h3, h⟩ := bind_ok.1 h
  cases pure_ok.1 h
  exact ⟨b, o, s1, left, s2, right, h1, h2, h3, rfl⟩

theorem deletedSlot_ok (h : deletedSlot L sort value before after ps s = .ok (F, t)) :
    ∃ b o s1 gone, binder sort s = .ok ((b, o), s1) ∧ member L value ps o s1 = .ok (gone, t) ∧
      F = .mkForAll [b] (.mkIff (after.holds ps o) (.mkAnd [before.holds ps o, .mkNot gone])) := by
  obtain ⟨⟨b, o⟩, s1, h1, h⟩ := bind_ok.1 h
  obtain ⟨gone, s2, h2, h⟩ := bind_ok.1 h
  cases pure_ok.1 h
  exact ⟨b, o, s1, gone, h1, h2, rfl⟩

/-- What the slot after an update of tuples holds. -/
def updatedFormula (ts : TupleSort) (update : TupleUpdate) (snapshot : Snapshot) (ps : List Term) (o : Term)
    (inLeft inRight : Formula) : Formula :=
  match update with
  | .remove => .mkAnd [snapshot.holds ts.sort ps o, .mkNot (.mkAnd [inLeft, inRight])]
  | .add => .mkOr [snapshot.holds ts.sort ps o,
      .mkAnd [.mkAnd [inLeft, inRight], snapshot.holds ts.source ps (ts.leftOf o), snapshot.holds ts.target ps (ts.rightOf o)]]

theorem updatedSlot_ok (h : updatedSlot L ts left right update snapshot after ps s = .ok (F, t)) :
    ∃ b o s1 inLeft s2 inRight, binder ts.sort s = .ok ((b, o), s1) ∧ member L left ps (ts.leftOf o) s1 = .ok (inLeft, s2) ∧
      member L right ps (ts.rightOf o) s2 = .ok (inRight, t) ∧
      F = .mkForAll [b] (.mkIff (after.holds ps o) (updatedFormula ts update snapshot ps o inLeft inRight)) := by
  obtain ⟨⟨b, o⟩, s1, h1, h⟩ := bind_ok.1 h
  obtain ⟨inLeft, s2, h2, h⟩ := bind_ok.1 h
  obtain ⟨inRight, s3, h3, h⟩ := bind_ok.1 h
  cases pure_ok.1 h
  exact ⟨b, o, s1, inLeft, s2, inRight, h1, h2, h3, rfl⟩

/-! ## Alternatives -/

theorem takenSlot_ok (h : takenSlot exits sort d merged ps s = .ok (F, t)) :
    ∃ b o, binder sort s = .ok ((b, o), t) ∧ F = .mkForAll [b] (.mkIff (merged.holds ps o)
        (.mkOr (exits.map fun e => .mkAnd [.atom e.indicator (ps.take d), e.snapshot.holds sort ps o]))) := by
  obtain ⟨⟨b, o⟩, s1, h1, h⟩ := bind_ok.1 h
  cases pure_ok.1 h
  exact ⟨b, o, h1, rfl⟩

theorem decided_ok (h : decided L condition taken skipped ps s = .ok (F, t)) :
    ∃ holds, formula L ps condition s.scope s = .ok (holds, t) ∧
      F = .mkAnd [.mkIff (.atom taken ps) holds, .mkIff (.atom skipped ps) (.mkNot holds)] := by
  unfold decided at h
  rw [get_bind, bind_ok] at h
  obtain ⟨holds, s1, h1, h⟩ := h
  cases pure_ok.1 h
  exact ⟨holds, h1, rfl⟩

/-! ## Loops -/

theorem keptOrAdded_ok (h : keptOrAdded f written before after new ps s = .ok (F, t)) :
    ∃ b o s1 b1 it1 s2 b2 it2, binder written s = .ok ((b, o), s1) ∧ binder f.sort s1 = .ok ((b1, it1), s2) ∧
      binder f.sort s2 = .ok ((b2, it2), t) ∧ F = .mkForAll [b] (.mkIff (new.holds ps o) (.mkOr [
        .mkAnd [before.holds ps o, .mkForAll [b1]
          (.mkImplies (s.contexts.membership f.child (ps ++ [it1])) (after.holds (ps ++ [it1]) o))],
        .mkAnd [.mkNot (before.holds ps o), .mkForSome [b2]
          (.mkAnd [s.contexts.membership f.child (ps ++ [it2]), after.holds (ps ++ [it2]) o])]])) := by
  obtain ⟨⟨b, o⟩, s1, h1, h⟩ := bind_ok.1 h
  obtain ⟨⟨b1, it1⟩, s2, h2, h⟩ := bind_ok.1 h
  obtain ⟨⟨b2, it2⟩, s3, h3, h⟩ := bind_ok.1 h
  cases pure_ok.1 h
  have hcontexts : t.contexts = s.contexts := by
    cases binder_ok.1 h1
    cases binder_ok.1 h2
    cases binder_ok.1 h3
    rfl
  exact ⟨b, o, s1, b1, it1, s2, b2, it2, h1, h2, h3, by rw [hcontexts]⟩

theorem threadedSlot_ok (h : threadedSlot f order written before after start ps s = .ok (F, t)) :
    ∃ b o s1 bp p s2 b' o', binder written s = .ok ((b, o), s1) ∧ binder f.sort s1 = .ok ((bp, p), s2) ∧
      binder written s2 = .ok ((b', o'), t) ∧ F = .mkAnd [
        .mkImplies (.atom order.first ps) (.mkForAll [b] (.mkIff (start.holds ps o) (before.holds ps o))),
        .mkForAll [bp] (.mkImplies (.atom order.justBefore (ps.take (ps.length - 1) ++ [p] ++ ps.drop (ps.length - 1)))
          (.mkForAll [b'] (.mkIff (start.holds ps o') (after.holds (ps.take (ps.length - 1) ++ [p]) o'))))] := by
  obtain ⟨⟨b, o⟩, s1, h1, h⟩ := bind_ok.1 h
  obtain ⟨⟨bp, p⟩, s2, h2, h⟩ := bind_ok.1 h
  obtain ⟨⟨b', o'⟩, s3, h3, h⟩ := bind_ok.1 h
  cases pure_ok.1 h
  exact ⟨b, o, s1, bp, p, s2, b', o', h1, h2, h3, rfl⟩

theorem nothingIterated_ok (h : nothingIterated f ps s = .ok (F, t)) : ∃ b it, binder f.sort s = .ok ((b, it), t) ∧
      F = .mkNot (.mkForSome [b] (s.contexts.membership f.child (ps ++ [it]))) := by
  obtain ⟨⟨b, it⟩, s1, h1, h⟩ := bind_ok.1 h
  cases pure_ok.1 h
  have hcontexts : t.contexts = s.contexts := by
    cases binder_ok.1 h1
    rfl
  exact ⟨b, it, h1, by rw [hcontexts]⟩

theorem lastSlot_ok (h : lastSlot f order written before after new ps s = .ok (F, t)) :
    ∃ nothing s1 b o s2 bi it s3 b' o', nothingIterated f ps s = .ok (nothing, s1) ∧ binder written s1 = .ok ((b, o), s2) ∧
      binder f.sort s2 = .ok ((bi, it), s3) ∧ binder written s3 = .ok ((b', o'), t) ∧
      F = .mkAnd [.mkImplies nothing (.mkForAll [b] (.mkIff (new.holds ps o) (before.holds ps o))),
        .mkForAll [bi] (.mkImplies (.atom order.last (ps ++ [it]))
          (.mkForAll [b'] (.mkIff (new.holds ps o') (after.holds (ps ++ [it]) o'))))] := by
  obtain ⟨nothing, s1, h1, h⟩ := bind_ok.1 h
  obtain ⟨⟨b, o⟩, s2, h2, h⟩ := bind_ok.1 h
  obtain ⟨⟨bi, it⟩, s3, h3, h⟩ := bind_ok.1 h
  obtain ⟨⟨b', o'⟩, s4, h4, h⟩ := bind_ok.1 h
  cases pure_ok.1 h
  exact ⟨nothing, s1, b, o, s2, bi, it, s3, b', o', h1, h2, h3, h4, rfl⟩

theorem lastValue_ok {before after : ObjValue} (h : lastValue L f order sort p before after ps s = .ok (F, t)) :
    ∃ nothing s1 b o s2 old s3 bi it s4 b' o' s5 new, nothingIterated f ps s = .ok (nothing, s1) ∧
      binder sort s1 = .ok ((b, o), s2) ∧ member L before ps o s2 = .ok (old, s3) ∧ binder f.sort s3 = .ok ((bi, it), s4) ∧
      binder sort s4 = .ok ((b', o'), s5) ∧ member L after (ps ++ [it]) o' s5 = .ok (new, t) ∧
      F = .mkAnd [.mkImplies nothing (.mkForAll [b] (.mkIff (.atom p (ps ++ [o])) old)),
        .mkForAll [bi] (.mkImplies (.atom order.last (ps ++ [it])) (.mkForAll [b'] (.mkIff (.atom p (ps ++ [o'])) new)))] := by
  obtain ⟨nothing, s1, h1, h⟩ := bind_ok.1 h
  obtain ⟨⟨b, o⟩, s2, h2, h⟩ := bind_ok.1 h
  obtain ⟨old, s3, h3, h⟩ := bind_ok.1 h
  obtain ⟨⟨bi, it⟩, s4, h4, h⟩ := bind_ok.1 h
  obtain ⟨⟨b', o'⟩, s5, h5, h⟩ := bind_ok.1 h
  obtain ⟨new, s6, h6, h⟩ := bind_ok.1 h
  cases pure_ok.1 h
  exact ⟨nothing, s1, b, o, s2, old, s3, bi, it, s4, b', o', s5, new, h1, h2, h3, h4, h5, h6, rfl⟩

/-! ## Parameters, creations and final slots -/

theorem paramAxioms_ok (h : paramAxioms L c bounds pred s = .ok ((), t)) :
    ∃ b o s1 s2 lower s3 s4, binder (L.classSort c) s = .ok ((b, o), s1) ∧
      emit (.mkForAll [b] (.mkImplies (.atom pred [o]) (.mkAnd [L.initial.holds (L.classSort c) [] o, L.isClass c o]))) s1 =
        .ok ((), s2) ∧
      fresh (Counting.atLeast bounds.lower.toNat (L.classSort c) fun o => .atom pred [o]) s2 = .ok (lower, s3) ∧
      emit lower s3 = .ok ((), s4) ∧
      ((bounds.upper = none ∧ t = s4) ∨ ∃ upper most s5, bounds.upper = some upper ∧
        fresh (Counting.atMost upper.toNat (L.classSort c) fun o => .atom pred [o]) s4 = .ok (most, s5) ∧
        emit most s5 = .ok ((), t)) := by
  obtain ⟨⟨b, o⟩, s1, h1, h⟩ := bind_ok.1 h
  obtain ⟨⟨⟩, s2, h2, h⟩ := bind_ok.1 h
  obtain ⟨lower, s3, h3, h⟩ := bind_ok.1 h
  obtain ⟨⟨⟩, s4, h4, h⟩ := bind_ok.1 h
  refine ⟨b, o, s1, s2, lower, s3, s4, h1, h2, h3, h4, ?_⟩
  cases hu : bounds.upper with
  | none =>
    simp only [hu] at h
    exact .inl ⟨rfl, congrArg Prod.snd (pure_ok.1 h)⟩
  | some upper =>
    simp only [hu] at h
    obtain ⟨most, s5, h5, h⟩ := bind_ok.1 h
    exact .inr ⟨upper, most, s5, rfl, h5, h⟩

theorem createdOnce_ok {c : Creation} (h : createdOnce sort c s = .ok ((), t)) : (c.params = [] ∧ t = s) ∨
      ∃ b1 p1 s1 b2 p2 s2 b o s3, fresh (VarGen.binders c.params) s = .ok ((b1, p1), s1) ∧
        fresh (VarGen.binders c.params) s1 = .ok ((b2, p2), s2) ∧ binder sort s2 = .ok ((b, o), s3) ∧
        emit (.mkForAll (b1 ++ b2 ++ [b]) (.mkImplies (.mkAnd [createdAt c p1 o, createdAt c p2 o])
          (.mkAnd ((p1.zip p2).map fun (x, y) => Formula.mkEq x y)))) s3 = .ok ((), t) := by
  unfold createdOnce at h
  split at h
  · rename_i hempty
    exact .inl ⟨List.isEmpty_iff.1 hempty, congrArg Prod.snd (pure_ok.1 h)⟩
  · obtain ⟨⟨b1, p1⟩, s1, h1, h⟩ := bind_ok.1 h
    obtain ⟨⟨b2, p2⟩, s2, h2, h⟩ := bind_ok.1 h
    obtain ⟨⟨b, o⟩, s3, h3, h⟩ := bind_ok.1 h
    exact .inr ⟨b1, p1, s1, b2, p2, s2, b, o, s3, h1, h2, h3, h⟩

theorem createdApart_ok {c : Creation} (h : createdApart sort c d s = .ok ((), t)) :
    ∃ b1 p1 s1 b2 p2 s2 b o s3, fresh (VarGen.binders c.params) s = .ok ((b1, p1), s1) ∧
      fresh (VarGen.binders d.params) s1 = .ok ((b2, p2), s2) ∧ binder sort s2 = .ok ((b, o), s3) ∧
      emit (.mkForAll (b1 ++ b2 ++ [b]) (.mkNot (.mkAnd [createdAt c p1 o, createdAt d p2 o]))) s3 = .ok ((), t) := by
  obtain ⟨⟨b1, p1⟩, s1, h1, h⟩ := bind_ok.1 h
  obtain ⟨⟨b2, p2⟩, s2, h2, h⟩ := bind_ok.1 h
  obtain ⟨⟨b, o⟩, s3, h3, h⟩ := bind_ok.1 h
  exact ⟨b1, p1, s1, b2, p2, s2, b, o, s3, h1, h2, h3, h⟩

theorem finalSlot_ok (h : finalSlot sort s = .ok ((), t)) :
    ∃ hint p s1 b o s2, rootPred hint sort s = .ok (p, s1) ∧ binder sort s1 = .ok ((b, o), s2) ∧
      emit (.mkForAll [b] (.mkIff (.atom p [o]) (s.snapshot.holds sort [] o))) s2 = .ok ((), t) := by
  unfold finalSlot at h
  rw [get_bind, bind_ok] at h
  obtain ⟨p, s1, h1, h⟩ := h
  obtain ⟨⟨b, o⟩, s2, h2, h⟩ := bind_ok.1 h
  dsimp only at h
  rw [get_bind] at h
  have hsnapshot : s2.snapshot = s.snapshot := ((quiet.binder sort).of_ok h2).snapshot.trans ((quiet_rootPred _ _).of_ok h1).snapshot
  rw [hsnapshot] at h
  exact ⟨_, p, s1, b, o, s2, h1, h2, h⟩

/-! ## Conditions -/

theorem comparable_cons_ok (h : comparable L scope (e :: rest) joined s = .ok ((vs, joined'), t)) :
    ∃ v type s1 next vs', objSet L true scope e s = .ok ((v, type), s1) ∧
      (joined = none ∧ next = type ∨ ∃ before, joined = some before ∧ before.join L.graph type = .ok next) ∧
      comparable L scope rest (some next) s1 = .ok ((vs', joined'), t) ∧ vs = v :: vs' := by
  obtain ⟨⟨v, type⟩, s1, h1, h⟩ := bind_ok.1 h
  cases joined with
  | none =>
    obtain ⟨next, s2, h2, h⟩ := bind_ok.1 h
    cases pure_ok.1 h2
    obtain ⟨⟨vs', joined''⟩, s3, h3, h⟩ := bind_ok.1 h
    cases pure_ok.1 h
    exact ⟨v, type, s1, type, vs', h1, .inl ⟨rfl, rfl⟩, h3, rfl⟩
  | some before =>
    obtain ⟨next, hnext, h⟩ := typedBind_ok.1 h
    obtain ⟨⟨vs', joined''⟩, s3, h3, h⟩ := bind_ok.1 h
    cases pure_ok.1 h
    exact ⟨v, type, s1, next, vs', h1, .inr ⟨before, rfl, hnext⟩, h3, rfl⟩

/-- The first variable of a quantifier, then the rest in its scope. -/
theorem quantified_cons_ok {v : QuantVar} (h : quantified L params (v :: rest) scope s = .ok (r, t)) :
    ∃ value type s1 a, objSet L true scope v.domain s = .ok ((value, type), s1) ∧ L.sortOf type = .ok a ∧
      (a = none → r = none ∧ t = s1) ∧
      ∀ sort, a = some sort → ∃ inDomain s2 r',
        member L value params (.var (VarGen.nameOf (s1.vars.count + 1))) { s1 with vars := ⟨s1.vars.count + 1⟩ } =
          .ok (inDomain, s2) ∧
        quantified L params rest
          (scope.insert v.name ⟨.bound (.var (VarGen.nameOf (s1.vars.count + 1))), type.single, false⟩) s2 = .ok (r', t) ∧
        r = r'.map fun q => { q with
          binders := ⟨VarGen.nameOf (s1.vars.count + 1), sort⟩ :: q.binders, members := inDomain :: q.members } := by
  obtain ⟨⟨value, type⟩, s1, h1, h⟩ := bind_ok.1 h
  obtain ⟨a, ha, h⟩ := liftBind_ok.1 h
  refine ⟨value, type, s1, a, h1, ha, fun hnone => ?_, fun sort hsome => ?_⟩
  · subst hnone
    cases pure_ok.1 h
    exact ⟨rfl, rfl⟩
  · subst hsome
    obtain ⟨⟨b, o⟩, s3, h3, h⟩ := bind_ok.1 h
    cases binder_ok.1 h3
    obtain ⟨inDomain, s4, h4, h⟩ := bind_ok.1 h
    obtain ⟨r', s5, h5, h⟩ := bind_ok.1 h
    refine ⟨inDomain, s4, r', h4, ?_⟩
    cases r' with
    | none =>
      cases pure_ok.1 h
      exact ⟨h5, rfl⟩
    | some q =>
      cases pure_ok.1 h
      exact ⟨h5, rfl⟩

/-- Each of the formulas compares the element of the first value with that of another one. -/
theorem mapM_mkIff_member : ∀ (vs : List ObjValue) {s t : Session} {fs : List Formula},
    (vs.mapM fun v => do return Formula.mkIff head (← member L v params o)) s = .ok (fs, t) →
      s.Quiet t ∧ List.Forall₂ (fun v f => ∃ s1 s2 G, s.Quiet s1 ∧ member L v params o s1 = .ok (G, s2) ∧
        f = Formula.mkIff head G) vs fs
  | [], _, _, _, h => by
    cases mapM_nil_ok.1 h
    exact ⟨.refl _, .nil⟩
  | v :: rest, s, _, _, h => by
    obtain ⟨f, s1, h1, fs', t', h2, heq⟩ := mapM_cons_ok.1 h
    cases heq
    obtain ⟨G, s2, h3, h1⟩ := bind_ok.1 h1
    cases pure_ok.1 h1
    have hq := quiet_member L v params o _ _ _ h3
    obtain ⟨hq', hall⟩ := mapM_mkIff_member rest h2
    refine ⟨hq.trans hq', .cons ⟨s, _, G, .refl s, h3, rfl⟩ (hall.imp ?_)⟩
    rintro v f ⟨s3, s4, G, hq3, hrun, rfl⟩
    exact ⟨s3, s4, G, hq.trans hq3, hrun, rfl⟩

end Encode

end StoreCheck
