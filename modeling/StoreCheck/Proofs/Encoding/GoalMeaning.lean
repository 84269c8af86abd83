import StoreCheck.Proofs.Encoding.LoopMeaning
import StoreCheck.Proofs.Encoding.Walk

/-!
# What the axioms around an action say

Before an action come the base axioms on classes and tuples (`holds_baseAxioms`), after it the axioms that all created objects
are different (`obeys_distinctAxioms`) and the definitions of what exists finally (`obeys_finalSlot`).
-/

namespace StoreCheck

open List Formula VarGen Session

variable {s t : Session} {sort : SortId} {c : Creation} {cs : List Creation}

variable {M : Structure} {L : Layout}

/-! ## Base axioms -/

/-- What a property says of each result of a list of computations. -/
theorem Fresh.forall_mem_mapM_iff {α β : Type} {P : β → Prop} {Q : α → Prop} {f : α → Fresh β} : ∀ (l : List α) (g : VarGen),
    (∀ a ∈ l, ∀ g, P (f a g).1 ↔ Q a) → ((∀ b ∈ ((l.mapM f : Fresh (List β)) g).1, P b) ↔ ∀ a ∈ l, Q a)
  | [], _, _ => by
    rw [mapM_nil, Layout.pure_run]
    simp
  | a :: rest, g, h => by
    rw [Layout.mapM_cons_run, forall_mem_cons, forall_mem_cons, h a (by simp),
      forall_mem_mapM_iff rest (f a g).2 fun a ha => h a (by simp [ha])]

/-- What the axioms say of the tuples of a base relation: their ends are of the classes of the relation, there is exactly one
between any two objects of these classes, and it exists initially only if its ends do. -/
@[mk_iff]
structure TupleSort.Joins (ts : TupleSort) (M : Structure) (L : Layout) (r : Relation) : Prop where
  typed : ∀ t, M.sort t = ts.sort → L.IsOf M r.source (ts.Left M t) ∧ L.IsOf M r.target (ts.Right M t)
  determined : ∀ t, M.sort t = ts.sort → ∀ u, M.sort u = ts.sort →
    ts.Left M t = ts.Left M u → ts.Right M t = ts.Right M u → t = u
  total : ∀ x, M.sort x = ts.source → ∀ y, M.sort y = ts.target → L.IsOf M r.source x → L.IsOf M r.target y →
    ∃ t, M.sort t = ts.sort ∧ ts.Left M t = x ∧ ts.Right M t = y
  ends : ∀ t, M.sort t = ts.sort → (L.initial.slot ts.sort).At M [] t →
    (L.initial.slot ts.source).At M [] (ts.Left M t) ∧ (L.initial.slot ts.target).At M [] (ts.Right M t)

/-- What the base axioms say. -/
structure Layout.Founds (L : Layout) (M : Structure) : Prop where
  inherits : ∀ c ∈ L.graph.ids, ∀ parent ∈ L.graph.parentsOf c, ∀ e, M.sort e = L.classSort c →
    L.IsOf M c e → L.IsOf M parent e
  joins : ∀ r ∈ L.store.baseRelations, ∀ ts, List.lookup r.id L.tupleSorts = some ts → ts.Joins M L r

namespace Layout

theorem holds_subclassAxioms (c : ClassId) (g : VarGen) :
    (∀ F ∈ (L.subclassAxioms c g).1, F.Holds M ρ) ↔
      ∀ parent ∈ L.graph.parentsOf c, ∀ e, M.sort e = L.classSort c → L.IsOf M c e → L.IsOf M parent e := by
  refine Fresh.forall_mem_mapM_iff _ g fun parent _ g => ?_
  show (mkForAll [⟨nameOf (g.count + 1), L.classSort c⟩] (.mkImplies
    (L.isClass c (.var (nameOf (g.count + 1)))) (L.isClass parent (.var (nameOf (g.count + 1)))))).Holds M ρ ↔ _
  simp [Structure.ForAll]

theorem holds_tupleAxioms (r : Relation) (ts : TupleSort) (g : VarGen) :
    (∀ F ∈ (L.tupleAxioms r ts g).1, F.Holds M ρ) ↔ ts.Joins M L r := by
  have hrun : (L.tupleAxioms r ts g).1 =
      let v (i : Nat) : Term := .var (nameOf (g.count + i))
      let b (i : Nat) (sort : SortId) : Binder := ⟨nameOf (g.count + i), sort⟩
      [mkForAll [b 1 ts.sort] (.mkAnd [L.isClass r.source (ts.leftOf (v 1)), L.isClass r.target (ts.rightOf (v 1))]),
        .mkForAll [b 2 ts.sort, b 3 ts.sort] (.mkImplies
          (.mkAnd [.mkEq (ts.leftOf (v 2)) (ts.leftOf (v 3)), .mkEq (ts.rightOf (v 2)) (ts.rightOf (v 3))])
          (.mkEq (v 2) (v 3))),
        .mkForAll [b 4 ts.source, b 5 ts.target] (.mkImplies
          (.mkAnd [L.isClass r.source (v 4), L.isClass r.target (v 5)])
          (.mkForSome [b 6 ts.sort] (.mkAnd [.mkEq (ts.leftOf (v 6)) (v 4), .mkEq (ts.rightOf (v 6)) (v 5)]))),
        .mkForAll [b 7 ts.sort] (.mkImplies (L.initial.holds ts.sort [] (v 7))
          (.mkAnd [L.initial.holds ts.source [] (ts.leftOf (v 7)), L.initial.holds ts.target [] (ts.rightOf (v 7))]))] := rfl
  rw [hrun]
  simp (disch := omega) only [mem_cons, not_mem_nil, or_false, forall_eq_or_imp, forall_eq, holds_mkForAll,
    holds_mkForSome, Structure.ForAll, Structure.ForSome, holds_mkImplies, holds_mkAnd,
    holds_mkEq, holds_isClass, Snapshot.holds, Slot.holds_holds, TupleSort.eval_leftOf, TupleSort.eval_rightOf,
    map_nil, Term.eval, Valuation.set_same, Encode.set_nameOf_other, and_imp]
  exact (TupleSort.joins_iff ..).symm

theorem holds_baseAxioms (g : VarGen) : (∀ F ∈ (L.baseAxioms g).1, F.Holds M ρ) ↔ L.Founds M := by
  have hfilter : ∀ Fs : List Formula, (∀ F ∈ Fs.filter (!·.isTop), F.Holds M ρ) ↔ ∀ F ∈ Fs, F.Holds M ρ := by
    intro Fs
    refine ⟨fun h F hF => ?_, fun h F hF => h F (mem_filter.1 hF).1⟩
    cases htop : F.isTop with
    | true =>
      rw [(isTop_iff F).1 htop, Formula.Holds]
      trivial
    | false => exact h F (mem_filter.2 ⟨hF, by simp [htop]⟩)
  have hflatten : ∀ Fss : List (List Formula), (∀ F ∈ Fss.flatten, F.Holds M ρ) ↔ ∀ Fs ∈ Fss, ∀ F ∈ Fs, F.Holds M ρ := by
    intro Fss
    simp only [mem_flatten, forall_exists_index, and_imp]
    exact ⟨fun h Fs hFs F hF => h F Fs hFs hF, fun h F Fs hFs hF => h Fs hFs F hF⟩
  refine (hfilter _).trans ?_
  simp only [mem_append, or_imp, forall_and]
  rw [hflatten, hflatten]
  refine (and_congr (Fresh.forall_mem_mapM_iff _ g fun c _ g => holds_subclassAxioms c g)
    (Fresh.forall_mem_mapM_iff (Q := fun r => ∀ ts, List.lookup r.id L.tupleSorts = some ts → ts.Joins M L r) _ _
      fun r _ g => ?_)).trans ⟨fun h => ⟨h.1, h.2⟩, fun h => ⟨h.inherits, h.joins⟩⟩
  cases hts : List.lookup r.id L.tupleSorts with
  | none => simp [Layout.pure_run]
  | some ts =>
    simp only [Option.some.injEq, forall_eq']
    exact holds_tupleAxioms r ts g

/-- A structure obeys the axioms of the session that a store starts exactly when it does what the base axioms say. -/
theorem obeys_start (store : Store) :
    M.Obeys ρ (Layout.ofStore store).2 ↔ (Layout.ofStore store).1.Founds M := holds_baseAxioms ⟨0⟩

end Layout

/-! ## Creations -/

/-- The creation makes the element at the position. -/
def Creation.Makes (c : Creation) (M : Structure) (es : List M.Elem) (e : M.Elem) : Prop :=
  es.map M.sort = c.params ∧ M.sort e = c.sort ∧ M.pred c.pred (es ++ [e])

namespace Encode

/-- A formula over two groups of variables and one more, taken after each other, is said of all elements of their sorts. -/
theorem obeys_forGroups {b1 b2 : List Binder} {p1 p2 : List Term} {b : Binder} {o : Term} {s1 s2 s3 : Session} {G : Formula}
    {P : List M.Elem → List M.Elem → M.Elem → Prop} (h1 : fresh (binders sorts) s = .ok ((b1, p1), s1))
    (h2 : fresh (binders sorts') s1 = .ok ((b2, p2), s2)) (h3 : binder sort s2 = .ok ((b, o), s3))
    (h4 : emit (.mkForAll (b1 ++ b2 ++ [b]) G) s3 = .ok ((), t))
    (hG : ∀ (ρ' : M.Env) es es' e, es.map M.sort = sorts → es'.map M.sort = sorts' → p1.map (Term.eval M ρ') = es →
      p2.map (Term.eval M ρ') = es' → o.eval M ρ' = e → (G.Holds M ρ' ↔ P es es' e)) :
    M.Obeys ρ t ↔ M.Obeys ρ s ∧ ∀ es, es.map M.sort = sorts → ∀ es', es'.map M.sort = sorts' → ∀ e, M.sort e = sort →
      P es es' e := by
  rw [obeys_emit h4, Structure.obeys_congr ((axioms_binder h3).trans ((axioms_fresh h2).trans (axioms_fresh h1)))]
  refine and_congr_right fun _ => ?_
  obtain ⟨hp1, rfl⟩ := fresh_ok h1
  obtain ⟨hp2, rfl⟩ := fresh_ok h2
  cases binder_ok.1 h3
  obtain ⟨rfl, rfl⟩ := Prod.mk.inj hp1
  obtain ⟨rfl, rfl⟩ := Prod.mk.inj hp2
  have hfirst := allSettled_binders sorts s.vars
  have hle := Fresh.takes_binders sorts' (binders sorts s.vars).2
  simp only [holds_mkForAll, Structure.forAll_append, forAll_binders]
  refine forall₂_congr fun es hes => forall₂_congr fun es' hes' => forall₂_congr fun e _ => ?_
  refine hG _ es es' e hes hes' ?_ ?_ (eval_var_set _ _ e)
  · refine (position_set (hfirst.mono hle) (Nat.lt_succ_self _) _ _).trans ?_
    exact (Term.map_eval_agree (Valuation.agree_setFrom es' _ _) hfirst).trans
      (eval_binders sorts s.vars ρ es (by rw [← hes, length_map]))
  · refine (position_set (allSettled_binders sorts' _) (Nat.lt_succ_self _) _ _).trans ?_
    exact eval_binders sorts' _ _ es' (by rw [← hes', length_map])

theorem holds_allEqual {ps qs : List Term} (hps : ps.map (Term.eval M ρ) = es) (hqs : qs.map (Term.eval M ρ) = es')
    (hlength : es.length = es'.length) :
    (mkAnd ((ps.zip qs).map fun (x, y) => mkEq x y)).Holds M ρ ↔ es = es' := by
  subst hps hqs
  rw [holds_mkAnd]
  induction ps generalizing qs with
  | nil =>
    cases qs with
    | nil => simp
    | cons q qs => simp at hlength
  | cons p ps ih =>
    cases qs with
    | nil => simp at hlength
    | cons q qs =>
      have := ih (by simpa using hlength)
      simp only [zip_cons_cons, map_cons, forall_mem_cons, holds_mkEq, List.cons.injEq, this]

theorem obeys_createdOnce (hrun : createdOnce sort c s = .ok ((), t)) :
    M.Obeys ρ t ↔ M.Obeys ρ s ∧ ∀ es, es.map M.sort = c.params → ∀ es', es'.map M.sort = c.params → ∀ e, M.sort e = sort →
      M.pred c.pred (es ++ [e]) → M.pred c.pred (es' ++ [e]) → es = es' := by
  obtain ⟨hnil, rfl⟩ | ⟨b1, p1, s1, b2, p2, s2, b, o, s3, h1, h2, h3, h4⟩ := createdOnce_ok hrun
  · simp only [hnil, map_eq_nil_iff, iff_self_and]
    rintro - es rfl es' rfl e - - -
    rfl
  · refine obeys_forGroups h1 h2 h3 h4 fun ρ' es es' e hes hes' hfirst hsecond ho => ?_
    rw [holds_mkImplies, holds_allEqual hfirst hsecond (by
      rw [← length_map (f := M.sort), hes, ← hes', length_map])]
    simp [createdAt, hfirst, hsecond, ho]

theorem obeys_createdApart {d : Creation} (hrun : createdApart sort c d s = .ok ((), t)) :
    M.Obeys ρ t ↔ M.Obeys ρ s ∧ ∀ es, es.map M.sort = c.params → ∀ es', es'.map M.sort = d.params → ∀ e, M.sort e = sort →
      ¬ (M.pred c.pred (es ++ [e]) ∧ M.pred d.pred (es' ++ [e])) := by
  obtain ⟨b1, p1, s1, b2, p2, s2, b, o, s3, h1, h2, h3, h4⟩ := createdApart_ok hrun
  exact obeys_forGroups h1 h2 h3 h4 fun ρ' es es' e _ _ hfirst hsecond ho => by simp [createdAt, hfirst, hsecond, ho]

/-- The creations make different elements at different positions, and none makes an element of another one. -/
structure Apart (M : Structure) (cs : List Creation) : Prop where
  once : ∀ c ∈ cs, ∀ es es' e, c.Makes M es e → c.Makes M es' e → es = es'
  apart : cs.Pairwise fun c d => ∀ es es' e, c.Makes M es e → ¬ d.Makes M es' e

theorem apart_cons : Apart M (c :: cs) ↔ (∀ es es' e, c.Makes M es e → c.Makes M es' e → es = es') ∧
      (∀ d ∈ cs, ∀ es es' e, c.Makes M es e → ¬ d.Makes M es' e) ∧ Apart M cs := by
  constructor
  · rintro ⟨honce, hapart⟩
    obtain ⟨hhead, hrest⟩ := pairwise_cons.1 hapart
    exact ⟨honce c (by simp), hhead, fun d hd => honce d (by simp [hd]), hrest⟩
  · rintro ⟨hc, hhead, honce, hapart⟩
    exact ⟨forall_mem_cons.2 ⟨hc, honce⟩, pairwise_cons.2 ⟨hhead, hapart⟩⟩

theorem obeys_distinctCreations (hsorts : ∀ c ∈ cs, c.sort = sort) (hrun : distinctCreations sort cs s = .ok ((), t)) :
    M.Obeys ρ t ↔ M.Obeys ρ s ∧ Apart M cs := by
  induction cs generalizing s with
  | nil =>
    cases pure_ok.1 hrun
    exact ⟨fun h => ⟨h, by simp, .nil⟩, fun h => h.1⟩
  | cons c rest ih =>
    obtain ⟨⟨⟩, s1, h1, hrun⟩ := bind_ok.1 hrun
    obtain ⟨⟨⟩, s2, h2, h3⟩ := bind_ok.1 hrun
    obtain ⟨rfl, hrest⟩ := forall_mem_cons.1 hsorts
    have haparts := obeys_forM (M := M) (ρ := ρ) (fun d _ s' t' (h : createdApart c.sort c d s' = .ok ((), t')) =>
      obeys_createdApart h) h2
    rw [ih hrest h3, haparts, obeys_createdOnce h1, apart_cons, and_assoc, and_assoc]
    refine and_congr_right fun _ => and_congr ?_ (and_congr_left fun _ => forall₂_congr fun d hd => ?_)
    · constructor
      · rintro h es es' e ⟨hes, he, hp⟩ ⟨hes', -, hp'⟩
        exact h es hes es' hes' e he hp hp'
      · intro h es hes es' hes' e he hp hp'
        exact h es es' e ⟨hes, he, hp⟩ ⟨hes', he, hp'⟩
    · constructor
      · rintro h es es' e ⟨hes, he, hp⟩ ⟨hes', -, hp'⟩
        exact h es hes es' hes' e he ⟨hp, hp'⟩
      · rintro h es hes es' hes' e he ⟨hp, hp'⟩
        exact h es es' e ⟨hes, he, hp⟩ ⟨hes', he.trans (hrest d hd).symm, hp'⟩

/-- The creations of each sort make different elements. -/
theorem obeys_distinctAxioms (hrun : distinctAxioms L s = .ok ((), t)) :
    M.Obeys ρ t ↔ M.Obeys ρ s ∧ ∀ sort ∈ L.sorts, Apart M (s.creations.filter fun c => c.sort = sort) := by
  refine obeys_forM (fun sort _ s' t' h => obeys_distinctCreations (fun c hc => ?_) h) hrun
  exact of_decide_eq_true (mem_filter.1 hc).2

theorem axioms_rootPred (h : rootPred hint sort s = .ok (p, t)) : t.axioms = s.axioms := by
  cases modifyGet_ok.1 h
  rfl

/-- The predicate of the final state, which is the next one, says what the slot at the end does. -/
theorem obeys_finalSlot (hrun : finalSlot sort s = .ok ((), t)) :
    t.symbols.predicates.length = s.symbols.predicates.length + 1 ∧ (M.Obeys ρ t ↔ M.Obeys ρ s ∧
      ∀ e, M.sort e = sort → (M.pred ⟨s.symbols.predicates.length⟩ [e] ↔ (s.snapshot.slot sort).At M [] e)) := by
  obtain ⟨hint, p, s1, b, o, s2, h1, h2, h3⟩ := finalSlot_ok hrun
  have haxioms : s2.axioms = s.axioms := (axioms_binder h2).trans (axioms_rootPred h1)
  have hsymbols : t.symbols = s2.symbols := by
    have ht := congrArg (fun p : Unit × Session => p.2.symbols) (emit_ok.1 h3)
    rw [show t.symbols = _ from ht]
    split <;> rfl
  cases modifyGet_ok.1 h1
  cases binder_ok.1 h2
  refine ⟨by simp [hsymbols], ?_⟩
  rw [obeys_emit h3, Structure.obeys_congr haxioms]
  simp [Structure.ForAll, Snapshot.holds]

/-- The predicates of the final state, in the order of the sorts. -/
theorem obeys_finalSlots : ∀ {sorts : List SortId} {s : Session}, sorts.forM finalSlot s = .ok ((), t) → M.Obeys ρ t →
    ∀ (i : Nat) (sort : SortId), sorts[i]? = some sort → ∀ e, M.sort e = sort →
      (M.pred ⟨s.symbols.predicates.length + i⟩ [e] ↔ (s.snapshot.slot sort).At M [] e)
  | [], _, _, _, _, _, hsort => by cases hsort
  | first :: rest, s, hrun, hM, i, sort, hsort => by
    obtain ⟨s1, h1, h2⟩ := forM_cons_ok.1 hrun
    obtain ⟨hlength, hobeys⟩ := obeys_finalSlot (M := M) (ρ := ρ) h1
    have hM1 := hM.of_grows ((Keeps.forM (fun _ => quiet.finalSlot) rest).of_ok h2).axioms
    cases i with
    | zero =>
      cases hsort
      exact (hobeys.1 hM1).2
    | succ i =>
      have hrest := obeys_finalSlots h2 hM i sort hsort
      rw [hlength, (quiet.finalSlot.of_ok h1).snapshot] at hrest
      rw [show s.symbols.predicates.length + (i + 1) = s.symbols.predicates.length + 1 + i by omega]
      exact hrest

end Encode

/-! ## Stages of a goal -/

/-- Outside all loops and branches an action runs, once. -/
theorem Layout.runs_of_grows {store : Store} (h : (Layout.ofStore store).2.Grows s) (es : List M.Elem) :
    s.Runs M es ↔ es = [] := by
  have hcontext : s.contexts.get s.context = .root := by
    obtain ⟨others, hothers⟩ := h.contexts
    rw [h.context, Contexts.get, ← hothers]
    rfl
  have hsorts : s.paramSorts = [] := by rw [paramSorts, hcontext]; rfl
  constructor
  · intro hes
    exact map_eq_nil_iff.1 (hes.sorts.trans hsorts)
  · rintro rfl
    refine ⟨hsorts.symm, ?_, ?_⟩
    · intro p hp
      rw [hcontext] at hp
      cases hp
    · rw [h.guards]
      exact fun g hg => absurd hg not_mem_nil

/-- The stages of the encoding of an action: after the parameters, after the block, and after each of the two ends. -/
structure Stages (store : Store) (a : Action) where
  entered : Session
  walked : Session
  distinguished : Session
  final : Session
  params : a.params.forM (Encode.param (Layout.ofStore store).1) (Layout.ofStore store).2 = .ok ((), entered)
  block : Encode.block (Layout.ofStore store).1 a.block entered = .ok ((), walked)
  distinct : Encode.distinctAxioms (Layout.ofStore store).1 walked = .ok ((), distinguished)
  finals : (Layout.ofStore store).1.sorts.forM Encode.finalSlot distinguished = .ok ((), final)

namespace Stages

variable {store : Store} {a : Action} (stages : Stages store a)

theorem grows_entered : (Layout.ofStore store).2.Grows stages.entered :=
  (Keeps.forM (fun p => Encode.grows_param p) a.params).of_ok stages.params

theorem extends_walked : stages.walked.Extends stages.final :=
  (((Encode.quiet.distinctAxioms).of_ok stages.distinct).trans
    ((Keeps.forM (fun _ => Encode.quiet.finalSlot) _).of_ok stages.finals)).toGrows.extends

theorem extends_final : (Layout.ofStore store).2.Extends stages.final :=
  (stages.grows_entered.trans ((Encode.grows_block _ a.block).of_ok stages.block)).extends.trans stages.extends_walked

/-- The predicate of what exists finally of a sort. -/
def finalPred (sort : SortId) : PredId := ⟨stages.distinguished.symbols.predicates.length + sort.index⟩

/-- What exists finally is what the slot at the end of the action holds. -/
theorem finalPred_iff {M : Structure} {ρ : M.Env} (hM : M.Obeys ρ stages.final) (hsort : sort ∈ (Layout.ofStore store).1.sorts)
    {e : M.Elem} (he : M.sort e = sort) :
    M.pred (stages.finalPred sort) [e] ↔ (stages.walked.snapshot.slot sort).At M [] e := by
  obtain ⟨i, hi, rfl⟩ := mem_map.1 hsort
  have hget : (Layout.ofStore store).1.sorts[i]? = some ⟨i⟩ := by
    rw [Layout.sorts, Snapshot.sorts, getElem?_map, getElem?_range (mem_range.1 hi)]
    rfl
  have hfinal := Encode.obeys_finalSlots stages.finals hM i ⟨i⟩ hget e he
  rwa [((Encode.quiet.distinctAxioms).of_ok stages.distinct).snapshot] at hfinal

/-- Where the theory of a goal was made, the stages of its action have been passed, and its models obey the axioms of all of
them. -/
theorem of_models {M : Structure} (htheory : preservationTheory store a assumed checked name = .ok theory) (hM : M.Models theory) :
    ∃ stages : Stages store a, M.Fits (Layout.ofStore store).2.symbols ∧ ∀ ρ, M.Obeys ρ stages.final := by
  obtain ⟨effects, F, final, -, hrun, rfl⟩ := preservationTheory_ok htheory
  obtain ⟨s1, s2, Fs, Gs, haction, hassumed, hchecked, rfl⟩ := Encode.preservation_ok hrun
  obtain ⟨s0, s0', hwalk, hdistinct, hfinal⟩ := Encode.action_ok haction
  obtain ⟨⟨⟩, entered, hparams, hblock⟩ := bind_ok.1 hwalk
  have hq := ((Encode.quiet_formulas _ _ _ _).of_ok hassumed).toGrows.extends.trans
    ((grows_atSnapshot s2 s1.snapshot).extends.trans ((Encode.quiet_formulas _ _ _ _).of_ok hchecked).toGrows.extends)
  let stages : Stages store a := ⟨entered, s0, s0', s1, hparams, hblock, hdistinct, hfinal⟩
  have hext : stages.final.Extends final := (grows_atSnapshot s1 _).extends.trans hq
  refine ⟨stages, fun f symbol hsymbol => ?_, fun ρ F hF => hM.axioms F (hext.axioms.subset hF) ρ⟩
  exact hM.fits f symbol (by rw [(stages.extends_final.trans hext).symbols.functions]; exact hsymbol)

end Stages

end StoreCheck
