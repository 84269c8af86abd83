import StoreCheck.Proofs.Encoding.SortedLoops
import StoreCheck.Proofs.WriteSet

/-!
# The theories of goals are well-formed

The walk over an action keeps the session sorted, statement by statement (`placed_block`). It starts from the base axioms, which
are well-formed, and what is said at its end is as well. So all formulas of a goal's theory are well-formed
(`wellFormed_preservation`, `wellFormed_consistency`).
-/

namespace StoreCheck

open List Formula SortEnv StoreCheck.Flow Layout Bool

variable {child : ContextId} {k : SortId → SortId} {order : LoopKind} {sort : SortId} {t : Session} {var : String}
  {domain : ObjExpr} {symbols : Symbols} {n : Nat} {Γ : SortEnv} {test : Term → Formula}

namespace Encode

variable {L : Layout} {s : Session}

/-! ## Statements and blocks -/

variable {p : PredId} {c : Creation}

theorem hasValue_addContext (hs : s.Sorted k L) (hv : s.HasValue k L v elements)
    (hrun : addContext sort order var s = .ok (child, t)) : t.HasValue k L v elements := by
  refine ⟨?_, hv.settled⟩
  have hgrows := (grows_addContext sort order var).of_ok hrun
  rw [hgrows.beside.paramSorts hs]
  exact hv.sorted.later hgrows.symbols hgrows.contexts (.refl 0 _) hv.settled (prefix_refl _)

/-- The session in which a loop starts: its context has been added, with the axioms of its iterations. -/
theorem placed_startLoop (hlaid : L.Laid symbols) (run : Encode Unit) (h : s.Placed k L)
    (h1 : objSet L false s.scope domain s = .ok ((value, type), s1)) (hsort : L.sortOf type = .ok (some sort))
    (hplan : planLoop L s.scope var type (s.scope.isLocal domain) body = .ok plan)
    (h2 : addContext sort order var s1 = .ok (child, s2)) (h3 : contextAxioms L child var sort value s2 = .ok ((), s3)) :
    s3.Placed k L ∧ (loopFrame var type (s.scope.isLocal domain) child sort plan run).Sorted L s3 ∧ s3.scope = s.scope := by
  obtain ⟨a, ha, hv, hs1⟩ := placed_objSet hlaid h h1
  obtain rfl : a = some sort := Except.ok.inj (ha.symm.trans hsort)
  obtain ⟨hs2, hchild, hparent, hparams⟩ := sorted_addContext hs1 h2
  have hvalue := hasValue_addContext hs1.sorted ⟨hv.fits.sorted, hv.settled⟩ h2
  have hq3 := (quiet_contextAxioms L child var sort value).of_ok h3
  have hs3 := sorted_contextAxioms hs2.sorted hparams hvalue h3
  refine ⟨hs2.of_quiet hq3 hs3, ⟨?_, ?_, ?_, ?_, hv.known, fun written hwritten => ?_⟩, ?_⟩
  · rw [hq3.table]
    exact hchild
  · rw [hq3.table, hq3.context]
    exact hparent
  · rw [hq3.table, hq3.paramSorts]
    exact hparams
  · exact (sortOf_single type).trans hsort
  · obtain ⟨effects, -, hplan⟩ := exceptBind_ok.1 hplan
    cases hplan
    exact hlaid.mem_sorts.1 (mem_sortsOf.1 hwritten).1
  · exact hq3.scope.trans ((scope_addContext h2).trans hv.quiet.scope)

theorem placed_forEach (hlaid : L.Laid symbols)
    (hbody : ∀ u, infer L.store types domain = .ok u → u.signature.isBottom = false →
      Places k L (VarMap.insert types var u.single) (block L body)) :
    Places k L types (forEach L var domain body order (block L body)) := by
  intro s t h hfollows hrun
  obtain ⟨value, type, s1, h1, hcases⟩ := forEach_ok hrun
  obtain ⟨u, hu, hsignature⟩ := hfollows.infer (objSet_ok h1).1
  obtain ⟨-, rfl⟩ | ⟨sort, plan, child, s2, s3, hsort, hplan, h2, h3, hflat, hchained⟩ := hcases
  · exact (placed_objSet hlaid h h1).choose_spec.2.2
  · obtain ⟨hs3, hf, hscope⟩ := placed_startLoop hlaid (block L body) h h1 hsort hplan h2 h3
    have hfollows3 := hfollows.of_scope hscope
    have hplaces := hbody u hu (by rw [hsignature]; exact isBottom_of_sortOf_some hsort)
    cases order with
    | flat =>
      refine placed_flatLoop hs3 hf (grows_block L body) (fun t ht => ?_) (hflat rfl)
      exact hplaces _ _ (placed_enterFlat hs3 hf) ((hfollows3.bind var _ hsignature).of_scope rfl) ht
    | chained =>
      have hrun' := hchained rfl
      obtain ⟨chain, -, -, -, -, -, -, -, -, hkind, -⟩ := chainedLoop_ok hrun'
      refine placed_chainedLoop hlaid.store hs3 hf (grows_block L body) (fun inputs carries s4 t hinputs ht => ?_) hrun'
      have hfollows4 : s4.Follows types :=
        follows_iterationInputs (s := s3.inContext child) ⟨hfollows3.alike, hfollows3.distinct⟩ hinputs
      exact hplaces _ _ (placed_enterChained hs3 hf hkind hinputs) ((hfollows4.bind var _ hsignature).of_scope rfl) ht

mutual

/-- A statement keeps the session sorted, if its alternatives bind each variable to sets of one sort, or all sorts count as the
same. -/
theorem placed_statement (hlaid : L.Laid symbols) : ∀ (st : Statement) {types : TypeEnv},
    everywhere L.store (coherent L.store) types st = true ∨ Loose k → Places k L types (statement L st)
  | .assign var value, _, _ => by
    exact fun s t h _ hrun => placed_assign hlaid h hrun
  | .create className var, _, _ => by
    exact fun s t h _ hrun => placed_create hlaid h hrun
  | .delete objects, _, _ => by
    exact fun s t h _ hrun => placed_delete hlaid h hrun
  | .createTuple source relation target, _, _ => by
    exact fun s t h _ hrun => placed_updateTuples hlaid h hrun
  | .deleteTuple source relation target, _, _ => by
    exact fun s t h _ hrun => placed_updateTuples hlaid h hrun
  | .ifElse condition thenBlock elseBlock, _, hcoherent => by
    rw [everywhere, and_eq_true, and_eq_true] at hcoherent
    exact placed_ifElse hlaid (hcoherent.imp_left fun h => h.1.1)
      (placed_block hlaid thenBlock (hcoherent.imp_left fun h => h.1.2))
      (placed_block hlaid elseBlock (hcoherent.imp_left fun h => h.2))
  | .either branches, _, hcoherent => by
    rw [everywhere, and_eq_true] at hcoherent
    exact placed_either hlaid.store (hcoherent.imp_left fun h => h.1) (placed_blocks hlaid branches (hcoherent.imp_left fun h => h.2))
  | .forEach var domain body order, _, hcoherent => by
    rw [everywhere, and_eq_true] at hcoherent
    refine placed_forEach hlaid fun u hu hbottom => placed_block hlaid body (hcoherent.imp_left fun h => ?_)
    have hinside := h.2
    simp only [hu, hbottom, Bool.false_or] at hinside
    exact hinside

theorem placed_block (hlaid : L.Laid symbols) : ∀ (b : List Statement) {types : TypeEnv},
    everywhereIn L.store (coherent L.store) types b = true ∨ Loose k → Places k L types (block L b)
  | [], _, _ => by
    intro s t h _ hrun
    cases pure_ok.1 hrun
    exact h
  | st :: rest, types, hcoherent => by
    rw [everywhereIn, and_eq_true] at hcoherent
    intro s t h hfollows hrun
    obtain ⟨⟨⟩, s1, h1, h2⟩ := bind_ok.1 hrun
    have hs1 := placed_statement hlaid st (hcoherent.imp_left fun h => h.1) s s1 h hfollows h1
    obtain ⟨mid, hmid, hfollows1⟩ := flows_statement st types s s1 hfollows h1
    refine placed_block hlaid rest (hcoherent.imp_left fun h => ?_) s1 t hs1 hfollows1 h2
    have hrest := h.2
    simp only [hmid] at hrest
    exact hrest

theorem placed_blocks (hlaid : L.Laid symbols) : ∀ (bs : List (List Statement)) {types : TypeEnv},
    everywhereInAll L.store (coherent L.store) types bs = true ∨ Loose k → ∀ run ∈ blocks L bs, Places k L types run
  | [], _, _, _, hrun => by simp [blocks] at hrun
  | b :: rest, _, hcoherent, run, hrun => by
    rw [everywhereInAll, and_eq_true] at hcoherent
    rcases mem_cons.1 hrun with rfl | hrun
    · exact placed_block hlaid b (hcoherent.imp_left fun h => h.1)
    · exact placed_blocks hlaid rest (hcoherent.imp_left fun h => h.2) run hrun

end

/-! ## Parameters -/

/-- What is said of each element of a counted set is well-formed. -/
def TestOf (k : SortId → SortId) (symbols : Symbols) (sort : SortId) (test : Term → Formula) : Prop :=
  ∀ (Γ : SortEnv) (n : Nat) (t : Term), Term.OfSorts k symbols.functions Γ n [t] [sort] → (test t).WellFormed k symbols Γ

theorem ofSorts_of_mem_replicate {m : Nat} {ts : List Term} (h : Term.OfSorts k functions Γ n ts (List.replicate m sort)) {t : Term}
    (ht : t ∈ ts) :
    Term.OfSorts k functions Γ n [t] [sort] := by
  obtain ⟨i, hi⟩ := mem_iff_getElem?.1 ht
  have hm : i < m := by
    have hlt := (List.getElem?_eq_some_iff.1 hi).1
    rwa [h.length_eq, length_replicate] at hlt
  obtain ⟨u, hu, hsort⟩ := h.getElem? (i := i) (a := sort) (by simp [hm])
  cases hi.symm.trans hu
  exact hsort

theorem wellFormed_atLeast (m : Nat) (htest : TestOf k symbols sort test) (g : VarGen) :
    (Counting.atLeast m sort test g).1.WellFormed k symbols .empty := by
  have hterms := VarGen.ofSorts_binders (k := k) (f := symbols.functions) (List.replicate m sort) g .empty
  refine wellFormed_mkForSome (admits_binders _ g (avoids_empty _ _) (Nat.le_refl _)) (wellFormed_mkAnd ?_)
  intro F hF
  rcases mem_append.1 hF with hF | hF
  · obtain ⟨t, ht, rfl⟩ := mem_map.1 hF
    exact htest _ _ t (ofSorts_of_mem_replicate hterms ht)
  · obtain ⟨⟨t, u⟩, hp, rfl⟩ := mem_map.1 hF
    obtain ⟨ht, hu⟩ := mem_of_mem_pairs hp
    exact wellFormed_mkNot (wellFormed_mkEq (ofSorts_of_mem_replicate hterms ht).hasSort (ofSorts_of_mem_replicate hterms hu).hasSort)

theorem wellFormed_atMost (m : Nat) (htest : TestOf k symbols sort test) (g : VarGen) :
    (Counting.atMost m sort test g).1.WellFormed k symbols .empty := by
  have hterms := VarGen.ofSorts_binders (k := k) (f := symbols.functions) (List.replicate (m + 1) sort) g .empty
  have hadm := admits_binders (List.replicate (m + 1) sort) g (avoids_empty _ _) (Nat.le_refl _)
  refine wellFormed_mkForAll hadm (wellFormed_mkImplies (wellFormed_mkAnd fun F hF => ?_) (wellFormed_mkOr fun F hF => ?_))
  · obtain ⟨t, ht, rfl⟩ := mem_map.1 hF
    exact htest _ _ t (ofSorts_of_mem_replicate hterms ht)
  · obtain ⟨⟨t, u⟩, hp, rfl⟩ := mem_map.1 hF
    obtain ⟨ht, hu⟩ := mem_of_mem_pairs hp
    exact wellFormed_mkEq (ofSorts_of_mem_replicate hterms ht).hasSort (ofSorts_of_mem_replicate hterms hu).hasSort

theorem sorted_rootPred (h : s.Sorted k L) (hrun : rootPred hint sort s = .ok (p, t)) :
    t.Sorted k L ∧ t.symbols.Declares k p [sort] := by
  have hq := (quiet_rootPred hint sort).of_ok hrun
  cases modifyGet_ok.1 hrun
  exact ⟨h.of_same_axioms hq rfl, s.symbols.declares_addPredicate hint [sort]⟩

theorem testOf_pred (h : symbols.Declares k p [sort]) :
    TestOf k symbols sort fun o => .atom p [o] := fun _ _ _ ht => wellFormed_atom h ht.sorts

theorem sorted_paramAxioms (hlaid : L.Laid symbols₀) {c : ClassId} (hc : c.index < L.graph.size)
    (h : s.Sorted k L) (hroot : s.paramSorts = []) (hp : s.symbols.Declares k p [L.classSort c])
    (hrun : paramAxioms L c bounds p s = .ok ((), t)) : t.Sorted k L := by
  obtain ⟨b, o, s1, s2, lower, s3, s4, h1, h2, h3, h4, hupper⟩ := paramAxioms_ok hrun
  obtain ⟨hq1, hb1, ho, -, hadm⟩ := (h.closed hroot).binder h1
  have hs2 : s2.Sorted k L := by
    refine hb1.sorted.emit (wellFormed_mkForAll hadm (wellFormed_mkImplies (wellFormed_atom (hp.mono hq1.symbols) ho.sorts) ?_)) h2
    refine wellFormed_mkAnd (forall_mem_pair ?_ (hb1.sorted.declared.wellFormed_isClass hc ho))
    exact (hb1.sorted.declared.initial _ (hlaid.classSort_lt hc)).wellFormed .nil ho
  have hp2 : s2.symbols.Declares k p [L.classSort c] := (hp.mono hq1.symbols).mono ((quiet_emit _).of_ok h2).symbols
  have hs4 : s4.Sorted k L := by
    refine (hs2.fresh (Fresh.takes_atLeast _ _ _) h3).emit ?_ h4
    cases modifyGet_ok.1 h3
    exact wellFormed_atLeast _ (testOf_pred hp2) s2.vars
  have hp4 : s4.symbols.Declares k p [L.classSort c] :=
    (hp2.mono ((quiet_fresh (Fresh.takes_atLeast _ _ _)).of_ok h3).symbols).mono ((quiet_emit _).of_ok h4).symbols
  obtain ⟨-, rfl⟩ | ⟨upper, most, s5, -, h5, h6⟩ := hupper
  · exact hs4
  · refine (hs4.fresh (Fresh.takes_atMost _ _ _) h5).emit ?_ h6
    cases modifyGet_ok.1 h5
    exact wellFormed_atMost _ (testOf_pred hp4) s4.vars

theorem placed_param (hlaid : L.Laid symbols) {p : Param} (h : s.Placed k L)
    (hroot : s.paramSorts = []) (hrun : param L p s = .ok ((), t)) : t.Placed k L ∧ t.paramSorts = [] := by
  obtain ⟨c, pred, s1, s2, hc, -, h1, h2, rfl⟩ := param_ok hrun
  have hlt : c.index < L.graph.size := ClassGraph.resolveIn_lt hc
  obtain ⟨hs1, hp⟩ := sorted_rootPred h.sorted h1
  have hq1 := (quiet_rootPred ("param_" ++ p.name) (L.classSort c)).of_ok h1
  have hq2 := quiet.paramAxioms.of_ok h2
  have hs2 := sorted_paramAxioms hlaid hlt hs1 (hq1.paramSorts.trans hroot) hp h2
  have hplaced := h.of_quiet (hq1.trans hq2) hs2
  refine ⟨hplaced.bind ⟨(sortOf_withCardinality _ _).trans (sortOf_class c rfl), hlaid.knows_class hlt,
    .of_sorted ?_, by simp [ObjValue.Settled]⟩, (hq1.trans hq2).paramSorts.trans hroot⟩
  exact ⟨Nat.zero_le _, hp.mono hq2.symbols⟩

theorem placed_params (hlaid : L.Laid symbols) {ps : List Param} (h : s.Placed k L)
    (hroot : s.paramSorts = []) (hrun : ps.forM (param L) s = .ok ((), t)) : t.Placed k L ∧ t.paramSorts = [] :=
  forM_keeps (P := fun u => u.Placed k L ∧ u.paramSorts = []) (fun _ _ _ _ hu => placed_param hlaid hu.1 hu.2) ⟨h, hroot⟩ hrun

/-! ## The end of the walk -/

/-- The object that a creation makes at a position. -/
theorem wellFormed_createdAt (hc : symbols.Declares k c.pred (c.params ++ [c.sort]))
    (hps : Term.OfSorts k symbols.functions Γ n ps c.params) (ho : Term.OfSorts k symbols.functions Γ n [o] [c.sort]) :
    (createdAt c ps o).WellFormed k symbols Γ :=
  wellFormed_atom hc (hps.append ho).sorts

theorem sorted_createdOnce (h : s.Sorted k L) (hroot : s.paramSorts = [])
    (hc : s.symbols.Declares k c.pred (c.params ++ [c.sort])) (hrun : createdOnce c.sort c s = .ok ((), t)) : t.Sorted k L := by
  obtain ⟨-, rfl⟩ | ⟨b1, p1, s1, b2, p2, s2, b, o, s3, h1, h2, h3, h4⟩ := createdOnce_ok hrun
  · exact h
  · obtain ⟨hq1, hb1, hp1, -, hadm1⟩ := (h.closed hroot).binders h1
    obtain ⟨hq2, hb2, hp2, hagree2, hadm2⟩ := hb1.binders h2
    obtain ⟨hq3, hb3, ho, hagree3, hadm3⟩ := hb2.binder h3
    have hc3 := hc.mono (hq1.trans (hq2.trans hq3)).symbols
    have hp1' := ((hp1.agree hagree2 (Nat.le_refl _)).later hq2 |>.agree hagree3 (Nat.le_refl _)).later hq3
    have hp2' := (hp2.agree hagree3 (Nat.le_refl _)).later hq3
    refine hb3.sorted.emit (wellFormed_mkForAll ((hadm1.append hadm2).append (by rw [bind_append]; exact hadm3)) ?_) h4
    rw [bind_append, bind_append]
    refine wellFormed_mkImplies (wellFormed_mkAnd (forall_mem_pair (wellFormed_createdAt hc3 hp1' ho)
      (wellFormed_createdAt hc3 hp2' ho))) (wellFormed_mkAnd fun F hF => ?_)
    obtain ⟨pair, hpair, rfl⟩ := mem_map.1 hF
    obtain ⟨a, hx, hy⟩ := hp1'.zip hp2' pair hpair
    exact wellFormed_mkEq hx.hasSort hy.hasSort

theorem sorted_createdApart {d : Creation} (h : s.Sorted k L) (hroot : s.paramSorts = []) (hsort : d.sort = c.sort)
    (hc : s.symbols.Declares k c.pred (c.params ++ [c.sort])) (hd : s.symbols.Declares k d.pred (d.params ++ [d.sort]))
    (hrun : createdApart c.sort c d s = .ok ((), t)) : t.Sorted k L := by
  obtain ⟨b1, p1, s1, b2, p2, s2, b, o, s3, h1, h2, h3, h4⟩ := createdApart_ok hrun
  obtain ⟨hq1, hb1, hp1, -, hadm1⟩ := (h.closed hroot).binders h1
  obtain ⟨hq2, hb2, hp2, hagree2, hadm2⟩ := hb1.binders h2
  obtain ⟨hq3, hb3, ho, hagree3, hadm3⟩ := hb2.binder h3
  have hq := (hq1.trans (hq2.trans hq3)).symbols
  have hp1' := ((hp1.agree hagree2 (Nat.le_refl _)).later hq2 |>.agree hagree3 (Nat.le_refl _)).later hq3
  have hp2' := (hp2.agree hagree3 (Nat.le_refl _)).later hq3
  refine hb3.sorted.emit (wellFormed_mkForAll ((hadm1.append hadm2).append (by rw [bind_append]; exact hadm3)) ?_) h4
  rw [bind_append, bind_append]
  exact wellFormed_mkNot (wellFormed_mkAnd (forall_mem_pair (wellFormed_createdAt (hc.mono hq) hp1' ho)
    (wellFormed_createdAt (hd.mono hq) hp2' (hsort ▸ ho))))

theorem sorted_createdAparts {ds : List Creation} (h : s.Sorted k L) (hroot : s.paramSorts = [])
    (hc : s.symbols.Declares k c.pred (c.params ++ [c.sort]))
    (hds : ∀ d ∈ ds, d.sort = c.sort ∧ s.symbols.Declares k d.pred (d.params ++ [d.sort]))
    (hrun : ds.forM (createdApart c.sort c) s = .ok ((), t)) : t.Sorted k L := by
  refine (forM_keeps (P := fun u => s.Quiet u ∧ u.Sorted k L) (fun d hd u v hu h1 => ?_) ⟨.refl s, h⟩ hrun).2
  obtain ⟨hsort, hd⟩ := hds d hd
  exact ⟨hu.1.trans (quiet.createdApart.of_ok h1), sorted_createdApart hu.2 (hu.1.paramSorts.trans hroot) hsort
    (hc.mono hu.1.symbols) (hd.mono hu.1.symbols) h1⟩

theorem sorted_distinctCreations {sort : SortId} : ∀ (cs : List Creation) {s t : Session}, s.Sorted k L → s.paramSorts = [] →
    (∀ c ∈ cs, c.sort = sort ∧ s.symbols.Declares k c.pred (c.params ++ [c.sort])) →
    distinctCreations sort cs s = .ok ((), t) → t.Sorted k L
  | [], _, _, h, _, _, hrun => by
    cases pure_ok.1 hrun
    exact h
  | c :: rest, _, _, h, hroot, hcs, hrun => by
    obtain ⟨⟨⟩, s1, h1, hrun⟩ := bind_ok.1 hrun
    obtain ⟨⟨⟩, s2, h2, h3⟩ := bind_ok.1 hrun
    obtain ⟨hsort, hc⟩ := hcs c (by simp)
    have hq1 := quiet.createdOnce.of_ok h1
    have hq2 := (Keeps.forM (fun d => quiet.createdApart) rest).of_ok h2
    subst hsort
    have hs1 := sorted_createdOnce h hroot hc h1
    have hs2 := sorted_createdAparts hs1 (hq1.paramSorts.trans hroot) (hc.mono hq1.symbols)
      (fun d hd => ⟨(hcs d (by simp [hd])).1, (hcs d (by simp [hd])).2.mono hq1.symbols⟩) h2
    have hq := hq1.trans hq2
    exact sorted_distinctCreations rest hs2 (hq.paramSorts.trans hroot)
      (fun d hd => ⟨(hcs d (by simp [hd])).1, (hcs d (by simp [hd])).2.mono hq.symbols⟩) h3

theorem sorted_distinctAxioms (h : s.Sorted k L) (hroot : s.paramSorts = []) (hrun : distinctAxioms L s = .ok ((), t)) :
    t.Sorted k L := by
  unfold distinctAxioms at hrun
  refine (forM_keeps (P := fun u => s.Quiet u ∧ u.Sorted k L) (fun sort _ u v hu h1 => ?_) ⟨.refl s, h⟩ hrun).2
  refine ⟨hu.1.trans ((quiet.distinctCreations _).of_ok h1),
    sorted_distinctCreations _ hu.2 (hu.1.paramSorts.trans hroot) (fun c hc => ?_) h1⟩
  obtain ⟨hc, hsort⟩ := mem_filter.1 hc
  exact ⟨of_decide_eq_true hsort, (h.creations c hc).mono hu.1.symbols⟩

theorem placed_finalSlot (hsort : sort.index < sortCount L.store) (h : s.Placed k L)
    (hroot : s.paramSorts = []) (hrun : finalSlot sort s = .ok ((), t)) : t.Placed k L := by
  have hq := quiet.finalSlot.of_ok hrun
  obtain ⟨hint, p, s1, b, o, s2, h1, h2, h3⟩ := finalSlot_ok hrun
  obtain ⟨hs1, hp⟩ := sorted_rootPred h.sorted h1
  have hq1 := (quiet_rootPred hint sort).of_ok h1
  obtain ⟨hq2, hb2, ho, -, hadm⟩ := (hs1.closed (hq1.paramSorts.trans hroot)).binder h2
  refine h.of_quiet hq (hb2.sorted.emit (wellFormed_mkForAll hadm (wellFormed_mkIff ?_ ?_)) h3)
  · exact wellFormed_atom (hp.mono hq2.symbols) ho.sorts
  · exact hb2.wellFormed_slot ((h.snapshot.slot hsort).later (hq1.trans hq2)) ho

theorem placed_finalSlots {sorts : List SortId} (hsorts : ∀ sort ∈ sorts, sort.index < sortCount L.store)
    (h : s.Placed k L) (hroot : s.paramSorts = []) (hrun : sorts.forM finalSlot s = .ok ((), t)) :
    t.Placed k L ∧ t.paramSorts = [] := by
  refine forM_keeps (P := fun u => u.Placed k L ∧ u.paramSorts = []) (fun sort hsort u v hu h1 => ?_) ⟨h, hroot⟩ hrun
  exact ⟨placed_finalSlot (hsorts sort hsort) hu.1 hu.2 h1, (quiet.finalSlot.of_ok h1).paramSorts.trans hu.2⟩

end Encode

end StoreCheck
