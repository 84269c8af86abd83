import StoreCheck.Proofs.Encoding.SortedBranches

/-!
# Loops add well-formed axioms

A loop's body is walked over in a context of its own, whose parameters are those of the loop's place and one more
(`LoopFrame.Sorted`). What is sorted at the loop's place is sorted inside (`placed_enterBody`); what the body leaves is spoken of
outside at positions with one object more.
-/

namespace StoreCheck

open List Formula SortEnv VarGen Contexts Layout

variable {m : Nat} {p : PredId} {u it : Term} {sort written : SortId} {Γ : SortEnv} {child : ContextId} {var name : String}
  {entry : Snapshot} {params : List Term} {new : Slot} {inputs : List (SortId × Slot)} {carries : List Encode.Carry} {pre : Scope}

variable {k : SortId → SortId}

/-! ## Orders -/

namespace Contexts

variable {cs : Contexts} {symbols : Symbols}

/-- The context that has been added for a loop. -/
theorem get_add (cs : Contexts) (symbols : Symbols) (parent : ContextId) (sort : SortId) (order : LoopKind) (hint : String) :
    let added := cs.add symbols parent sort order hint
    (added.2.1.get added.1).parent = some parent ∧
      (added.2.1.get added.1).paramSorts = (cs.get parent).paramSorts ++ [sort] ∧
      added.1.index < added.2.1.table.length := by
  cases order <;> simp [add, get]

theorem Sorted.wellFormed_nestingAxiom (h : cs.Sorted k symbols) (id : ContextId) (g : VarGen) :
    (cs.nestingAxiom id g).1.WellFormed k symbols .empty := by
  unfold nestingAxiom
  cases hparent : (cs.get id).parent with
  | none => exact wellFormed_top
  | some parent =>
    obtain ⟨-, sort, hsorts⟩ := (h.get id).parent parent hparent
    have hparams := ofSorts_binders (k := k) (f := symbols.functions) (cs.get id).paramSorts g .empty
    refine wellFormed_mkForAll (admits_binders _ g (avoids_empty _ _) (Nat.le_refl _)) (wellFormed_mkImplies ?_ ?_)
    · exact h.wellFormed_membership id (prefix_refl _) hparams
    · exact h.wellFormed_membership parent (by rw [hsorts]; exact prefix_append _ _) hparams

/-- Iterations of one parent iteration, where the order axioms speak of them. -/
structure Iterations (k : SortId → SortId) (symbols : Symbols) (Γ : SortEnv) (n : Nat) (outer : List Term)
    (outerSorts : List SortId) (sort : SortId) (ts : List Term) : Prop where
  outer : Term.OfSorts k symbols.functions Γ n outer outerSorts
  each : ∀ t ∈ ts, Term.OfSorts k symbols.functions Γ n [t] [sort]

namespace Iterations

variable {Γ : SortEnv} {n : Nat} {outer : List Term} {outerSorts : List SortId} {sort : SortId} {ts : List Term}

variable (h : Iterations k symbols Γ n outer outerSorts sort ts)

include h

/-- One more iteration. -/
theorem bind (hm : n ≤ m) :
    Iterations k symbols (Γ.bind [⟨nameOf (m + 1), sort⟩]) (m + 1) outer outerSorts sort
      (ts ++ [.var (nameOf (m + 1))]) := by
  have hagree := agree_bind_nameOf (Nat.lt_succ_of_le hm) sort Γ
  refine ⟨h.outer.agree hagree (Nat.le_succ_of_le hm), fun t ht => ?_⟩
  rcases mem_append.1 ht with ht | ht
  · exact (h.each t ht).agree hagree (Nat.le_succ_of_le hm)
  · rw [mem_singleton.1 ht]
    exact ofSorts_nameOf sort Γ

variable {t : Term}

theorem one (hp : symbols.Declares k p (outerSorts ++ [sort]))
    (ht : t ∈ ts) : (atom p (outer ++ [t])).WellFormed k symbols Γ :=
  wellFormed_atom hp (h.outer.append (h.each t ht)).sorts

theorem two (hp : symbols.Declares k p (outerSorts ++ [sort, sort]))
    (ht : t ∈ ts) (hu : u ∈ ts) : (atom p (outer ++ [t, u])).WellFormed k symbols Γ :=
  wellFormed_atom hp (h.outer.append ((h.each t ht).append (h.each u hu))).sorts

theorem equal (ht : t ∈ ts) (hu : u ∈ ts) :
    (mkEq t u).WellFormed k symbols Γ := wellFormed_mkEq (h.each t ht).hasSort (h.each u hu).hasSort

theorem member (hcs : cs.Sorted k symbols) {id : ContextId}
    (hsorts : (cs.get id).paramSorts = outerSorts ++ [sort]) (ht : t ∈ ts) :
    (cs.membership id (outer ++ [t])).WellFormed k symbols Γ := by
  refine hcs.wellFormed_membership id (prefix_refl _) (n := n) ?_
  rw [hsorts]
  exact h.outer.append (h.each t ht)

end Iterations

/-- The axioms of an order are well-formed: each speaks of up to three iterations. -/
theorem Sorted.wellFormed_orderAxiomsWith (h : cs.Sorted k symbols) {id : ContextId} {order : ChainOrder}
    (hsorts : (cs.get id).paramSorts = outerSorts ++ [sort]) (horder : order.Sorted k symbols outerSorts sort)
    {outer : List Binder × List Term} {x y z : Binder × Term} (hx : Iterations k symbols Γx n outer.2 outerSorts sort [x.2])
    (hxy : Iterations k symbols Γxy m outer.2 outerSorts sort [x.2, y.2])
    (hxz : Iterations k symbols Γxz l outer.2 outerSorts sort [x.2, z.2])
    (hxyz : Iterations k symbols Γxyz l outer.2 outerSorts sort [x.2, y.2, z.2])
    (hone : ∀ G : Formula, G.WellFormed k symbols Γx → (mkForAll (outer.1 ++ [x.1]) G).WellFormed k symbols Γ)
    (htwo : ∀ G : Formula, G.WellFormed k symbols Γxy → (mkForAll (outer.1 ++ [x.1, y.1]) G).WellFormed k symbols Γ)
    (hthree : ∀ G : Formula, G.WellFormed k symbols Γxyz → (mkForAll (outer.1 ++ [x.1, y.1, z.1]) G).WellFormed k symbols Γ)
    (hy : ∀ G : Formula, G.WellFormed k symbols Γxy → (mkForSome [y.1] G).WellFormed k symbols Γx)
    (hz : ∀ G : Formula, G.WellFormed k symbols Γxyz → (mkForSome [z.1] G).WellFormed k symbols Γxy)
    (hz' : ∀ G : Formula, G.WellFormed k symbols Γxz → (mkForSome [z.1] G).WellFormed k symbols Γx) :
    ∀ F ∈ cs.orderAxiomsWith id order outer x y z, F.WellFormed k symbols Γ := by
  intro F hF
  simp only [orderAxiomsWith, mem_cons, not_mem_nil, or_false] at hF
  rcases hF with rfl | rfl | rfl | rfl | rfl | rfl | rfl | rfl | rfl | rfl | rfl <;>
  repeat' first
    | apply hone | apply htwo | apply hthree | apply hy | apply hz | apply hz'
    | apply wellFormed_mkImplies | apply wellFormed_mkIff | apply wellFormed_mkNot
    | refine wellFormed_mkAnd (forall_mem_pair ?_ ?_) | refine wellFormed_mkAnd (forall_mem_triple ?_ ?_ ?_)
    | refine wellFormed_mkOr (forall_mem_pair ?_ ?_)
    | simp [hx.two horder.before, hxy.two horder.before, hxyz.two horder.before,
    hxy.two horder.justBefore, hx.one horder.first, hx.one horder.last, hxy.one horder.first, hxz.one horder.last, hxy.equal,
    hx.member h hsorts, hxy.member h hsorts]

/-- The axioms for the order of iterations are well formed. -/
theorem Sorted.wellFormed_orderAxioms (h : cs.Sorted k symbols) (id : ContextId) (g : VarGen) :
    ∀ F ∈ (cs.orderAxioms id g).1, F.WellFormed k symbols .empty := by
  unfold orderAxioms
  cases hkind : (cs.get id).kind with
  | root => simp [pure_run]
  | flat => simp [pure_run]
  | chained order =>
    obtain ⟨outer, sort, hsorts, horder⟩ := (h.get id).order order hkind
    have hlevel : (cs.get id).level - 1 = outer.length := by rw [(h.get id).level, hsorts]; simp
    have hsort : (cs.get id).paramSorts.getD ((cs.get id).level - 1) ⟨0⟩ = sort := by
      rw [hlevel, hsorts, getD_eq_getElem?_getD]
      simp
    have houter : (cs.get id).paramSorts.take ((cs.get id).level - 1) = outer := by rw [hlevel, hsorts, take_left]
    rw [hsort, houter]
    have hadmits := admits_binders outer g (avoids_empty _ _) (Nat.le_refl _)
    have hfree := fun m => avoids_bind_binders outer g (avoids_empty _ m)
    have hnone : Iterations k symbols _ _ _ outer sort [] := ⟨ofSorts_binders outer g .empty, by simp⟩
    have hx := hnone.bind (Nat.le_refl _)
    have hxy := hx.bind (Nat.le_refl _)
    have hfreex := fun m => ((hfree m).within (Nat.le_succ _) (Nat.le_refl m)).bind (Nat.le_refl _) sort
    have hfreexy := fun m => ((hfreex m).within (Nat.le_succ _) (Nat.le_refl m)).bind (Nat.le_refl _) sort
    have ax := (hfree _).admits (Nat.lt_succ_self _) (Nat.le_refl _) sort
    have ay := (hfreex _).admits (Nat.lt_succ_self _) (Nat.le_refl _) sort
    have az := (hfreexy _).admits (Nat.lt_succ_self _) (Nat.le_refl _) sort
    have hall : ∀ {bs : List Binder}, SortEnv.Admits (empty.bind (binders outer g).1.1) bs → ∀ G : Formula,
        G.WellFormed k symbols ((empty.bind (binders outer g).1.1).bind bs) →
          (mkForAll ((binders outer g).1.1 ++ bs) G).WellFormed k symbols .empty := fun hbs G hG =>
      wellFormed_mkForAll (hadmits.append hbs) (by rwa [bind_append])
    exact h.wellFormed_orderAxiomsWith hsorts horder hx hxy (hx.bind (Nat.le_succ _)) (hxy.bind (Nat.le_refl _)) (hall ax)
      (hall (ax.append ay)) (hall (ax.append (ay.append az))) (fun _ => wellFormed_mkForSome ay) (fun _ => wellFormed_mkForSome az)
      fun _ => wellFormed_mkForSome ((hfreex _).admits (Nat.lt_succ_of_lt (Nat.lt_succ_self _)) (Nat.le_refl _) sort)

end Contexts

/-! ## The place of a loop -/

namespace Session

variable {s t : Session}

/-- At another place only the branches that lead to it have to be looked at. -/
theorem Sorted.at_place (h : s.Sorted k L) (guards : List Guard) (context : ContextId) (σ : Snapshot) (scope : Scope)
    (hcontext : context.index < s.contexts.table.length)
    (hguards : ∀ g ∈ guards, s.symbols.Takes k g.indicator (s.contexts.get context).paramSorts g.depth []) :
    Sorted k L { s with guards := guards, context := context, snapshot := σ, scope := scope } :=
  ⟨h.declared, h.contexts, hcontext, hguards, h.axioms, h.creations⟩

end Session

namespace Encode

variable {L : Layout} {symbols : Symbols} {s t : Session} {types : TypeEnv}

/-- The loop's context lies just inside that of the session, and iterates over elements of the loop's sort. -/
structure LoopFrame.Sorted (L : Layout) (s : Session) (f : LoopFrame) : Prop where
  child : f.child.index < s.contexts.table.length
  parent : (s.contexts.get f.child).parent = some s.context
  params : (s.contexts.get f.child).paramSorts = s.paramSorts ++ [f.sort]
  iterator : L.sortOf f.iterator.1 = .ok (some f.sort)
  known : L.Knows (some f.sort)
  writes : ∀ sort ∈ f.plan.writes, sort.index < Layout.sortCount L.store

namespace LoopFrame.Sorted

variable {f : LoopFrame}

theorem beside (h : f.Sorted L s) (hs : s.Sorted k L) (hst : s.Beside t) : f.Sorted L t := by
  have hget := get_extend hst.made.contexts h.child
  refine ⟨Nat.lt_of_lt_of_le h.child hst.made.contexts.length_le, ?_, ?_, h.iterator, h.known, h.writes⟩
  · rw [hget, hst.context]
    exact h.parent
  · rw [hget, hst.paramSorts hs]
    exact h.params

theorem inside (h : f.Sorted L s) : s.paramSorts <+: (s.contexts.get f.child).paramSorts := by
  rw [h.params]
  exact prefix_append _ _

/-- The session inside the loop. -/
theorem sorted_inContext (h : f.Sorted L s) (hs : s.Sorted k L) : (s.inContext f.child).Sorted k L :=
  hs.at_place s.guards f.child s.snapshot s.scope h.child fun g hg => (hs.guards g hg).deeper h.inside

end LoopFrame.Sorted

/-- Back at the place of the loop. -/
theorem sorted_back (hs : s.Sorted k L) (ht : t.Sorted k L) (hmade : s.Extends t) (hguards : t.guards = s.guards) :
    (t.inContext s.context).Sorted k L := by
  have hcontext : s.context.index < t.contexts.table.length := Nat.lt_of_lt_of_le hs.context hmade.contexts.length_le
  refine ht.at_place t.guards s.context t.snapshot t.scope hcontext fun g hg => ?_
  rw [hguards] at hg
  rw [get_extend hmade.contexts hs.context]
  exact (hs.guards g hg).mono hmade.symbols

/-! ## The context of a loop -/

variable {f : LoopFrame} {before after : Slot}
variable {order : ChainOrder}

/-- The context of a loop has a predicate for its live iterations. -/
theorem live_addContext {order : LoopKind}
    (hrun : addContext sort order var s = .ok (child, t)) : ∃ live, (t.contexts.get child).live = some live := by
  obtain ⟨rfl, rfl⟩ := addContext_ok hrun
  cases order <;> simp [add, Contexts.get]

/-- The context of a chained loop has an order. -/
theorem chained_addContext
    (hrun : addContext sort .chained var s = .ok (child, t)) : ∃ order, (t.contexts.get child).kind = .chained order := by
  obtain ⟨rfl, rfl⟩ := addContext_ok hrun
  exact ⟨_, by simp [add, Contexts.get]; rfl⟩

theorem sorted_addContext {order : LoopKind} (h : s.Placed k L) (hrun : addContext sort order var s = .ok (child, t)) :
    t.Placed k L ∧ child.index < t.contexts.table.length ∧ (t.contexts.get child).parent = some t.context ∧
      (t.contexts.get child).paramSorts = t.paramSorts ++ [sort] := by
  have hgrows := (grows_addContext sort order var).of_ok hrun
  have hbeside := hgrows.beside
  have hparams := hbeside.paramSorts h.sorted
  obtain ⟨rfl, rfl⟩ := addContext_ok hrun
  obtain ⟨hparent, hsorts, hchild⟩ := get_add s.contexts s.symbols s.context sort order var
  refine ⟨⟨⟨h.sorted.declared.mono hgrows.symbols, h.sorted.contexts.add h.sorted.context sort order var,
    hbeside.in_table h.sorted, h.sorted.guards_beside hbeside, fun F hF => .mono hgrows.symbols (h.sorted.axioms F hF),
    fun c hc => (h.sorted.creations c hc).mono hgrows.symbols⟩, Snapshot.Sorted.beside h.snapshot h.sorted hbeside,
    h.scope.beside h.sorted hbeside⟩, hchild, hparent, ?_⟩
  rw [hparams]
  exact hsorts

theorem sorted_contextAxioms (h : s.Sorted k L) (hparams : (s.contexts.get child).paramSorts = s.paramSorts ++ [sort])
    (hv : s.HasValue k L domain sort) (hrun : contextAxioms L child var sort domain s = .ok ((), t)) : t.Sorted k L := by
  obtain ⟨live, s1, s2, nesting, s3, s4, order, hlive, h1, h2, h3, h4, h5⟩ := contextAxioms_ok hrun
  have hpred : s.HasPred k live [sort] := by
    refine .of_declares ?_ h.level_eq
    rw [← hparams]
    exact (h.contexts.get child).live live hlive
  have hq1 := (quiet.axiomOver (quiet.sameMembers (quiet_member L _))).of_ok h1
  have hs1 := h.axiomOver (quiet.sameMembers (quiet_member L _)) (wellBuilt_sameMembers hpred hv) h1
  have hs2 := hs1.fresh (Fresh.takes_nestingAxiom _ _) h2
  have hcontexts1 := hs1.contexts
  rw [hq1.table] at hcontexts1
  have hs3 : s3.Sorted k L := by
    refine hs2.emit ?_ h3
    cases modifyGet_ok.1 h2
    exact hcontexts1.wellFormed_nestingAxiom child s1.vars
  have hsymbols : s1.symbols.Grows s3.symbols :=
    ((quiet_fresh (Fresh.takes_nestingAxiom _ _)).of_ok h2).symbols.trans ((quiet_emit _).of_ok h3).symbols
  refine (hs3.fresh (Fresh.takes_orderAxioms _ _) h4).emits ?_ h5
  cases modifyGet_ok.1 h4
  exact (hcontexts1.mono hsymbols).wellFormed_orderAxioms child s3.vars

/-! ## The body -/

theorem placed_enterBody (hs : s.Sorted k L) (hf : f.Sorted L s)
    (hentry : entry.Sorted k L s.symbols (s.contexts.get f.child).paramSorts)
    (hscope : s.scope.Sorted k L s.symbols s.contexts .empty 0 (s.contexts.get f.child).paramSorts) :
    (enterBody f entry s).Placed k L := by
  have hlevel : s.contexts.level f.child = s.paramSorts.length + 1 := by
    rw [hs.contexts.level_eq, hf.params, length_append, length_singleton]
  refine ⟨?_, hentry, hscope.insert ⟨hf.iterator, hf.known, .of_sorted ?_, by simp [ObjValue.Settled]⟩⟩
  · exact hs.at_place s.guards f.child _ _ hf.child fun g hg => (hs.guards g hg).deeper hf.inside
  · rw [ObjValue.Sorted, hlevel]
    refine ⟨Nat.succ_pos _, f.sort, ?_, rfl⟩
    rw [hf.params]
    simp

/-- The snapshot and the variables at the end of the body are sorted inside the loop. -/
structure LoopBody.Sorted (k : SortId → SortId) (L : Layout) (s : Session) (child : ContextId) (body : LoopBody) : Prop where
  out : body.out.Sorted k L s.symbols (s.contexts.get child).paramSorts
  scope : body.scope.Sorted k L s.symbols s.contexts .empty 0 (s.contexts.get child).paramSorts

variable {body : LoopBody}

theorem LoopBody.Sorted.later (h : body.Sorted k L s child)
    (hchild : child.index < s.contexts.table.length) (hmade : s.Extends t) : body.Sorted k L t child := by
  have hget := get_extend hmade.contexts hchild
  refine ⟨?_, ?_⟩
  · rw [hget]
    exact h.out.later hmade.symbols (prefix_refl _)
  · rw [hget]
    exact h.scope.later hmade.symbols hmade.contexts (.refl 0 _) (prefix_refl _) (Nat.le_refl 0)

/-- The body leaves a sorted snapshot and scope, and the session back at the place of the loop. -/
theorem sorted_loopBody (hs : s.Sorted k L) (hgrows : Keeps Session.Grows f.body)
    (hbody : ∀ t, f.body (enterBody f entry s) = .ok ((), t) → t.Placed k L) (hrun : loopBody f entry s = .ok (body, t)) :
    t.Sorted k L ∧ s.Grows t ∧ body.entry = entry ∧ body.Sorted k L t f.child ∧ t.scope = s.scope := by
  have hst := grows_loopBody hgrows hrun
  obtain ⟨s1, h1, rfl, rfl⟩ := loopBody_ok hrun
  have hs1 := hbody s1 h1
  have hrun1 := hgrows.of_ok h1
  have hcontext : s1.context = f.child := hrun1.context
  have hout : LoopBody.Sorted k L s1 f.child ⟨entry, s1.snapshot, s1.scope⟩ := by
    refine ⟨?_, ?_⟩
    · rw [← hcontext]
      exact hs1.snapshot
    · rw [← hcontext]
      exact hs1.scope
  have hmade : s.Extends s1 := ⟨hrun1.symbols, hrun1.vars, hrun1.contexts, hrun1.axioms, hrun1.creations⟩
  refine ⟨?_, hst, rfl, ⟨hout.out, hout.scope⟩, rfl⟩
  have hback := sorted_back hs hs1.sorted hmade hrun1.guards
  exact ⟨hback.declared, hback.contexts, hback.context, hback.guards, hback.axioms, hback.creations⟩

/-! ## Flat loops -/

section Exits

variable {f : LoopFrame}

/-- A position inside the loop. -/
theorem ofSorts_inside (hb : s.Building k L Γ params) (hf : f.Sorted L s)
    (hit : s.HasTerms k Γ [it] [f.sort]) :
    s.HasTerms k Γ (params ++ [it]) (s.contexts.get f.child).paramSorts := by
  rw [hf.params]
  exact hb.params.append hit

theorem wellFormed_iterates (hb : s.Building k L Γ params) (hf : f.Sorted L s)
    (hit : s.HasTerms k Γ [it] [f.sort]) :
    (s.contexts.membership f.child (params ++ [it])).WellFormed k s.symbols Γ :=
  hb.sorted.contexts.wellFormed_membership f.child (prefix_refl _) (ofSorts_inside hb hf hit)

end Exits

theorem Slot.Sorted.inside {slot : Slot} (h : slot.Sorted k s.symbols (s.contexts.get child).paramSorts sort) (hq : s.Quiet t) :
    slot.Sorted k t.symbols (t.contexts.get child).paramSorts sort := by
  rw [hq.table]
  exact h.mono hq.symbols

theorem LoopFrame.Sorted.later (h : f.Sorted L s) (hs : s.Sorted k L) (hq : s.Quiet t) : f.Sorted L t :=
  h.beside hs hq.toGrows.beside

/-- The formula for what all iterations keep or one adds is well formed. -/
theorem wellBuilt_keptOrAdded (hs : s.Sorted k L) (hf : f.Sorted L s) (hbefore : s.HasSlot k before written)
    (hafter : after.Sorted k s.symbols (s.contexts.get f.child).paramSorts written) (hnew : s.HasSlot k new written) :
    WellBuilt k L s (keptOrAdded f written before after new) := by
  intro s1 t Γ params F hq hb hrun
  obtain ⟨b, o, s2, b1, it1, s3, b2, it2, h1, h2, h3, rfl⟩ := keptOrAdded_ok hrun
  obtain ⟨hq1, hb1, ho, -, hadm⟩ := hb.binder h1
  obtain ⟨hq2, hb2, hit1, hagree1, hadm1⟩ := hb1.binder h2
  obtain ⟨hq3, hb3, hit2, hagree2, hadm2⟩ := (hb1.later hq2 hb2.sorted).binder h3
  have hqt := hq.trans (hq1.trans (hq2.trans hq3))
  have hq23 := hq2.trans hq3
  have htable : t.contexts = s1.contexts := (hq1.trans hq23).table
  have hft : f.Sorted L t := hf.later hs hqt
  have hb1' := hb1.later hq23 hb3.sorted
  have hb2' := hb2.later hq3 hb3.sorted
  have hold := hb1'.wellFormed_slot (hbefore.later hqt) (ho.later hq23)
  have hafter' := Slot.Sorted.inside hafter hqt
  rw [← htable]
  refine ⟨hb3.sorted, wellFormed_mkForAll hadm (wellFormed_mkIff (hb1'.wellFormed_slot (hnew.later hqt) (ho.later hq23))
    (wellFormed_mkOr (forall_mem_pair (wellFormed_mkAnd (forall_mem_pair hold (wellFormed_mkForAll hadm1 ?_)))
      (wellFormed_mkAnd (forall_mem_pair (wellFormed_mkNot hold) (wellFormed_mkForSome hadm2 ?_))))))⟩
  · have ho' := ((ho.agree hagree1 (Nat.le_refl _)).later hq2).later hq3
    have hit := hit1.later hq3
    exact wellFormed_mkImplies (wellFormed_iterates hb2' hft hit) (hafter'.wellFormed (ofSorts_inside hb2' hft hit) ho')
  · have ho' := (ho.later hq2).agree hagree2 (Nat.le_refl _) |>.later hq3
    exact wellFormed_mkAnd (forall_mem_pair (wellFormed_iterates hb3 hft hit2)
      (hafter'.wellFormed (ofSorts_inside hb3 hft hit2) ho'))

theorem slotStep_mergeIterations (hs : s.Sorted k L) (hf : f.Sorted L s)
    (hentry : body.entry.Sorted k L s.symbols s.paramSorts) (hbody : body.Sorted k L s f.child)
    (hwritten : written ∈ f.plan.writes) : SlotStep k L s (mergeIterations f body written) := by
  intro s1 t c hq hs1 hrun
  obtain ⟨new, s2, h1, h2, rfl⟩ := mergeIterations_ok hrun
  have hlt := hf.writes written hwritten
  have hq1 := quiet.freshSlot.of_ok h1
  have hq' := hq.trans hq1
  exact sorted_slotAxiom hs1 h1 quiet.keptOrAdded (fun hnew => wellBuilt_keptOrAdded (hs1.freshSlot h1).1
    (hf.later hs hq') ((hentry.slot written hlt).later hq') (Slot.Sorted.inside (hbody.out.slot written hlt) hq') hnew) h2

/-- The iterations of a flat loop start from the state before it. -/
theorem placed_enterFlat (h : s.Placed k L) (hf : f.Sorted L s) : (enterBody f s.snapshot s).Placed k L :=
  placed_enterBody h.sorted hf (Snapshot.Sorted.later h.snapshot (.refl _) hf.inside)
    (h.scope.later (.refl _) (prefix_refl _) (.refl 0 _) hf.inside (Nat.le_refl 0))

theorem placed_flatLoop (h : s.Placed k L) (hf : f.Sorted L s) (hgrows : Keeps Session.Grows f.body)
    (hbody : ∀ t, f.body (enterBody f s.snapshot s) = .ok ((), t) → t.Placed k L) (hrun : flatLoop f s = .ok ((), t)) :
    t.Placed k L := by
  obtain ⟨body, s1, changes, s2, -, h1, hplanned, h2, rfl⟩ := flatLoop_ok hrun
  obtain ⟨hs1, hst, hentry, hout, hscope⟩ := sorted_loopBody h.sorted hgrows hbody h1
  have hbeside := hst.beside
  have hpre : body.entry.Sorted k L s1.symbols s1.paramSorts := by
    rw [hentry]
    exact .beside h.snapshot h.sorted hbeside
  obtain ⟨hq, hs2, hchanges⟩ := sorted_mapM_slots (fun sort hsort =>
    slotStep_mergeIterations hs1 (hf.beside h.sorted hbeside) hpre hout (hplanned sort hsort)) (.refl _) hs1 h2
  refine ⟨hs2.atSnapshot _, ?_, ?_⟩
  · refine .withSlots ?_ hchanges
    show body.entry.Sorted k L s2.symbols s2.paramSorts
    rw [hq.paramSorts]
    exact hpre.later hq.symbols (prefix_refl _)
  · show s2.scope.Sorted k L s2.symbols s2.contexts .empty 0 s2.paramSorts
    rw [hq.scope, hscope]
    exact h.scope.beside h.sorted (hst.trans hq.toGrows).beside

/-! ## Chained loops -/

/-- The value that a carried variable starts an iteration with is named inside the loop, by a predicate over its sort. -/
structure Carry.Sorted (k : SortId → SortId) (L : Layout) (s : Session) (carry : Carry) : Prop where
  pred : s.HasPred k carry.pred [carry.sort]
  type : L.sortOf carry.type = .ok (some carry.sort)

variable {carry : Carry}

theorem Carry.Sorted.beside (h : carry.Sorted k L s) (hs : s.Sorted k L) (hst : s.Beside t) :
    carry.Sorted k L t := ⟨h.pred.beside hs hst, h.type⟩

theorem sorted_inputSlots {sorts : List SortId} (hs : s.Sorted k L) (hrun : sorts.mapM inputSlot s = .ok (inputs, t)) :
    s.Quiet t ∧ t.Sorted k L ∧ ∀ c ∈ inputs, c.1 ∈ sorts ∧ t.HasSlot k c.2 c.1 := by
  have hall := mapM_keeps (P := fun u => s.Quiet u ∧ u.Sorted k L)
    (Q := fun c u => c.1 ∈ sorts ∧ u.HasSlot k c.2 c.1) (fun sort hsort u c v hu h1 => ?_) ⟨.refl s, hs⟩ hrun
  · exact ⟨hall.1.1, hall.1.2, hall.2.1⟩
  · obtain ⟨slot, s2, h3, h1⟩ := bind_ok.1 h1
    cases pure_ok.1 h1
    have hq := quiet.freshSlot.of_ok h3
    obtain ⟨hs1, hslot⟩ := hu.2.freshSlot h3
    exact ⟨⟨hu.1.trans hq, hs1⟩, ⟨hsort, hslot⟩, fun _ hd => ⟨hd.1, hd.2.later hq⟩⟩

/-- Inside the loop, a carried variable has the value before the loop in the first iteration and a named one in the others. -/
theorem sorted_carryIn (hs : s.Sorted k L)
    (hcontext : s.context = f.child) (hkind : (s.contexts.get f.child).kind = .chained order)
    (hscope : s.scope.Sorted k L s.symbols s.contexts .empty 0 s.paramSorts) (hrun : carryIn L f name s = .ok (carry, t)) :
    s.Grows t ∧ t.contexts = s.contexts ∧ t.Sorted k L ∧ t.scope.Sorted k L t.symbols t.contexts .empty 0 t.paramSorts ∧
      carry.Sorted k L t := by
  obtain ⟨before, sort, p, s1, hbefore, hsort, h1, rfl, rfl⟩ := carryIn_ok hrun
  have hq := (quiet_freshPred ("carry_" ++ name) [sort]).of_ok h1
  obtain ⟨hs1, hp⟩ := hs.freshPred h1
  obtain ⟨a, hb⟩ := hscope name before hbefore
  obtain rfl : a = some sort := Except.ok.inj (hb.sortOf.symm.trans hsort)
  have hscope1 := hscope.quiet hq
  rw [← hq.scope] at hscope1
  have hparams : s1.paramSorts = (s1.contexts.get f.child).paramSorts := by
    rw [Session.paramSorts, hq.context, hcontext]
  have hlevel : s1.level = s.contexts.level f.child := by rw [Session.level, hq.context, hcontext, hq.table]
  refine ⟨hq.toGrows.trans (s1.grows_bind _ _), hq.table, hs1.bind _ _, Scope.Sorted.insert hscope1 ⟨hsort, hb.known, .of_sorted ?_, ?_⟩,
    ⟨hp, hsort⟩⟩
  · rw [ObjValue.Sorted, ObjValue.Sorted, hq.table]
    refine ⟨⟨order, hkind⟩, ?_, ?_, ?_⟩
    · have hsame : s1.paramSorts = (s.contexts.get f.child).paramSorts := by rw [hparams, hq.table]
      exact hsame ▸ prefix_refl _
    · rw [hq.paramSorts]
      exact hb.fits.sorted.later hq.symbols (prefix_refl _) (.refl 0 _) hb.settled (prefix_refl _)
    · rw [← hlevel, ← hq.table, ← hparams]
      exact hp
  · exact ⟨hb.settled, by simp [ObjValue.Settled]⟩

/-- Inside the loop: the session has grown from another one, and its variables are sorted there. -/
structure Carried (k : SortId → SortId) (L : Layout) (s t : Session) : Prop where
  grows : s.Grows t
  table : t.contexts = s.contexts
  sorted : t.Sorted k L
  scope : t.scope.Sorted k L t.symbols t.contexts .empty 0 t.paramSorts

theorem sorted_carryIns {names : List String} (hs : s.Sorted k L) (hcontext : s.context = f.child)
    (hkind : (s.contexts.get f.child).kind = .chained order)
    (hscope : s.scope.Sorted k L s.symbols s.contexts .empty 0 s.paramSorts)
    (hrun : names.mapM (carryIn L f) s = .ok (carries, t)) : Carried k L s t ∧ ∀ c ∈ carries, c.Sorted k L t := by
  have hall := mapM_keeps (P := Carried k L s) (Q := fun c u => c.Sorted k L u) (fun name _ u c v hu h1 => ?_)
    ⟨.refl s, rfl, hs, hscope⟩ hrun
  · exact ⟨hall.1, hall.2.1⟩
  · obtain ⟨hgrows, htable, hs1, hscope1, hc⟩ := sorted_carryIn hu.sorted (hu.grows.context.trans hcontext)
      (by rw [hu.table]; exact hkind) hu.scope h1
    exact ⟨⟨hu.grows.trans hgrows, htable.trans hu.table, hs1, hscope1⟩, hc, fun _ hd => hd.beside hu.sorted hgrows.beside⟩

/-- What the iterations of a chained loop start from: the slots and variables are sorted inside the loop. -/
structure Inputs (k : SortId → SortId) (L : Layout) (f : LoopFrame) (s t : Session) (inputs : List (SortId × Slot))
    (carries : List Carry) : Prop where
  grows : (s.inContext f.child).Grows t
  table : t.contexts = s.contexts
  sorted : t.Sorted k L
  slots : ∀ c ∈ inputs, c.1 ∈ f.plan.writes ∧ c.2.Sorted k t.symbols t.paramSorts c.1
  scope : t.scope.Sorted k L t.symbols t.contexts .empty 0 t.paramSorts
  carries : ∀ c ∈ carries, c.Sorted k L t

theorem sorted_iterationInputs (h : s.Placed k L) (hf : f.Sorted L s) (hkind : (s.contexts.get f.child).kind = .chained order)
    (hrun : iterationInputs L f (s.inContext f.child) = .ok ((inputs, carries), t)) : Inputs k L f s t inputs carries := by
  obtain ⟨s1, h1, h2⟩ := iterationInputs_ok hrun
  obtain ⟨hq, hs1, hslots⟩ := sorted_inputSlots (hf.sorted_inContext h.sorted) h1
  have hscope : s1.scope.Sorted k L s1.symbols s1.contexts .empty 0 s1.paramSorts := by
    rw [hq.scope]
    refine .quiet (s := s.inContext f.child) ?_ hq
    exact h.scope.later (.refl _) (prefix_refl _) (.refl 0 _) hf.inside (Nat.le_refl 0)
  have hkind1 : (s1.contexts.get f.child).kind = .chained order := by rw [hq.table]; exact hkind
  obtain ⟨⟨hgrows, htable, ht, hscopet⟩, hcarries⟩ := sorted_carryIns hs1 hq.context hkind1 hscope h2
  refine ⟨hq.toGrows.trans hgrows, htable.trans hq.table, ht, fun c hc => ⟨(hslots c hc).1, ?_⟩, hscopet, hcarries⟩
  rw [hgrows.beside.paramSorts hs1]
  exact (hslots c hc).2.mono hgrows.symbols

/-- The session in which the loop's body is encoded. -/
theorem placed_enterChained (h : s.Placed k L) (hf : f.Sorted L s) (hkind : (s.contexts.get f.child).kind = .chained order)
    (hrun : iterationInputs L f (s.inContext f.child) = .ok ((inputs, carries), s1)) :
    (enterBody f (s.snapshot.withSlots inputs) (s1.inContext s.context)).Placed k L := by
  have hin := sorted_iterationInputs h hf hkind hrun
  have hmade : s.Extends s1 := (s.extends_place _ _ _ _).trans hin.grows.extends
  have hcontext : s1.context = f.child := hin.grows.context
  have hparams : s1.paramSorts = (s1.contexts.get f.child).paramSorts := by rw [Session.paramSorts, hcontext]
  have hback := sorted_back h.sorted hin.sorted hmade hin.grows.guards
  have hbeside : s.Beside (s1.inContext s.context) := ⟨hmade.trans (s1.extends_place _ _ _ _), rfl⟩
  refine placed_enterBody hback (hf.beside h.sorted hbeside) (Snapshot.Sorted.withSlots ?_ fun c hc => ?_) ?_
  · show s.snapshot.Sorted k L s1.symbols (s1.contexts.get f.child).paramSorts
    rw [hin.table]
    exact .later h.snapshot hmade.symbols hf.inside
  · show c.2.Sorted k s1.symbols (s1.contexts.get f.child).paramSorts c.1
    rw [← hparams]
    exact (hin.slots c hc).2
  · show s1.scope.Sorted k L s1.symbols s1.contexts .empty 0 (s1.contexts.get f.child).paramSorts
    rw [← hparams]
    exact hin.scope

theorem sorted_threadCarry (hwf : L.store.WellFormed) (hs : s.Sorted k L)
    (hbody : body.Sorted k L s s.context) (hcarry : carry.Sorted k L s) (hrun : threadCarry L body carry s = .ok ((), t)) :
    t.Sorted k L := by
  obtain ⟨-, rfl⟩ | ⟨after, type, hafter, hjoin, haxiom⟩ := threadCarry_ok hrun
  · exact hs
  · obtain ⟨a, ha⟩ := hbody.scope carry.name after hafter
    obtain ⟨c, -, hsort, hcover⟩ := sortOf_joinStrict hwf.graph (ObjType.join_ok hjoin) hcarry.type ha.sortOf
    cases hsort.some_left
    exact hs.axiomOver (quiet.sameMembers (quiet_member L _))
      (wellBuilt_sameMembers hcarry.pred ⟨(ha.fits.mono hcover).sorted, ha.settled⟩) haxiom

/-- The order of a chained loop is declared over the positions around it and one or two of its objects. -/
theorem LoopFrame.Sorted.ordered (h : f.Sorted L s) (hs : s.Sorted k L)
    (hkind : (s.contexts.get f.child).kind = .chained order) : order.Sorted k s.symbols s.paramSorts f.sort := by
  obtain ⟨outer, sort, hsorts, horder⟩ := (hs.contexts.get f.child).order order hkind
  rw [h.params] at hsorts
  obtain ⟨rfl, hsort⟩ := append_inj' hsorts rfl
  cases hsort
  exact horder

/-- The formula for what an iteration starts with is well formed. -/
theorem wellBuilt_threadedSlot {start : Slot} (hparams : s.paramSorts = outer ++ [f.sort])
    (horder : order.Sorted k s.symbols outer f.sort) (hbefore : s.HasSlot k before written)
    (hafter : s.HasSlot k after written) (hstart : s.HasSlot k start written) :
    WellBuilt k L s (threadedSlot f order written before after start) := by
  intro s1 t Γ params F hq hb hrun
  obtain ⟨b, o, s2, bp, p, s3, b', o', h1, h2, h3, rfl⟩ := threadedSlot_ok hrun
  obtain ⟨hq1, hb1, ho, -, hadm⟩ := hb.binder h1
  obtain ⟨hq2, hb2, hp, hagree, hadmp⟩ := (hb.later hq1 hb1.sorted).binder h2
  obtain ⟨hq3, hb3, ho', hagree', hadm'⟩ := hb2.binder h3
  have hqt := hq.trans (hq1.trans (hq2.trans hq3))
  have hq23 := hq2.trans hq3
  have hb1' := hb1.later hq23 hb3.sorted
  have hb2' := hb2.later hq3 hb3.sorted
  have hlength : ∀ {Γ : SortEnv} {u : Session}, u.Building k L Γ params → u.paramSorts = s.paramSorts →
      params.length - 1 = outer.length := by
    intro Γ u hu hsorts
    rw [hu.params.length_eq, hsorts, hparams]
    simp
  have hsortst : t.paramSorts = outer ++ [f.sort] := hqt.paramSorts.trans hparams
  have horder' : order.Sorted k t.symbols outer f.sort := horder.mono hqt.symbols
  -- the parts of a position
  have hsplit : ∀ {Γ : SortEnv}, t.Building k L Γ params →
      t.HasTerms k Γ (params.take (params.length - 1)) outer ∧
        t.HasTerms k Γ (params.drop (params.length - 1)) [f.sort] := by
    intro Γ hbt
    have hn := hlength hbt hqt.paramSorts
    have hps := hbt.params
    rw [hsortst] at hps
    rw [hn]
    have htake := hps.take outer.length
    have hdrop := hps.drop outer.length
    rw [take_left] at htake
    rw [drop_left] at hdrop
    exact ⟨htake, hdrop⟩
  refine ⟨hb3.sorted, wellFormed_mkAnd (forall_mem_pair ?_ (wellFormed_mkForAll hadmp ?_))⟩
  · refine wellFormed_mkImplies ?_ (wellFormed_mkForAll hadm (wellFormed_mkIff
      (hb1'.wellFormed_slot (hstart.later hqt) (ho.later hq23)) (hb1'.wellFormed_slot (hbefore.later hqt) (ho.later hq23))))
    have hps := (hb.later (hq1.trans hq23) hb3.sorted).params
    rw [hsortst] at hps
    exact wellFormed_atom horder'.first hps.sorts
  · obtain ⟨houter, hcurrent⟩ := hsplit hb2'
    refine wellFormed_mkImplies ?_ (wellFormed_mkForAll hadm' (wellFormed_mkIff (hb3.wellFormed_slot (hstart.later hqt) ho') ?_))
    · rw [append_assoc]
      exact wellFormed_atom horder'.justBefore (houter.append ((hp.later hq3).append hcurrent)).sorts
    · obtain ⟨houter', -⟩ := hsplit hb3
      have hprevious := houter'.append ((hp.agree hagree' (Nat.le_refl _)).later hq3)
      rw [← hsortst] at hprevious
      exact (hafter.later hqt).wellFormed hprevious ho'

/-- Nothing is iterated at the position. -/
theorem wellFormed_nothingIterated (hb : s.Building k L Γ params) (hf : f.Sorted L s)
    (hrun : nothingIterated f params s = .ok (F, t)) : s.Quiet t ∧ t.Building k L Γ params ∧ F.WellFormed k t.symbols Γ := by
  obtain ⟨b, it, h1, rfl⟩ := nothingIterated_ok hrun
  obtain ⟨hq, hb1, hit, -, hadm⟩ := hb.binder h1
  refine ⟨hq, hb.later hq hb1.sorted, wellFormed_mkNot (wellFormed_mkForSome hadm ?_)⟩
  rw [← hq.table]
  exact wellFormed_iterates hb1 (hf.later hb.sorted hq) hit

theorem wellBuilt_lastSlot (hs : s.Sorted k L) (hf : f.Sorted L s) (horder : order.Sorted k s.symbols s.paramSorts f.sort)
    (hbefore : s.HasSlot k before written) (hafter : after.Sorted k s.symbols (s.contexts.get f.child).paramSorts written)
    (hnew : s.HasSlot k new written) : WellBuilt k L s (lastSlot f order written before after new) := by
  intro s1 t Γ params F hq hb hrun
  obtain ⟨nothing, s2, b, o, s3, bi, it, s4, b', o', h1, h2, h3, h4, rfl⟩ := lastSlot_ok hrun
  obtain ⟨hq1, hb1, hnothing⟩ := wellFormed_nothingIterated hb (hf.later hs hq) h1
  obtain ⟨hq2, hb2, ho, -, hadm⟩ := hb1.binder h2
  obtain ⟨hq3, hb3, hit, -, hadmi⟩ := (hb1.later hq2 hb2.sorted).binder h3
  obtain ⟨hq4, hb4, ho', hagree, hadm'⟩ := hb3.binder h4
  have hq34 := hq3.trans hq4
  have hqt := hq.trans (hq1.trans (hq2.trans hq34))
  have hb2' := hb2.later hq34 hb4.sorted
  have hb3' := hb3.later hq4 hb4.sorted
  refine ⟨hb4.sorted, wellFormed_mkAnd (forall_mem_pair ?_ (wellFormed_mkForAll hadmi ?_))⟩
  · refine wellFormed_mkImplies (WellFormed.mono (hq2.trans hq34).symbols hnothing) (wellFormed_mkForAll hadm (wellFormed_mkIff
      (hb2'.wellFormed_slot (hnew.later hqt) (ho.later hq34)) (hb2'.wellFormed_slot (hbefore.later hqt) (ho.later hq34))))
  · have hlast : t.HasPred k order.last [f.sort] := by
      refine .of_declares ?_ hb4.sorted.level_eq
      rw [hqt.paramSorts]
      exact horder.last.mono hqt.symbols
    refine wellFormed_mkImplies (hb3'.wellFormed_atom hlast (hit.later hq4)) (wellFormed_mkForAll hadm' (wellFormed_mkIff
      (hb4.wellFormed_slot (hnew.later hqt) ho') ?_))
    exact (Slot.Sorted.inside hafter hqt).wellFormed
      (ofSorts_inside hb4 (hf.later hs hqt) ((hit.agree hagree (Nat.le_refl _)).later hq4)) ho'

theorem slotStep_exitSlot {pre : Snapshot} (hs : s.Sorted k L)
    (hf : f.Sorted L s) (horder : order.Sorted k s.symbols s.paramSorts f.sort) (hpre : pre.Sorted k L s.symbols s.paramSorts)
    (hbody : body.Sorted k L s f.child) (hwritten : written ∈ f.plan.writes) :
    SlotStep k L s (exitSlot f order pre body written) := by
  intro s1 t c hq hs1 hrun
  obtain ⟨new, s2, h1, h2, rfl⟩ := exitSlot_ok hrun
  have hlt := hf.writes written hwritten
  have hq1 := quiet.freshSlot.of_ok h1
  have hq' := hq.trans hq1
  have horder' : order.Sorted k s2.symbols s2.paramSorts f.sort := by
    rw [hq'.paramSorts]
    exact horder.mono hq'.symbols
  exact sorted_slotAxiom hs1 h1 quiet.lastSlot (fun hnew => wellBuilt_lastSlot (hs1.freshSlot h1).1
    (hf.later hs hq') horder' ((hpre.slot written hlt).later hq') (Slot.Sorted.inside (hbody.out.slot written hlt) hq') hnew) h2

/-- The formula for the value of the last iteration is well formed. -/
theorem wellBuilt_lastValue {before after : ObjValue} (hs : s.Sorted k L) (hf : f.Sorted L s)
    (horder : order.Sorted k s.symbols s.paramSorts f.sort) (hp : s.HasPred k p [sort]) (hbefore : s.HasValue k L before sort)
    (hafter : (s.inContext f.child).HasValue k L after sort) : WellBuilt k L s (lastValue L f order sort p before after) := by
  intro s1 t Γ params F hq hb hrun
  obtain ⟨nothing, s2, b, o, s3, old, s4, bi, it, s5, b', o', s6, new, h1, h2, h3, h4, h5, h6, rfl⟩ := lastValue_ok hrun
  obtain ⟨hq1, hb1, hnothing⟩ := wellFormed_nothingIterated hb (hf.later hs hq) h1
  obtain ⟨hq2, hb2, ho, -, hadm⟩ := hb1.binder h2
  have hq12 := hq.trans (hq1.trans hq2)
  obtain ⟨hq3, hb3, hold⟩ := hb2.member (hbefore.later hq12) ho h3
  obtain ⟨hq4, hb4, hit, -, hadmi⟩ := (hb1.later (hq2.trans hq3) hb3.sorted).binder h4
  obtain ⟨hq5, hb5, ho', hagree, hadm'⟩ := hb4.binder h5
  have hq15 := hq12.trans (hq3.trans (hq4.trans hq5))
  have hposition := ofSorts_inside hb5 (hf.later hs hq15) ((hit.agree hagree (Nat.le_refl _)).later hq5)
  have hvalue : after.Sorted k L s6.symbols s6.contexts .empty (s6.contexts.get f.child).paramSorts sort := by
    rw [hq15.table]
    exact hafter.sorted.later hq15.symbols (prefix_refl _) (.refl 0 _) hafter.settled (prefix_refl _)
  obtain ⟨hq6, hb6, hnew⟩ := hb5.memberAt (hvalue.agree hb5.taken hafter.settled) (hafter.settled.mono (Nat.zero_le _)) hposition
    ho' h6
  have hqt := hq15.trans hq6
  have hq36 := hq3.trans (hq4.trans (hq5.trans hq6))
  have hb3' := hb3.later (hq4.trans (hq5.trans hq6)) hb6.sorted
  have hb4' := hb4.later (hq5.trans hq6) hb6.sorted
  refine ⟨hb6.sorted, wellFormed_mkAnd (forall_mem_pair ?_ (wellFormed_mkForAll hadmi ?_))⟩
  · have hnothing' := WellFormed.mono (hq2.trans hq36).symbols hnothing
    have hold' := WellFormed.mono (hq4.trans (hq5.trans hq6)).symbols hold
    refine wellFormed_mkImplies hnothing' (wellFormed_mkForAll hadm (wellFormed_mkIff ?_ hold'))
    exact hb3'.wellFormed_atom (hp.later hqt) (ho.later hq36)
  · have hlast : t.HasPred k order.last [f.sort] := by
      refine .of_declares ?_ hb6.sorted.level_eq
      rw [hqt.paramSorts]
      exact horder.last.mono hqt.symbols
    refine wellFormed_mkImplies (hb4'.wellFormed_atom hlast (hit.later (hq5.trans hq6))) (wellFormed_mkForAll hadm' (wellFormed_mkIff
      (hb6.wellFormed_atom (hp.later hqt) (ho'.later hq6)) hnew))

/-- What is known of a chained loop when its variables get their values after the loop. -/
structure Finished (k : SortId → SortId) (L : Layout) (f : LoopFrame) (order : ChainOrder) (pre : Scope) (body : LoopBody)
    (s : Session) : Prop where
  placed : s.Placed k L
  frame : f.Sorted L s
  order : order.Sorted k s.symbols s.paramSorts f.sort
  before : pre.Sorted k L s.symbols s.contexts .empty 0 s.paramSorts
  after : body.Sorted k L s f.child

theorem Finished.quiet (h : Finished k L f order pre body s)
    (hq : s.Quiet t) (ht : t.Sorted k L) : Finished k L f order pre body t := by
  refine ⟨h.placed.of_quiet hq ht, h.frame.later h.placed.sorted hq, ?_, h.before.quiet hq, h.after.later h.frame.child hq.extends⟩
  rw [hq.paramSorts]
  exact h.order.mono hq.symbols

theorem Finished.bind (h : Finished k L f order pre body s) {b : Binding}
    (hb : b.Sorted k L s.symbols s.contexts .empty 0 s.paramSorts a) : Finished k L f order pre body (s.bind name b) :=
  ⟨h.placed.bind hb, ⟨h.frame.child, h.frame.parent, h.frame.params, h.frame.iterator, h.frame.known, h.frame.writes⟩, h.order,
    h.before, ⟨h.after.out, h.after.scope⟩⟩

/-- The value of a variable after the loop is sorted. -/
theorem finished_exitValue (hwf : L.store.WellFormed) (h : Finished k L f order pre body s)
    (hrun : exitValue L f order pre body name s = .ok ((), t)) :
    Finished k L f order pre body t := by
  obtain ⟨-, rfl⟩ | ⟨before, after, type, v, s1, hbefore, hafter, hjoin, -, rfl, hcases⟩ := exitValue_ok hrun
  · exact h
  · obtain ⟨a, ha⟩ := h.before name before hbefore
    obtain ⟨b, hb⟩ := h.after.scope name after hafter
    have hstrict := ObjType.join_ok hjoin
    obtain ⟨c, hc, hac, hbc⟩ := sortOf_joinStrict hwf.graph hstrict ha.sortOf hb.sortOf
    have hknown := knows_joinStrict hwf.graph hstrict ha.sortOf hb.sortOf hc ha.known hb.known
    rcases hcases with ⟨-, rfl, rfl⟩ | ⟨sort, p, s2, hsort, h1, h2, rfl⟩
    · exact h.bind ⟨hc, hknown, sorted_empty _, by simp [ObjValue.Settled]⟩
    · obtain rfl : c = some sort := Except.ok.inj (hc.symm.trans hsort)
      have hq1 := (quiet_freshPred ("after_" ++ name) [sort]).of_ok h1
      have hold : s.HasValue k L before.value sort := ⟨(ha.fits.mono hac).sorted, ha.settled⟩
      have hnew : (s.inContext f.child).HasValue k L after.value sort := ⟨(hb.fits.mono hbc).sorted, hb.settled⟩
      have hnew1 : (s2.inContext f.child).HasValue k L after.value sort := by
        refine ⟨?_, hb.settled⟩
        have hlater := hnew.sorted.later hq1.symbols (prefix_refl _) (.refl 0 _) hb.settled (prefix_refl _)
        show after.value.Sorted k L s2.symbols s2.contexts .empty (s2.contexts.get f.child).paramSorts sort
        rw [hq1.table]
        exact hlater
      have hfin1 := h.quiet hq1 (h.placed.sorted.freshPred h1).1
      obtain ⟨hq, hs1, hpred⟩ := sorted_predAxiom h.placed.sorted h1 (quiet.lastValue (quiet_member L _) (quiet_member L _))
        (fun hp => wellBuilt_lastValue hfin1.placed.sorted hfin1.frame hfin1.order hp (hold.later hq1) hnew1) h2
      exact (h.quiet hq hs1).bind (binding_of_pred hpred hc hknown (hq1.level.trans hq.level.symm))

/-- The axioms that tie the iterations together. -/
theorem sorted_threads (hwf : L.store.WellFormed) {pre : Snapshot} (outer : List SortId) (hs : s.Sorted k L)
    (hparams : s.paramSorts = outer ++ [f.sort]) (horder : order.Sorted k s.symbols outer f.sort)
    (hpre : pre.Sorted k L s.symbols s.paramSorts) (hbody : body.Sorted k L s s.context) (hcarries : ∀ c ∈ carries, c.Sorted k L s)
    (hinputs : ∀ c ∈ inputs, c.1.index < sortCount L.store ∧ c.2.Sorted k s.symbols s.paramSorts c.1)
    (hrun : threads L f order pre body carries inputs s = .ok ((), t)) : t.Sorted k L := by
  obtain ⟨⟨⟩, s1, h1, h2⟩ := bind_ok.1 hrun
  have hq1 := (Keeps.forM (fun c => quiet_threadCarry L body c) carries).of_ok h1
  have hs1 : s1.Sorted k L := by
    refine (forM_keeps (P := fun u => s.Quiet u ∧ u.Sorted k L) (fun c hc u v hu h3 => ?_) ⟨.refl s, hs⟩ h1).2
    have hbody' : body.Sorted k L u u.context := by
      rw [hu.1.context]
      exact hbody.later hs.context hu.1.extends
    exact ⟨hu.1.trans ((quiet_threadCarry L body c).of_ok h3),
      sorted_threadCarry hwf hu.2 hbody' ((hcarries c hc).beside hs hu.1.toGrows.beside) h3⟩
  refine (forM_keeps (P := fun u => s.Quiet u ∧ u.Sorted k L) (fun c hc u v hu h3 => ?_) ⟨hq1, hs1⟩ h2).2
  obtain ⟨hlt, hstart⟩ := hinputs c hc
  have hbuilt : WellBuilt k L u (threadedSlot f order c.1 (pre.slot c.1) (body.out.slot c.1) c.2) :=
    wellBuilt_threadedSlot (hu.1.paramSorts.trans hparams) (horder.mono hu.1.symbols) ((hpre.slot c.1 hlt).later hu.1)
      (Slot.Sorted.later (hbody.out.slot c.1 hlt) hu.1) (hstart.later hu.1)
  exact ⟨hu.1.trans (quiet.threadSlot.of_ok h3), hu.2.axiomOver quiet.threadedSlot hbuilt h3⟩

/-- A chained loop leaves a sorted session, if its body does. -/
theorem placed_chainedLoop (hwf : L.store.WellFormed) (h : s.Placed k L) (hf : f.Sorted L s)
    (hgrows : Keeps Session.Grows f.body)
    (hbody : ∀ inputs carries s1 t, iterationInputs L f (s.inContext f.child) = .ok ((inputs, carries), s1) →
      f.body (enterBody f (s.snapshot.withSlots inputs) (s1.inContext s.context)) = .ok ((), t) → t.Placed k L)
    (hrun : chainedLoop L f s = .ok ((), t)) : t.Placed k L := by
  obtain ⟨order, inputs, carries, s1, body, s2, s3, changes, s4, hkind, h1, h2, -, h3, h4, h5⟩ := chainedLoop_ok hrun
  have hs := h.sorted
  have hin := sorted_iterationInputs h hf hkind h1
  have hmade1 : s.Extends s1 := (s.extends_place _ _ _ _).trans hin.grows.extends
  have hback := sorted_back hs hin.sorted hmade1 hin.grows.guards
  -- the body, and back at the place of the loop
  obtain ⟨hs2, hgrow2, -, hout, -⟩ := sorted_loopBody hback hgrows (fun t => hbody inputs carries s1 t h1) h2
  have hmade2 : s.Extends s2 := (hmade1.trans (s1.extends_place _ _ _ _)).trans hgrow2.extends
  have hcontext2 : s2.context = s.context := hgrow2.context
  have hbeside2 : s.Beside s2 := ⟨hmade2, hcontext2⟩
  have hf2 := hf.beside hs hbeside2
  -- inside the loop again, for the axioms between its iterations
  have hinside : Session.Sorted k L { s2 with scope := s.scope, context := f.child } :=
    hs2.at_place s2.guards f.child s2.snapshot s.scope hf2.child fun g hg => (hs2.guards g hg).deeper hf2.inside
  have hchild : s1.context = f.child := hin.grows.context
  have hover : s1.Beside { s2 with scope := s.scope, context := f.child } :=
    ⟨((s1.extends_place _ _ _ _).trans hgrow2.extends).trans (s2.extends_place _ _ _ _), hchild.symm⟩
  have hparams2 : (s2.contexts.get f.child).paramSorts = s2.paramSorts ++ [f.sort] := hf2.params
  have hkind2 : (s2.contexts.get f.child).kind = .chained order := by
    rw [Contexts.get_extend hmade2.contexts hf.child]
    exact hkind
  have horder2 := hf2.ordered hs2 hkind2
  have hpre2 : s.snapshot.Sorted k L s2.symbols s2.paramSorts := Snapshot.Sorted.beside h.snapshot hs hbeside2
  have hs3 : s3.Sorted k L := by
    refine sorted_threads hwf s2.paramSorts hinside hparams2 horder2 (hpre2.later (.refl _) hf2.inside)
      ⟨hout.out, hout.scope⟩ (fun c hc => (hin.carries c hc).beside hin.sorted hover) (fun c hc => ?_) h3
    obtain ⟨hwrites, hslot⟩ := hin.slots c hc
    refine ⟨hf.writes c.1 hwrites, ?_⟩
    rw [hover.paramSorts hin.sorted]
    exact hslot.mono hover.made.symbols
  have hq3 := (quiet_threads L f order s.snapshot body carries inputs).of_ok h3
  -- outside, for what holds after the loop
  have hmade23 : s2.Extends s3 := (s2.extends_place _ _ _ _).trans hq3.extends
  have hs3' : (s3.inContext s2.context).Sorted k L := sorted_back hs2 hs3 hmade23 hq3.guards
  have hbeside3 : s2.Beside (s3.inContext s2.context) := ⟨hmade23.trans (s3.extends_place _ _ _ _), rfl⟩
  have hf3 := hf2.beside hs2 hbeside3
  have horder3 : order.Sorted k (s3.inContext s2.context).symbols (s3.inContext s2.context).paramSorts f.sort := by
    refine hf3.ordered hs3' ?_
    rw [Contexts.get_extend hbeside3.made.contexts hf2.child]
    exact hkind2
  have hpre3 := hpre2.beside hs2 hbeside3
  have hout3 := hout.later hf2.child hbeside3.made
  obtain ⟨hq4, hs4, hchanges⟩ := sorted_mapM_slots (fun c hc => slotStep_exitSlot hs3' hf3 horder3 hpre3 hout3
    (hin.slots c hc).1) (.refl _) hs3' h4
  have hbeside4 : s.Beside s4 := (hbeside2.trans hbeside3).trans hq4.toGrows.beside
  have hscope4 : s4.scope = s.scope := hq4.scope.trans hq3.scope
  have hplaced4 : (s4.atSnapshot (s.snapshot.withSlots changes)).Placed k L := by
    refine ⟨hs4.atSnapshot _, (Snapshot.Sorted.beside h.snapshot hs hbeside4).withSlots hchanges, ?_⟩
    show s4.scope.Sorted k L s4.symbols s4.contexts .empty 0 s4.paramSorts
    rw [hscope4]
    exact h.scope.beside hs hbeside4
  have hbeside4' : s4.Beside (s4.atSnapshot (s.snapshot.withSlots changes)) := ⟨s4.extends_place _ _ _ _, rfl⟩
  have hf4 := (hf3.later hs3' hq4).beside hs4 hbeside4'
  have hfin : Finished k L f order s.scope body (s4.atSnapshot (s.snapshot.withSlots changes)) := by
    refine ⟨hplaced4, hf4, ?_, h.scope.beside hs (hbeside4.trans hbeside4'), ?_⟩
    · refine hf4.ordered hplaced4.sorted ?_
      show (s4.contexts.get f.child).kind = .chained order
      rw [hq4.table]
      exact (congrArg Context.kind (Contexts.get_extend hbeside3.made.contexts hf2.child)).trans hkind2
    · exact (hout3.later hf3.child hq4.extends).later (hf3.later hs3' hq4).child hbeside4'.made
  exact (forM_keeps (fun _ _ _ _ => finished_exitValue hwf) hfin h5).placed

end Encode

end StoreCheck
