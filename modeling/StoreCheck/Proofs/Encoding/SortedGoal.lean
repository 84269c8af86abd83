import StoreCheck.Proofs.Encoding.SortedWalk

/-!
# The theories of goals are well-formed

The base axioms of a store are well-formed, so the session that it starts is sorted. The walk over an action keeps this, and the
formulas that are assumed and checked are well-formed as well. With sorts counted as they are, a theory is well-formed if
alternatives bind each variable to sets of one sort (`wellFormed_preservation`); with all sorts counted as the same it always is.
-/

namespace StoreCheck

open List Formula VarGen Layout SortEnv StoreCheck.Flow

variable {k : SortId → SortId} {symbols : Symbols} {fs : List FormulaExpr} {t : Session} {a : Action} {name : String}
  {theory : Theory}

variable {L : Layout} {s : Session}

/-! ## Base axioms -/

theorem Fresh.forall_mem_mapM {α β : Type} {P : β → Prop} {f : α → Fresh β} : ∀ (l : List α) (g : VarGen),
    (∀ a ∈ l, ∀ g, P (f a g).1) → ∀ b ∈ ((l.mapM f : Fresh (List β)) g).1, P b
  | [], _, _, _, hb => by cases hb
  | a :: rest, g, h, b, hb => by
    rw [mapM_cons_run] at hb
    rcases mem_cons.1 hb with rfl | hb
    · exact h a (by simp) g
    · exact forall_mem_mapM rest (f a g).2 (fun a ha => h a (by simp [ha])) b hb

namespace Layout

theorem Declared.wellFormed_subclassAxioms (h : L.Declared k symbols) (hwf : L.store.WellFormed) {c : ClassId}
    (hc : c.index < L.graph.size) (g : VarGen) : ∀ F ∈ (L.subclassAxioms c g).1, F.WellFormed k symbols .empty := by
  refine Fresh.forall_mem_mapM _ g fun parent hparent g => ?_
  obtain ⟨hlt, hcomponent⟩ := hwf.graph.parents c parent hparent
  have ho := ofSorts_nameOf (k := k) (f := symbols.functions) (n := g.count) (L.classSort c) .empty
  have hadm : empty.Admits [⟨nameOf (g.count + 1), L.classSort c⟩] :=
    (avoids_empty g.count _).admits (Nat.lt_succ_self _) (Nat.le_refl _) _
  have hsort : L.classSort parent = L.classSort c := congrArg (fun i => L.componentSorts.getD i ⟨0⟩) hcomponent
  have hparent := h.wellFormed_isClass hlt (n := g.count + 1) (by rw [hsort]; exact ho)
  exact wellFormed_mkForAll hadm (wellFormed_mkImplies (h.wellFormed_isClass hc ho) hparent)

/-- Two variables that are taken one after the other, below a third. -/
theorem ofSorts_two (a b : SortId) (n : Nat) (Γ : SortEnv) :
    Term.OfSorts k f (Γ.bind [⟨nameOf (n + 1), a⟩, ⟨nameOf (n + 2), b⟩]) (n + 2)
        [.var (nameOf (n + 1))] [a] ∧
      Term.OfSorts k f (Γ.bind [⟨nameOf (n + 1), a⟩, ⟨nameOf (n + 2), b⟩]) (n + 2)
        [.var (nameOf (n + 2))] [b] :=
  ⟨(ofSorts_nameOf a Γ).agree (agree_bind_nameOf (Nat.lt_succ_self _) b _) (Nat.le_succ _),
    ofSorts_nameOf b (Γ.bind [⟨nameOf (n + 1), a⟩])⟩

theorem admits_two (a b : SortId) (n : Nat) :
    empty.Admits [⟨nameOf (n + 1), a⟩, ⟨nameOf (n + 2), b⟩] := by
  have hfree := avoids_empty n (n + 2)
  refine (hfree.admits (Nat.lt_succ_self n) (Nat.le_succ _) a).append ?_
  exact ((hfree.within (Nat.le_succ n) (Nat.le_refl _)).bind (Nat.le_refl _) a).admits (Nat.lt_succ_self _) (Nat.le_refl _) b

/-- The axioms for the tuples of a relation are well formed. -/
theorem Declared.wellFormed_tupleAxioms (hlaid : L.Laid symbols) (h : L.Declared k symbols)
    (hr : r ∈ L.store.baseRelations) (hts : List.lookup r.id L.tupleSorts = some ts) (g : VarGen) :
    ∀ F ∈ (L.tupleAxioms r ts g).1, F.WellFormed k symbols .empty := by
  have hrelation : r ∈ L.store.relations := (mem_filter.1 hr).1
  obtain ⟨hsource, htarget⟩ := hlaid.ends_base hr hts
  obtain ⟨hslt, htlt⟩ := hlaid.ends_lt hts
  have hone (n : Nat) : empty.Admits [⟨nameOf (n + 1), ts.sort⟩] :=
    (avoids_empty n _).admits (Nat.lt_succ_self _) (Nat.le_refl _) _
  have hisSource {Γ : SortEnv} {n : Nat} {o : Term} (ho : Term.OfSorts k symbols.functions Γ n [o] [ts.source]) :
      (L.isClass r.source o).WellFormed k symbols Γ := h.wellFormed_isClass (hlaid.store.source r hrelation) (hsource ▸ ho)
  have hisTarget {Γ : SortEnv} {n : Nat} {o : Term} (ho : Term.OfSorts k symbols.functions Γ n [o] [ts.target]) :
      (L.isClass r.target o).WellFormed k symbols Γ := h.wellFormed_isClass (hlaid.store.target r hrelation) (htarget ▸ ho)
  intro F hF
  change F ∈ [_, _, _, _] at hF
  simp only [mem_cons, not_mem_nil, or_false] at hF
  rcases hF with rfl | rfl | rfl | rfl
  · obtain ⟨hl, hr⟩ := h.ofSorts_ends hts (ofSorts_nameOf (n := g.count) ts.sort .empty)
    exact wellFormed_mkForAll (hone _) (wellFormed_mkAnd (forall_mem_pair (hisSource hl) (hisTarget hr)))
  · obtain ⟨h1, h2⟩ := ofSorts_two (k := k) (f := symbols.functions) ts.sort ts.sort (g.count + 1) .empty
    obtain ⟨hl1, hr1⟩ := h.ofSorts_ends hts h1
    obtain ⟨hl2, hr2⟩ := h.ofSorts_ends hts h2
    exact wellFormed_mkForAll (admits_two _ _ _) (wellFormed_mkImplies (wellFormed_mkAnd (forall_mem_pair
      (wellFormed_mkEq hl1.hasSort hl2.hasSort) (wellFormed_mkEq hr1.hasSort hr2.hasSort))) (wellFormed_mkEq h1.hasSort h2.hasSort))
  · obtain ⟨hx, hy⟩ := ofSorts_two (k := k) (f := symbols.functions) ts.source ts.target (g.count + 3) .empty
    have hfree := avoids_bind_binders [ts.source, ts.target] ⟨g.count + 3⟩
      (avoids_empty (g.count + 3) (g.count + 6))
    have hadm := hfree.admits (j := g.count + 6) (Nat.lt_succ_self _) (Nat.le_refl _) ts.sort
    obtain ⟨hl, hr⟩ := h.ofSorts_ends hts (ofSorts_nameOf (n := g.count + 5) ts.sort
      (empty.bind [⟨nameOf (g.count + 4), ts.source⟩, ⟨nameOf (g.count + 5), ts.target⟩]))
    have hagree := agree_bind_nameOf (Nat.lt_succ_self (g.count + 5)) ts.sort
      (empty.bind [⟨nameOf (g.count + 4), ts.source⟩, ⟨nameOf (g.count + 5), ts.target⟩])
    exact wellFormed_mkForAll (admits_two _ _ _) (wellFormed_mkImplies
      (wellFormed_mkAnd (forall_mem_pair (hisSource hx) (hisTarget hy))) (wellFormed_mkForSome hadm (wellFormed_mkAnd
        (forall_mem_pair (wellFormed_mkEq hl.hasSort (hx.agree hagree (Nat.le_succ _)).hasSort)
          (wellFormed_mkEq hr.hasSort (hy.agree hagree (Nat.le_succ _)).hasSort)))))
  · have ht := ofSorts_nameOf (k := k) (f := symbols.functions) (n := g.count + 6) ts.sort .empty
    obtain ⟨hl, hr⟩ := h.ofSorts_ends hts ht
    exact wellFormed_mkForAll (hone _) (wellFormed_mkImplies ((h.initial _ (hlaid.tupleSort_lt hts)).wellFormed .nil ht)
      (wellFormed_mkAnd (forall_mem_pair ((h.initial _ hslt).wellFormed .nil hl) ((h.initial _ htlt).wellFormed .nil hr))))

theorem Declared.wellFormed_baseAxioms (hlaid : L.Laid symbols) (h : L.Declared k symbols)
    (g : VarGen) : ∀ F ∈ (L.baseAxioms g).1, F.WellFormed k symbols .empty := by
  intro F hF
  rcases mem_append.1 (mem_filter.1 hF).1 with hF | hF
  · obtain ⟨Fs, hFs, hF⟩ := mem_flatten.1 hF
    refine Fresh.forall_mem_mapM (P := fun Fs => ∀ F ∈ Fs, F.WellFormed k symbols .empty) _ g (fun c hc g => ?_) Fs hFs F hF
    exact h.wellFormed_subclassAxioms hlaid.store (ClassGraph.mem_idsUpTo.1 hc) g
  · obtain ⟨Fs, hFs, hF⟩ := mem_flatten.1 hF
    refine Fresh.forall_mem_mapM (P := fun Fs => ∀ F ∈ Fs, F.WellFormed k symbols .empty) _ _ (fun r hr g => ?_) Fs hFs F hF
    obtain ⟨i, -, hts⟩ := hlaid.lookup_base hr
    simp only [hts]
    exact h.wellFormed_tupleAxioms hlaid hr hts g

end Layout

/-! ## The session that a store starts -/

variable {store : Store}

theorem Layout.placed_start (hwf : store.WellFormed) : (ofStore store).2.Placed k (ofStore store).1 := by
  have hlaid := laid_ofStore hwf
  have hdeclared : (ofStore store).1.Declared k (ofStore store).2.symbols := hlaid.declared
  refine ⟨⟨hdeclared, Contexts.sorted_initial _, ?_, ?_, ?_, ?_⟩, ⟨?_, hdeclared.initial⟩, Scope.Sorted.nil⟩
  · exact Nat.zero_lt_one
  · exact fun g hg => by cases hg
  · exact hdeclared.wellFormed_baseAxioms hlaid ⟨0⟩
  · exact fun c hc => by cases hc
  · show (ofStore store).1.initial.slots.length = _
    rw [hlaid.initial]
    simp

namespace Encode

/-- What exists initially is sorted in every session. -/
theorem sorted_initial (hlaid : L.Laid symbols) (h : s.Sorted k L) : L.initial.Sorted k L s.symbols [] :=
  ⟨by rw [hlaid.initial]; simp, h.declared.initial⟩

theorem placed_closedFormulas (hlaid : L.Laid symbols) {σ : Snapshot} (h : s.Placed k L)
    (hroot : s.paramSorts = []) (hσ : σ.Sorted k L s.symbols []) (hrun : formulas L [] fs [] (s.atSnapshot σ) = .ok (Fs, t)) :
    s.symbols.Grows t.symbols ∧ t.Placed k L ∧ t.paramSorts = [] ∧ ∀ F ∈ Fs, F.WellFormed k t.symbols .empty := by
  have hs := h.atSnapshot (hroot ▸ hσ)
  have hq := (quiet_formulas L [] fs []).of_ok hrun
  obtain ⟨ht, hF⟩ := wellFormed_formulas (fun f _ => wellFormed_formula hlaid f) ⟨hs.sorted.closed hroot, hs.snapshot, Scope.Sorted.nil⟩ hrun
  exact ⟨hq.symbols, hs.of_quiet hq ht, hq.paramSorts.trans hroot, hF⟩

theorem placed_walk (hlaid : L.Laid symbols)
    (hcoherent : everywhereOf L.store (coherent L.store) a = true ∨ Loose k) (h : s.Placed k L)
    (hfollows : s.Follows []) (hroot : s.paramSorts = []) (hrun : walk L a s = .ok ((), t)) :
    t.Placed k L ∧ t.paramSorts = [] := by
  obtain ⟨⟨⟩, s1, h1, h2⟩ := bind_ok.1 hrun
  obtain ⟨hs1, hroot1⟩ := placed_params hlaid h hroot h1
  obtain ⟨types, htypes, hfollows1, -⟩ := follows_params a.params hfollows h1
  have ht := placed_block hlaid a.block (hcoherent.imp_left fun hc => by
    unfold everywhereOf at hc
    simp only [htypes] at hc
    exact hc) s1 t hs1 hfollows1 h2
  exact ⟨ht, (((grows_block L a.block).of_ok h2).beside.paramSorts hs1.sorted).trans hroot1⟩

theorem placed_action (hlaid : L.Laid symbols)
    (hcoherent : everywhereOf L.store (coherent L.store) a = true ∨ Loose k) (h : s.Placed k L)
    (hfollows : s.Follows []) (hroot : s.paramSorts = []) (hrun : action L a s = .ok ((), t)) :
    t.Placed k L ∧ t.paramSorts = [] := by
  obtain ⟨s1, s2, h1, h2, h3⟩ := action_ok hrun
  obtain ⟨hs1, hroot1⟩ := placed_walk hlaid hcoherent h hfollows hroot h1
  have hq := quiet.distinctAxioms.of_ok h2
  have hs2 := hs1.of_quiet hq (sorted_distinctAxioms hs1.sorted hroot1 h2)
  exact placed_finalSlots (fun sort hsort => hlaid.mem_sorts.1 hsort) hs2 (hq.paramSorts.trans hroot1) h3

theorem placed_asserted (hlaid : L.Laid symbols) (h : s.Placed k L) (hroot : s.paramSorts = [])
    (hrun : fs.forM (assertInitially L) s = .ok ((), t)) : t.Placed k L := by
  refine (forM_keeps (P := fun u => u.Placed k L ∧ u.paramSorts = []) (fun f _ u v hu h1 => ?_) ⟨h, hroot⟩ hrun).1
  obtain ⟨F, s2, h1, hemit⟩ := bind_ok.1 h1
  obtain ⟨Fs, hFs, rfl⟩ := closedFormulas_ok h1
  obtain ⟨-, hs2, hroot2, hF⟩ := placed_closedFormulas hlaid hu.1 hu.2 (sorted_initial hlaid hu.1.sorted) hFs
  have hq := (quiet_emit (mkAnd Fs)).of_ok hemit
  exact ⟨hs2.of_quiet hq (hs2.sorted.emit (wellFormed_mkAnd hF) hemit), hq.paramSorts.trans hroot2⟩

end Encode

/-! ## Theories -/

theorem Layout.follows_start (store : Store) : (ofStore store).2.Follows [] := ⟨fun _ => rfl, VarMap.distinct_nil⟩

/-- All formulas of the theory of a preservation goal are well-formed. -/
theorem wellFormed_preservation (hwf : store.WellFormed)
    (hcoherent : everywhereOf store (coherent store) a = true ∨ Loose k)
    (h : preservationTheory store a assumed checked name = .ok theory) :
    ∀ F ∈ theory.axioms ++ theory.conjectures, F.WellFormed k theory.symbols .empty := by
  obtain ⟨-, F, final, -, hrun, rfl⟩ := preservationTheory_ok h
  obtain ⟨s1, s2, Fs, Gs, haction, hassumed, hchecked, rfl⟩ := Encode.preservation_ok hrun
  have hlaid := laid_ofStore hwf
  obtain ⟨hs1, hroot1⟩ := Encode.placed_action hlaid hcoherent (placed_start hwf) (follows_start store) rfl
    haction
  obtain ⟨hgrows, hs2, hroot2, hFs⟩ :=
    Encode.placed_closedFormulas hlaid hs1 hroot1 (Encode.sorted_initial hlaid hs1.sorted) hassumed
  have hfinal : s1.snapshot.Sorted k (ofStore store).1 s2.symbols [] :=
    Snapshot.Sorted.later (hroot1 ▸ hs1.snapshot) hgrows (prefix_refl _)
  obtain ⟨hgrows', ht, -, hGs⟩ := Encode.placed_closedFormulas hlaid hs2 hroot2 hfinal hchecked
  intro G hG
  rcases mem_append.1 hG with hG | hG
  · exact ht.sorted.axioms G hG
  · rw [mem_singleton.1 hG]
    exact wellFormed_mkImplies (wellFormed_mkAnd fun F hF => WellFormed.mono hgrows' (hFs F hF)) (wellFormed_mkAnd hGs)

/-- All formulas of the theory of a consistency goal are well-formed. -/
theorem wellFormed_consistency (hwf : store.WellFormed) (h : consistencyTheory store formulas name = .ok theory) :
    ∀ F ∈ theory.axioms ++ theory.conjectures, F.WellFormed k theory.symbols .empty := by
  obtain ⟨final, hrun, rfl⟩ := consistencyTheory_ok h
  have hlaid := laid_ofStore hwf
  have ht := Encode.placed_asserted (k := k) hlaid (placed_start hwf) rfl hrun
  intro G hG
  rcases mem_append.1 hG with hG | hG
  · exact ht.sorted.axioms G hG
  · rw [mem_singleton.1 hG]
    exact wellFormed_bot

end StoreCheck
