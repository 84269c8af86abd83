import StoreCheck.Proofs.Encoding.SortedUpdates

/-!
# Alternatives add well-formed axioms

Where alternatives meet, a variable is bound to a value that holds what its value in the taken alternative holds. The types of the
alternatives are joined there without a check, so the joined type may have another sort than the values: the join of two
unrelated types is the bottom, which is dropped by the next join. `Flow.coherent` says that this does not happen. Then the merged
scope is sorted; if all sorts count as the same, it is sorted in any case.
-/

namespace StoreCheck

open List Formula Layout StoreCheck.Flow ClassGraph

variable {a b c : Option SortId} {L : Layout} {symbols : Symbols} {t s1 s2 : Session} {p skipped taken : PredId} {σ : Snapshot}
  {types : TypeEnv} {values : List (Option ObjValue)} {indicators : List PredId} {outs : List TypeEnv} {condition : FormulaExpr}
  {n : Nat}

/-! ## Where alternatives meet -/

namespace Flow

/-- Where the paths meet, a variable that is not of the bottom type on a path has the component of its merged type. -/
def meets (g : ClassGraph) (outs : List TypeEnv) : Bool :=
  (mergeEnvs g outs).all fun (name, merged) => outs.all fun out =>
    match out.find? name with
    | some type => type.signature.isBottom || g.componentOfSignature type.signature == g.componentOfSignature merged.signature
    | none => true

/-- The alternatives of the statement bind each variable to sets of one component. -/
def coherent (store : Store) (types : TypeEnv) : Statement → Bool
  | .ifElse _ thenBlock elseBlock =>
    match blocks store types [thenBlock, elseBlock] with
    | .ok outs => meets store.graph outs
    | .error _ => true
  | .either (first :: second :: rest) =>
    match blocks store types (first :: second :: rest) with
    | .ok outs => meets store.graph outs
    | .error _ => true
  | _ => true

end Flow

/-- All sorts count as the same. -/
def Loose (k : SortId → SortId) : Prop := ∀ a b, k a = k b

variable {k : SortId → SortId}

namespace Layout

variable {L : Layout} {u : ObjType}

/-- Types that are joined without a check have a sort: that of one of them, or none. -/
theorem sortOf_merge {t : ObjType} (hg : L.graph.Coherent) (ht : L.sortOf t = .ok a) (hu : L.sortOf u = .ok b) :
    ∃ c, L.sortOf (t.merge L.graph u) = .ok c ∧ (c = none ∨ c = a ∨ c = b) := by
  by_cases hstrict : (!t.signature.isBottom && !u.signature.isBottom && (L.graph.join t.signature u.signature).isBottom) = true
  · simp only [Bool.and_eq_true] at hstrict
    exact ⟨none, sortOf_none_iff.2 hstrict.2, .inl rfl⟩
  · have hjoin : L.graph.joinStrict t.signature u.signature = .ok (t.merge L.graph u).signature := if_neg hstrict
    obtain ⟨c, hc, hac, hbc⟩ := sortOf_joinStrict hg hjoin ht hu
    refine ⟨c, hc, ?_⟩
    rcases hac with rfl | rfl
    · rcases hbc with rfl | rfl
      · left
        have hbot : (t.merge L.graph u).signature = u.signature := by
          rw [joinStrict_ok _ hjoin, ClassGraph.join, if_pos (sortOf_none_iff.1 ht)]
        rw [sortOf_congr hbot, hu] at hc
        exact (Option.some.inj (congrArg Except.toOption hc)).symm
      · exact .inr (.inr rfl)
    · exact .inr (.inl rfl)

theorem sortOf_bottom : L.sortOf .bottom = .ok none := sortOf_none_iff.2 rfl

/-- A variable that has a sort in every alternative that binds it has one where they meet. -/
theorem sortOf_mergeTypes (hg : L.graph.Coherent) (types : List (Option ObjType))
    (h : ∀ o ∈ types, ∃ a, L.sortOf (o.getD .bottom) = .ok a ∧ L.Knows a) :
    ∃ c, L.sortOf (Encode.mergeTypes L.graph types) = .ok c ∧ L.Knows c := by
  cases types with
  | nil => exact ⟨none, sortOf_bottom, knows_none⟩
  | cons first rest =>
    obtain ⟨hfirst, hrest⟩ := forall_mem_cons.1 h
    show ∃ c, L.sortOf (rest.foldl (fun t u => t.merge L.graph (u.getD .bottom)) (first.getD .bottom)) = .ok c ∧ L.Knows c
    clear h
    generalize first.getD .bottom = acc at hfirst
    induction rest generalizing acc with
    | nil => exact hfirst
    | cons o rest ih =>
      obtain ⟨a, ha, hka⟩ := hfirst
      obtain ⟨⟨b, hb, hkb⟩, hrest⟩ := forall_mem_cons.1 hrest
      obtain ⟨c, hc, hcases⟩ := sortOf_merge hg ha hb
      have hkc : L.Knows c := by rcases hcases with rfl | rfl | rfl <;> first | exact knows_none | assumption
      exact ih hrest _ ⟨c, hc, hkc⟩

/-- Types of one component have one sort. -/
theorem sortOf_eq_of_component {t : ObjType} (ht : L.sortOf t = .ok a) (hbottom : t.signature.isBottom = false)
    (h : L.graph.componentOfSignature t.signature = L.graph.componentOfSignature u.signature) : L.sortOf u = .ok a := by
  cases a with
  | none => rw [sortOf_none_iff.1 ht] at hbottom; cases hbottom
  | some sort =>
    obtain ⟨-, component, hwithin, rfl⟩ := sortOf_some_iff.1 ht
    rw [componentOfSignature_some.2 ⟨hbottom, hwithin⟩] at h
    obtain ⟨hu, hwithin'⟩ := componentOfSignature_some.1 h.symm
    exact sortOf_some_iff.2 ⟨hu, component, hwithin', rfl⟩

end Layout

theorem ObjValue.Fits.anywhere {v : ObjValue} (hk : Loose k) (h : v.Fits k L symbols cs Γ ps a) :
    v.Fits k L symbols cs Γ ps b := by
  intro sort _
  cases a with
  | none => exact h sort (.inl rfl)
  | some sort' => exact (h.sorted).congr (hk sort' sort)

/-! ## The place of a session -/

namespace Session

variable {s : Session}

/-- The second session is at the same place of the nesting and has everything that the first one has made. -/
structure Beside (s t : Session) : Prop where
  made : s.Extends t
  context : t.context = s.context

theorem Beside.trans (h : s.Beside t) (h' : t.Beside u) : s.Beside u :=
  ⟨h.made.trans h'.made, h'.context.trans h.context⟩

theorem Grows.beside (h : s.Grows t) : s.Beside t := ⟨h.extends, h.context⟩

theorem Beside.paramSorts (h : s.Beside t) (hs : s.Sorted k L) : t.paramSorts = s.paramSorts := by
  unfold Session.paramSorts
  rw [h.context, Contexts.get_extend h.made.contexts hs.context]

theorem Beside.level (h : s.Beside t) (hs : s.Sorted k L) : t.level = s.level := by
  unfold Session.level Contexts.level
  rw [h.context, Contexts.get_extend h.made.contexts hs.context]

theorem Beside.in_table (h : s.Beside t) (hs : s.Sorted k L) : t.context.index < t.contexts.table.length := by
  rw [h.context]
  exact Nat.lt_of_lt_of_le hs.context h.made.contexts.length_le

end Session

section Places

variable {s : Session}

theorem Session.HasPred.beside (h : s.HasPred k p extra) (hs : s.Sorted k L) (hst : s.Beside t) : t.HasPred k p extra := by
  unfold HasPred
  rw [hst.paramSorts hs, hst.level hs]
  exact Symbols.Takes.mono h hst.made.symbols

theorem Snapshot.Sorted.beside (h : σ.Sorted k L s.symbols s.paramSorts) (hs : s.Sorted k L) (hst : s.Beside t) :
    σ.Sorted k L t.symbols t.paramSorts := by
  rw [hst.paramSorts hs]
  exact h.later hst.made.symbols (prefix_refl _)

theorem Scope.Sorted.beside {scope : Scope} (h : scope.Sorted k L s.symbols s.contexts .empty 0 s.paramSorts)
    (hs : s.Sorted k L) (hst : s.Beside t) : scope.Sorted k L t.symbols t.contexts .empty 0 t.paramSorts := by
  rw [hst.paramSorts hs]
  exact h.later hst.made.symbols hst.made.contexts (.refl 0 _) (prefix_refl _) (Nat.le_refl 0)

theorem Session.Sorted.guards_beside (hs : s.Sorted k L) (hst : s.Beside t) :
    ∀ g ∈ s.guards, t.symbols.Takes k g.indicator t.paramSorts g.depth [] := by
  intro g hg
  rw [hst.paramSorts hs]
  exact (hs.guards g hg).mono hst.made.symbols

end Places

namespace Encode

variable {L : Layout} {s entry : Session}

/-- Where the session is sorted and has the types of the flow, a successful run leaves it sorted. -/
def Places (k : SortId → SortId) (L : Layout) (types : TypeEnv) (run : Encode Unit) : Prop :=
  ∀ s t, s.Placed k L → s.Follows types → run s = .ok ((), t) → t.Placed k L

/-! ## The alternatives -/

/-- The end of an alternative is sorted. -/
structure Exit.Sorted (k : SortId → SortId) (L : Layout) (s : Session) (e : Exit) : Prop where
  indicator : s.HasPred k e.indicator []
  snapshot : e.snapshot.Sorted k L s.symbols s.paramSorts
  scope : e.scope.Sorted k L s.symbols s.contexts .empty 0 s.paramSorts

variable {e : Exit} {exits : List Exit} {sort : SortId} {d : Nat}

theorem Exit.Sorted.beside (h : e.Sorted k L s) (hs : s.Sorted k L) (hst : s.Beside t) : e.Sorted k L t :=
  ⟨h.indicator.beside hs hst, h.snapshot.beside hs hst, h.scope.beside hs hst⟩

/-- An alternative starts from the entry state, under its indicator. -/
theorem placed_enterAlternative (hentry : entry.Placed k L) (hp : entry.HasPred k p []) (hs : s.Sorted k L)
    (hover : entry.Beside s) : (enterAlternative entry p s).Placed k L := by
  have hsorted := hentry.sorted
  have henter : entry.Beside (enterAlternative entry p s) := hover.trans ⟨s.extends_place _ _ _ _, rfl⟩
  refine ⟨⟨hs.declared, hs.contexts, hs.context, fun g hg => ?_, hs.axioms, hs.creations⟩,
    Snapshot.Sorted.beside hentry.snapshot hsorted henter, hentry.scope.beside hsorted henter⟩
  rcases mem_append.1 hg with hg | hg
  · exact hsorted.guards_beside henter g hg
  · rw [mem_singleton.1 hg]
    have htakes := hp.beside hsorted henter
    unfold Session.HasPred at htakes
    rwa [henter.level hsorted] at htakes

/-- The alternatives of a branch, one after another, leave sorted exits. -/
theorem sorted_runAlternatives (hentry : entry.Placed k L) (hfollows : entry.Follows types) :
    ∀ (alternatives : List (PredId × Encode Unit)), (∀ a ∈ alternatives, entry.HasPred k a.1 []) →
      (∀ a ∈ alternatives, Keeps Session.Grows a.2) → (∀ a ∈ alternatives, Places k L types a.2) →
      ∀ {s t : Session} {exits : List Exit}, s.Sorted k L → entry.Beside s →
        runAlternatives entry alternatives s = .ok (exits, t) →
        t.Sorted k L ∧ entry.Beside t ∧ ∀ e ∈ exits, e.Sorted k L t
  | [], _, _, _, _, _, _, hs, hover, hrun => by
    obtain ⟨rfl, rfl⟩ := runAlternatives_nil_ok hrun
    exact ⟨hs, hover, by simp⟩
  | (p, run) :: rest, hpreds, hgrows, hplaces, s, t, _, hs, hover, hrun => by
    obtain ⟨s1, others, h1, h2, rfl⟩ := runAlternatives_cons_ok hrun
    obtain ⟨hp, hpreds⟩ := forall_mem_cons.1 hpreds
    obtain ⟨hgrow, hgrows⟩ := forall_mem_cons.1 hgrows
    obtain ⟨hplace, hplaces⟩ := forall_mem_cons.1 hplaces
    have hstart := placed_enterAlternative hentry hp hs hover
    have hs1 : s1.Placed k L := hplace _ _ hstart ⟨hfollows.alike, hfollows.distinct⟩ h1
    have henter : s.Beside (enterAlternative entry p s) := ⟨s.extends_place _ _ _ _, rfl⟩
    have hover1 := (hover.trans henter).trans (hgrow.of_ok h1).beside
    obtain ⟨ht, hovert, hothers⟩ := sorted_runAlternatives hentry hfollows rest hpreds hgrows hplaces hs1.sorted hover1 h2
    have hafter : s1.Beside t := by
      obtain ⟨hmade, hcontext⟩ := extends_runAlternatives entry rest hgrows h2
      exact ⟨hmade, hcontext⟩
    refine ⟨ht, hovert, fun e he => ?_⟩
    rcases mem_cons.1 he with rfl | he
    · have hexit : Exit.Sorted k L s1 ⟨p, s1.snapshot, s1.scope⟩ :=
        ⟨hp.beside hentry.sorted hover1, hs1.snapshot, hs1.scope⟩
      exact hexit.beside hs1.sorted hafter
    · exact hothers e he

/-! ## What is merged -/

theorem wellBuilt_takenSlot (hsort : sort.index < sortCount L.store) {merged : Slot}
    (hexits : ∀ e ∈ exits, e.Sorted k L s) (hmerged : s.HasSlot k merged sort)
    (hd : d = s.level) : WellBuilt k L s (takenSlot exits sort d merged) := by
  intro s1 t Γ params F hq hb hrun
  obtain ⟨b, o, h1, rfl⟩ := takenSlot_ok hrun
  obtain ⟨hq1, hb1, ho, -, hadm⟩ := hb.binder h1
  have hq' := hq.trans hq1
  refine ⟨hb1.sorted, wellFormed_mkForAll hadm (wellFormed_mkIff (hb1.wellFormed_slot (hmerged.later hq') ho) ?_)⟩
  refine wellFormed_mkOr fun F hF => ?_
  obtain ⟨e, he, rfl⟩ := mem_map.1 hF
  have hslot := hb1.wellFormed_slot (((hexits e he).snapshot.slot sort hsort).later hq') ho
  have hindicator := hb1.wellFormed_atom ((hexits e he).indicator.later hq') (.nil)
  have hlength : params.length = d := by
    rw [hb1.params.length_eq, ← hb1.sorted.level_eq, hq'.level, hd]
  rw [append_nil] at hindicator
  rw [take_of_length_le (Nat.le_of_eq hlength)]
  exact wellFormed_mkAnd (forall_mem_pair hindicator hslot)

theorem Exit.Sorted.later (h : e.Sorted k L s) (hs : s.Sorted k L) (hq : s.Quiet t) : e.Sorted k L t :=
  h.beside hs hq.toGrows.beside

theorem slotStep_mergeSlot (hs : s.Sorted k L) (hexits : ∀ e ∈ exits, e.Sorted k L s)
    (hsort : sort.index < sortCount L.store) : SlotStep k L s (mergeSlot exits sort) := by
  intro s1 t c hq hs1 hrun
  obtain ⟨merged, s2, h1, h2, rfl⟩ := mergeSlot_ok hrun
  have hq1 := quiet.freshSlot.of_ok h1
  have hexits2 : ∀ e ∈ exits, e.Sorted k L s2 := fun e he => (hexits e he).later hs (hq.trans hq1)
  exact sorted_slotAxiom hs1 h1 quiet.takenSlot
    (fun hmerged => wellBuilt_takenSlot hsort hexits2 hmerged hq1.level.symm) h2

/-- The merged value of a variable holds, in each alternative, what its value there holds. -/
theorem fits_mergeValues (hexits : ∀ e ∈ exits, e.Sorted k L s)
    (hvalues : ∀ v, some v ∈ values → v.Fits k L s.symbols s.contexts .empty s.paramSorts c) (hd : d = s.level) :
    (mergeValues d (exits.map (·.indicator)) values).Fits k L s.symbols s.contexts .empty s.paramSorts c := by
  have hmerged : (ObjValue.merge d (exits.map (·.indicator)) (values.map (·.getD .empty))).Fits k L s.symbols s.contexts .empty
      s.paramSorts c := by
    intro sort hsort
    rw [ObjValue.Sorted, ObjValue.allSorted_iff]
    constructor
    · intro p hp
      obtain ⟨e, he, rfl⟩ := mem_map.1 hp
      rw [hd]
      exact (hexits e he).indicator
    · intro v hv
      obtain ⟨o, ho, rfl⟩ := mem_map.1 hv
      cases o with
      | none => rw [Option.getD_none, ObjValue.Sorted]; trivial
      | some v => exact hvalues v ho sort hsort
  unfold mergeValues
  split
  · rename_i first rest
    split
    · exact hvalues first (by simp)
    · exact hmerged
  · exact hmerged

theorem settled_mergeValues (h : ∀ v, some v ∈ values → v.Settled 0) : (mergeValues d indicators values).Settled 0 := by
  have hmerged : (ObjValue.merge d indicators (values.map (·.getD .empty))).Settled 0 := by
    rw [ObjValue.Settled, ObjValue.allSettled_iff]
    intro v hv
    obtain ⟨o, ho, rfl⟩ := mem_map.1 hv
    cases o with
    | none => simp [ObjValue.Settled]
    | some v => exact h v ho
  unfold mergeValues
  split
  · rename_i first rest
    split
    · exact h first (by simp)
    · exact hmerged
  · exact hmerged

/-- Where alternatives meet, the sort of a variable in each of them is that of its merged type. -/
theorem covers_of_meets {b : Binding} (hmeets : meets L.graph outs = true) (hfollow : List.Forall₂ ExitFollows outs exits)
    (he : e ∈ exits) (hb : e.scope.find? x = some b) (ha : L.sortOf b.type = .ok a)
    (hc : L.sortOf (mergeTypes L.graph (exits.map fun e => (e.scope.find? x).map (·.type))) = .ok c) : Covers a c := by
  cases hbottom : b.type.signature.isBottom with
  | true =>
    rw [sortOf_none_iff.2 hbottom] at ha
    cases ha
    exact .inl rfl
  | false =>
    -- the variable in the flow has the same signature, and so has the merged one
    obtain ⟨i, hi⟩ := mem_iff_getElem?.1 he
    obtain ⟨out, hout⟩ : ∃ out, outs[i]? = some out := by
      have hlength := hfollow.length_eq
      have hlt := (List.getElem?_eq_some_iff.1 hi).1
      exact ⟨outs[i], getElem?_eq_getElem (by omega)⟩
    have hexit : ExitFollows out e := by
      have := forall₂_iff_get.1 hfollow
      obtain ⟨hilt, rfl⟩ := List.getElem?_eq_some_iff.1 hi
      obtain ⟨hilt', rfl⟩ := List.getElem?_eq_some_iff.1 hout
      exact this.2 i hilt' hilt
    have hfind : VarMap.find? (Scope.types e.scope) x = some b.type := by rw [Scope.find?_types, hb]; rfl
    obtain ⟨type, htype, hsame⟩ := hexit.1.symm.find? hfind
    have hmem : out ∈ outs := mem_of_getElem? hout
    have hx : x ∈ sortNames (outs.flatMap VarMap.names) := by
      rw [mem_sortNames, mem_flatMap]
      exact ⟨out, hmem, (VarMap.mem_names_iff out x).2 (by rw [htype]; rfl)⟩
    have hmerged : (x, mergeTypes L.graph (outs.map (·.find? x))) ∈ Flow.mergeEnvs L.graph outs :=
      mem_map.2 ⟨x, hx, rfl⟩
    have hcheck := all_eq_true.1 (all_eq_true.1 hmeets _ hmerged) out hmem
    simp only [htype, hsame, hbottom, Bool.false_or, beq_iff_eq] at hcheck
    have hsignature : (mergeTypes L.graph (outs.map (·.find? x))).signature =
        (mergeTypes L.graph (exits.map fun e => (e.scope.find? x).map (·.type))).signature := by
      rw [Flow.signature_mergeTypes, Flow.signature_mergeTypes, map_map, map_map]
      congr 2
      clear hmeets he hi hout hmem hx hmerged hcheck hc
      induction hfollow with
      | nil => rfl
      | cons hp _ ih =>
        rw [map_cons, map_cons, ih]
        have hsig := hp.1 x
        simp only [TypeEnv.signatureOf?, Scope.find?_types] at hsig
        simp only [Function.comp, hsig]
    rw [hsignature] at hcheck
    have hsort := Layout.sortOf_eq_of_component ha hbottom hcheck
    rw [hc] at hsort
    cases hsort
    exact .refl _

/-- The scope after alternatives is sorted. -/
theorem sorted_mergeScopes (hwf : L.store.WellFormed) (hexits : ∀ e ∈ exits, e.Sorted k L s)
    (hfollow : List.Forall₂ ExitFollows outs exits) (hmeets : meets L.graph outs = true ∨ Loose k) (hd : d = s.level) :
    Scope.Sorted k L s.symbols s.contexts .empty 0 s.paramSorts (mergeScopes L.graph d exits) := by
  intro x b hb
  unfold mergeScopes at hb
  rw [VarMap.find?_ofNames] at hb
  split at hb
  swap
  · cases hb
  cases hb
  have hbound : ∀ v, some v ∈ (exits.map fun e => e.scope.find? x).map (·.map (·.value)) →
      ∃ e ∈ exits, ∃ b a, e.scope.find? x = some b ∧ b.value = v ∧ b.Sorted k L s.symbols s.contexts .empty 0 s.paramSorts a := by
    intro v hv
    rw [map_map, mem_map] at hv
    obtain ⟨e, he, hv⟩ := hv
    obtain ⟨b, hfind, rfl⟩ := Option.map_eq_some_iff.1 hv
    obtain ⟨a, hb⟩ := (hexits e he).scope x b hfind
    exact ⟨e, he, b, a, hfind, rfl, hb⟩
  obtain ⟨c, hc, hknown⟩ := sortOf_mergeTypes hwf.graph
    (exits.map fun e => (e.scope.find? x).map (·.type)) (by
      intro o ho
      obtain ⟨e, he, rfl⟩ := mem_map.1 ho
      cases hfind : e.scope.find? x with
      | none => exact ⟨none, sortOf_bottom, knows_none⟩
      | some b =>
        obtain ⟨a, hb⟩ := (hexits e he).scope x b hfind
        exact ⟨a, hb.sortOf, hb.known⟩)
  have htype : (mergeBinding L.graph d exits x).type =
      mergeTypes L.graph (exits.map fun e => (e.scope.find? x).map (·.type)) := by
    simp only [mergeBinding, map_map]
    rfl
  refine ⟨c, by rw [htype]; exact hc, hknown, fits_mergeValues hexits (fun v hv => ?_) hd, settled_mergeValues fun v hv => ?_⟩
  · obtain ⟨e, he, b, a, hfind, rfl, hb⟩ := hbound v hv
    rcases hmeets with hmeets | hk
    · exact hb.fits.mono (covers_of_meets hmeets hfollow he hfind hb.sortOf hc)
    · exact hb.fits.anywhere hk
  · obtain ⟨e, he, b, a, hfind, rfl, hb⟩ := hbound v hv
    exact hb.settled

theorem mem_changedSorts (hσ : σ.slots.length = sortCount L.store) (h : sort ∈ changedSorts σ exits) :
    sort.index < sortCount L.store := by
  have hmem : sort ∈ σ.sorts := (mem_filter.1 h).1
  obtain ⟨i, hi, rfl⟩ := mem_map.1 hmem
  rw [← hσ]
  exact mem_range.1 hi

theorem placed_branch (hwf : L.store.WellFormed) (blocks : List (List Statement)) (hentry : s.Placed k L)
    (hfollows : s.Follows types) (hpreds : ∀ a ∈ alternatives, s.HasPred k a.1 [])
    (hgrows : ∀ a ∈ alternatives, Keeps Session.Grows a.2) (hplaces : ∀ a ∈ alternatives, Places k L types a.2)
    (hflows : List.Forall₂ (fun a b => Flows (fun types => Flow.block L.store types b) a.2) alternatives blocks)
    (hmeets : ∀ outs, Flow.blocks L.store types blocks = .ok outs → Flow.meets L.graph outs = true ∨ Loose k)
    (hrun : branch L alternatives s = .ok ((), t)) : t.Placed k L := by
  obtain ⟨exits, s1, changes, s2, h1, h2, rfl⟩ := branch_ok hrun
  have hsorted := hentry.sorted
  have hself : s.Beside s := (Session.Grows.refl s).beside
  obtain ⟨hs1, hover, hexits⟩ := sorted_runAlternatives hentry hfollows alternatives hpreds hgrows hplaces hsorted hself h1
  obtain ⟨outs, houts, hfollow⟩ := follows_runAlternatives hfollows hflows h1
  have hleave : s1.Beside (leaveAlternatives s s1) := ⟨s1.extends_place _ _ _ _, rfl⟩
  have hover1 := hover.trans hleave
  have hleft : (leaveAlternatives s s1).Sorted k L :=
    ⟨hs1.declared, hs1.contexts, hs1.context, hsorted.guards_beside hover1, hs1.axioms, hs1.creations⟩
  have hexits' : ∀ e ∈ exits, e.Sorted k L (leaveAlternatives s s1) := fun e he => (hexits e he).beside hs1 hleave
  obtain ⟨hq, hs2, hchanges⟩ := sorted_mapM_slots (fun sort hsort => slotStep_mergeSlot hleft hexits'
    (mem_changedSorts hentry.snapshot.length hsort)) (.refl _) hleft h2
  have hover2 := hover1.trans hq.toGrows.beside
  refine ⟨⟨hs2.declared, hs2.contexts, hs2.context, hs2.guards, hs2.axioms, hs2.creations⟩, ?_, ?_⟩
  · exact (Snapshot.Sorted.beside hentry.snapshot hsorted hover2).withSlots hchanges
  · exact sorted_mergeScopes (s := s2) hwf (fun e he => (hexits' e he).later hleft hq) hfollow (hmeets outs houts)
      (hover2.level hsorted).symm

/-! ## Conditionals and free choices -/

theorem wellBuilt_decided (hlaid : L.Laid symbols) (h : s.Placed k L) (htaken : s.HasPred k taken [])
    (hskipped : s.HasPred k skipped []) : WellBuilt k L s (decided L condition taken skipped) := by
  intro s1 t Γ params F hq hb hrun
  obtain ⟨holds, h1, rfl⟩ := decided_ok hrun
  have hstating : Stating k L s1 Γ params s1.scope := by
    refine ⟨hb, h.snapshot.later hq, ?_⟩
    rw [hq.scope]
    exact (h.scope.quiet hq).later (.refl _) (prefix_refl _) hb.taken (prefix_refl _) (Nat.zero_le _)
  obtain ⟨ht, hholds⟩ := wellFormed_formula hlaid condition hstating h1
  have hq1 := (quiet_formula L params condition s1.scope).of_ok h1
  have hb1 := hb.later hq1 ht
  have htaken' := hb1.wellFormed_atom ((htaken.later hq).later hq1) (.nil)
  have hskipped' := hb1.wellFormed_atom ((hskipped.later hq).later hq1) (.nil)
  rw [append_nil] at htaken' hskipped'
  exact ⟨ht, wellFormed_mkAnd (forall_mem_pair (wellFormed_mkIff htaken' hholds)
    (wellFormed_mkIff hskipped' (wellFormed_mkNot hholds)))⟩

/-- The session in which the alternatives of a conditional start. -/
theorem placed_decide (hlaid : L.Laid symbols) (h : s.Placed k L)
    (h1 : freshPred "then" [] s = .ok (taken, s1)) (h2 : freshPred "else" [] s1 = .ok (skipped, s2))
    (h3 : axiomOver (decided L condition taken skipped) s2 = .ok ((), s3)) :
    s3.Placed k L ∧ s3.HasPred k taken [] ∧ s3.HasPred k skipped [] ∧ s.Quiet s3 := by
  have hq1 := (quiet_freshPred "then" []).of_ok h1
  have hq2 := (quiet_freshPred "else" []).of_ok h2
  have hquiet : ∀ ps, Keeps Session.Quiet (decided L condition taken skipped ps) := fun ps => quiet_decided L condition taken skipped ps
  have hq3 := (quiet.axiomOver hquiet).of_ok h3
  obtain ⟨hs1, htaken⟩ := h.sorted.freshPred h1
  obtain ⟨hs2, hskipped⟩ := hs1.freshPred h2
  have htaken2 : s2.HasPred k taken [] := Session.HasPred.later htaken hq2
  have hp2 : s2.Placed k L := h.of_quiet (hq1.trans hq2) hs2
  have hs3 := hs2.axiomOver hquiet (wellBuilt_decided hlaid hp2 htaken2 hskipped) h3
  exact ⟨hp2.of_quiet hq3 hs3, htaken2.later hq3, Session.HasPred.later hskipped hq3, (hq1.trans hq2).trans hq3⟩

theorem placed_ifElse (hlaid : L.Laid symbols)
    (hcoherent : Flow.coherent L.store types (.ifElse condition thenBlock elseBlock) = true ∨ Loose k)
    (hthen : Places k L types (block L thenBlock)) (helse : Places k L types (block L elseBlock)) :
    Places k L types (ifElse L condition (block L thenBlock) (block L elseBlock)) := by
  intro s t h hfollows hrun
  obtain ⟨taken, s1, skipped, s2, s3, h1, h2, h3, -, hbranch⟩ := ifElse_ok hrun
  obtain ⟨hs3, htaken, hskipped, hq⟩ := placed_decide hlaid h h1 h2 h3
  refine placed_branch hlaid.store [thenBlock, elseBlock] hs3 (hfollows.of_scope hq.scope) ?_ ?_ ?_ ?_ (fun outs houts => ?_)
    hbranch
  · exact forall_mem_cons.2 ⟨htaken, forall_mem_singleton.2 hskipped⟩
  · exact forall_mem_cons.2 ⟨grows_block L thenBlock, forall_mem_singleton.2 (grows_block L elseBlock)⟩
  · exact forall_mem_cons.2 ⟨hthen, forall_mem_singleton.2 helse⟩
  · exact .cons (flows_block thenBlock) (.cons (flows_block elseBlock) .nil)
  · refine hcoherent.imp_left fun hc => ?_
    simp only [Flow.coherent, houts] at hc
    exact hc

theorem sorted_choiceIndicators (h : s.Sorted k L) (hrun : choiceIndicators n s = .ok (indicators, t)) :
    t.Sorted k L ∧ ∀ p ∈ indicators, t.HasPred k p [] := by
  have hall := mapM_keeps (P := fun u => u.Sorted k L) (Q := fun p u => u.HasPred k p []) (fun i _ u p v hu h1 => ?_) h hrun
  · exact ⟨hall.1, hall.2.1⟩
  · obtain ⟨hs1, hp⟩ := hu.freshPred h1
    exact ⟨hs1, hp, fun _ hq => Session.HasPred.later hq ((quiet_freshPred _ _).of_ok h1)⟩

theorem wellBuilt_oneTaken (h : ∀ p ∈ indicators, s.HasPred k p []) : WellBuilt k L s (oneTaken indicators) := by
  intro s1 t Γ params F hq hb hrun
  cases pure_ok.1 hrun
  refine ⟨hb.sorted, wellFormed_exactlyOne fun F hF => ?_⟩
  obtain ⟨p, hp, rfl⟩ := mem_map.1 hF
  have hatom := hb.wellFormed_atom ((h p hp).later hq) (.nil)
  rwa [append_nil] at hatom

/-- The session in which the alternatives of a free choice start. -/
theorem placed_choose (h : s.Placed k L) (h1 : choiceIndicators n s = .ok (indicators, s1))
    (h2 : axiomOver (oneTaken indicators) s1 = .ok ((), s2)) :
    s2.Placed k L ∧ (∀ p ∈ indicators, s2.HasPred k p []) ∧ s.Quiet s2 := by
  obtain ⟨hs1, hpreds⟩ := sorted_choiceIndicators h.sorted h1
  have hq1 := (quiet_choiceIndicators n).of_ok h1
  have hq2 := (quiet.axiomOver quiet.oneTaken).of_ok h2
  have hs2 := hs1.axiomOver quiet.oneTaken (wellBuilt_oneTaken hpreds) h2
  exact ⟨(h.of_quiet hq1 hs1).of_quiet hq2 hs2, fun p hp => (hpreds p hp).later hq2, hq1.trans hq2⟩

theorem placed_either (hwf : L.store.WellFormed) (hcoherent : Flow.coherent L.store types (.either bs) = true ∨ Loose k)
    (hruns : ∀ run ∈ blocks L bs, Places k L types run) : Places k L types (either L (blocks L bs)) := by
  intro s t h hfollows hrun
  match bs, hcoherent, hruns, hrun with
  | [], _, _, hrun =>
    cases pure_ok.1 hrun
    exact h
  | [b], _, hruns, hrun =>
    rw [blocks, blocks] at hruns hrun
    exact hruns (block L b) (by simp) s t h hfollows hrun
  | b1 :: b2 :: rest, hcoherent, hruns, hrun =>
    have hgrows := grows_blocks L (b1 :: b2 :: rest)
    have hflows := flows_blocks (L := L) (b1 :: b2 :: rest)
    obtain ⟨indicators, s1, s2, h1, h2, -, hbranch⟩ := either_ok hrun
    obtain ⟨hs2, hpreds, hq⟩ := placed_choose h h1 h2
    refine placed_branch hwf (b1 :: b2 :: rest) hs2 (hfollows.of_scope hq.scope) ?_ ?_ ?_
      (forall₂_zip_left (length_choiceIndicators h1) hflows) (fun outs houts => ?_) hbranch
    · exact fun a ha => hpreds a.1 (of_mem_zip ha).1
    · exact fun a ha => hgrows a.2 (of_mem_zip ha).2
    · exact fun a ha => hruns a.2 (of_mem_zip ha).2
    · refine hcoherent.imp_left fun hc => ?_
      simp only [Flow.coherent, houts] at hc
      exact hc

end Encode

end StoreCheck
