import StoreCheck.Proofs.Encoding.ScopeFlow
import StoreCheck.Proofs.Encoding.SortedSession

/-!
# Expressions have values of their sort

The value of an expression is of the sort of the expression's type, provided that the values in scope are of the sorts of theirs
(`sorted_objValue`). So every formula that compares or quantifies over sets becomes a well-formed one (`wellFormed_formula`).
-/

namespace StoreCheck

open Formula ObjValue Layout StoreCheck.Valuation

variable {L : Layout} {p : PredId} {sort : SortId} {source : ObjValue} {a : Option SortId} {cs : Contexts} {n : Nat}
  {ps qs : List SortId} {symbols' : Symbols} {Γ' : SortEnv} {t s1 : Session} {name : String} {vs : List ObjValue} {type : ObjType}
  {es : List ObjExpr} {inFormula : Bool} {F : Formula} {o : Term}

variable {k : SortId → SortId}

namespace Encode

variable {s : Session}

/-! ## Naming and choosing -/

theorem wellBuilt_sameMembers (hp : s.HasPred k p [sort]) (hv : s.HasValue k L v sort) :
    WellBuilt k L s (sameMembers L sort p v) := by
  intro s1 t Γ params F hq hb hrun
  obtain ⟨b, o, s2, inValue, h1, h2, rfl⟩ := sameMembers_ok hrun
  obtain ⟨hq1, hb1, ho, -, hadm⟩ := hb.binder h1
  obtain ⟨hq2, hb2, hin⟩ := hb1.member ((hv.later hq).later hq1) ho h2
  have hatom := hb2.wellFormed_atom (((hp.later hq).later hq1).later hq2) (ho.later hq2)
  exact ⟨hb2.sorted, wellFormed_mkForAll hadm (wellFormed_mkIff hatom hin)⟩

theorem wellBuilt_someMembers (hp : s.HasPred k p [sort]) (hv : s.HasValue k L source sort) :
    WellBuilt k L s (someMembers L sort p source) := by
  intro s1 t Γ params F hq hb hrun
  obtain ⟨b, o, s2, within, h1, h2, rfl⟩ := someMembers_ok hrun
  obtain ⟨hq1, hb1, ho, -, hadm⟩ := hb.binder h1
  obtain ⟨hq2, hb2, hin⟩ := hb1.member ((hv.later hq).later hq1) ho h2
  have hatom := hb2.wellFormed_atom (((hp.later hq).later hq1).later hq2) (ho.later hq2)
  exact ⟨hb2.sorted, wellFormed_mkForAll hadm (wellFormed_mkImplies hatom hin)⟩

/-- The choice of one member is well formed. -/
theorem wellBuilt_oneMember (hp : s.HasPred k p [sort]) (hv : s.HasValue k L source sort) :
    WellBuilt k L s (oneMember L sort p source) := by
  intro s1 t Γ params F hq hb hrun
  obtain ⟨b, o, s2, within, s3, b', o', s4, some, s5, c, y, s6, b1, o1, s7, b2, o2, h1, h2, h3, h4, h5, h6, h7, rfl⟩ :=
    oneMember_ok hrun
  obtain ⟨hq1, hb1, ho, -, hadm⟩ := hb.binder h1
  obtain ⟨hq2, hb2, hwithin⟩ := hb1.member ((hv.later hq).later hq1) ho h2
  have hq12 := hq1.trans hq2
  have hbase := hb.later hq12 hb2.sorted
  obtain ⟨hq3, hb3, ho', -, hadm'⟩ := hbase.binder h3
  obtain ⟨hq4, hb4, hsome⟩ := hb3.member (((hv.later hq).later hq12).later hq3) ho' h4
  have hq34 := hq3.trans hq4
  have hbase2 := hbase.later hq34 hb4.sorted
  obtain ⟨hq5, hb5, hy, -, hadmc⟩ := hbase2.binder h5
  obtain ⟨hq6, hb6, ho1, -, hadm1⟩ := (hbase2.later hq5 hb5.sorted).binder h6
  obtain ⟨hq7, hb7, ho2, hagree, hadm2⟩ := hb6.binder h7
  have hp2 := (hp.later hq).later hq12
  have hp5 := (hp2.later hq34).later hq5
  have hq3t := hq34.trans (hq5.trans (hq6.trans hq7))
  refine ⟨hb7.sorted, wellFormed_mkAnd (forall_mem_triple ?_ ?_ ?_)⟩
  · have hatom := hb2.wellFormed_atom hp2 (ho.later hq2)
    exact .mono hq3t.symbols (wellFormed_mkForAll hadm (wellFormed_mkImplies hatom hwithin))
  · refine wellFormed_mkImplies (WellFormed.mono (hq5.trans (hq6.trans hq7)).symbols (wellFormed_mkForSome hadm' hsome)) ?_
    exact .mono (hq6.trans hq7).symbols (wellFormed_mkForSome hadmc (hb5.wellFormed_atom hp5 hy))
  · have ho1' := (ho1.agree hagree (Nat.le_refl _)).later hq7
    have hp7 := (hp5.later hq6).later hq7
    have hboth := wellFormed_mkAnd (forall_mem_pair (hb7.wellFormed_atom hp7 ho1') (hb7.wellFormed_atom hp7 ho2))
    refine wellFormed_mkForAll (b := [b1, b2]) (hadm1.append hadm2) ?_
    exact wellFormed_mkImplies hboth (wellFormed_mkEq ho1'.hasSort ho2.hasSort)

end Encode

/-! ## Scopes -/

/-- A value of the sort of its type, with settled variables. -/
structure Binding.Sorted (k : SortId → SortId) (L : Layout) (symbols : Symbols) (cs : Contexts) (Γ : SortEnv) (n : Nat)
    (ps : List SortId) (b : Binding) (a : Option SortId) : Prop where
  sortOf : L.sortOf b.type = .ok a
  known : L.Knows a
  fits : b.value.Fits k L symbols cs Γ ps a
  settled : b.value.Settled n

/-- The values in scope are of the sorts of their types. -/
def Scope.Sorted (k : SortId → SortId) (L : Layout) (symbols : Symbols) (cs : Contexts) (Γ : SortEnv) (n : Nat)
    (ps : List SortId) (scope : Scope) : Prop :=
  ∀ x b, scope.find? x = some b → ∃ a, b.Sorted k L symbols cs Γ n ps a

variable {L : Layout} {symbols : Symbols} {Γ : SortEnv} {v : ObjValue}

theorem ObjValue.Fits.later {cs' : Contexts} (h : v.Fits k L symbols cs Γ ps a) (hv : v.Settled n) (hg : symbols.Grows symbols')
    (hcs : cs.table <+: cs'.table) (hΓ : Agree n Γ Γ') (hps : ps <+: qs) : v.Fits k L symbols' cs' Γ' qs a :=
  fun sort hsort => (h sort hsort).later hg hcs hΓ hv hps

theorem ObjValue.Fits.mono (h : v.Fits k L symbols cs Γ ps a) (hab : Covers a b) : v.Fits k L symbols cs Γ ps b :=
  fun sort hsort => h sort (hab.trans hsort)

theorem ObjValue.Fits.sorted (h : v.Fits k L symbols cs Γ ps (some sort)) : v.Sorted k L symbols cs Γ ps sort := h sort (.refl _)

theorem ObjValue.Fits.of_sorted (h : v.Sorted k L symbols cs Γ ps sort) : v.Fits k L symbols cs Γ ps (some sort) := by
  intro sort' hsort'
  cases hsort'.some_left
  exact h

namespace Scope.Sorted

variable {cs' : Contexts} {scope : Scope}

theorem later (h : scope.Sorted k L symbols cs Γ n ps) (hg : symbols.Grows symbols') (hcs : cs.table <+: cs'.table)
    (hΓ : Agree n Γ Γ') (hps : ps <+: qs) (hle : n ≤ m) : scope.Sorted k L symbols' cs' Γ' m qs := by
  intro x b hb
  obtain ⟨a, hb⟩ := h x b hb
  exact ⟨a, hb.sortOf, hb.known, hb.fits.later hb.settled hg hcs hΓ hps, hb.settled.mono hle⟩

theorem quiet {s : Session} (h : scope.Sorted k L s.symbols s.contexts Γ n s.paramSorts) (hq : s.Quiet t) :
    scope.Sorted k L t.symbols t.contexts Γ n t.paramSorts := by
  rw [hq.paramSorts]
  exact h.later hq.symbols hq.contexts (.refl n Γ) (List.prefix_refl _) (Nat.le_refl n)

theorem insert (h : scope.Sorted k L symbols cs Γ n ps) {b : Binding} (hb : b.Sorted k L symbols cs Γ n ps a) :
    Scope.Sorted k L symbols cs Γ n ps (scope.insert name b) := by
  intro x b' hb'
  rw [VarMap.find?_insert] at hb'
  split at hb'
  · cases hb'
    exact ⟨a, hb⟩
  · exact h x b' hb'

theorem nil : Scope.Sorted k L symbols cs Γ n ps [] := fun _ _ hb => by cases hb

end Scope.Sorted

namespace Encode

/-! ## Expressions -/

/-- What is shown of the value of an expression. -/
structure GivesValue (k : SortId → SortId) (L : Layout) (Γ : SortEnv) (n : Nat) (s t : Session) (v : ObjValue)
    (a : Option SortId) : Prop where
  sorted : t.Sorted k L
  quiet : s.Quiet t
  known : L.Knows a
  fits : v.Fits k L t.symbols t.contexts Γ t.paramSorts a
  settled : v.Settled n

/-- Variables occur in formulas only. -/
def Mode (inFormula : Bool) (Γ : SortEnv) (n : Nat) : Prop := inFormula = false → Γ = SortEnv.empty ∧ n = 0

section Expressions

variable {L : Layout} {scope : Scope}

theorem sorted_unionValue (h : ∀ v ∈ vs, v.Sorted k L symbols cs Γ ps sort) :
    (unionValue vs).Sorted k L symbols cs Γ ps sort := by
  have hfilter : ∀ v ∈ vs.filter (!·.isEmpty), v.Sorted k L symbols cs Γ ps sort := fun v hv => h v (List.mem_filter.1 hv).1
  unfold unionValue
  split
  · trivial
  · rename_i v heq
    exact hfilter v (by simp [heq])
  · rw [Sorted, allSorted_iff]
    exact hfilter

variable {s : Session}

theorem gives_boundValue (hs : s.Sorted k L) (hscope : scope.Sorted k L s.symbols s.contexts Γ n s.paramSorts)
    (htype : scope.types.typeOf name = .ok type) (hrun : boundValue scope name s = .ok (v, t)) :
    ∃ a, L.sortOf type = .ok a ∧ GivesValue k L Γ n s t v a := by
  obtain ⟨b, hb, heq⟩ := boundValue_ok hrun
  cases heq
  have hbtype : type = b.type := by
    unfold TypeEnv.typeOf at htype
    rw [Scope.find?_types, hb] at htype
    simpa using htype.symm
  subst hbtype
  obtain ⟨a, hb⟩ := hscope name b hb
  exact ⟨a, hb.sortOf, hs, .refl _, hb.known, hb.fits, hb.settled⟩

theorem gives_empty (h : GivesValue k L Γ n s t v a) : GivesValue k L Γ n s t .empty a :=
  ⟨h.sorted, h.quiet, h.known, fun _ _ => by rw [Sorted]; trivial, by simp [Settled]⟩

/-- A choice among the elements of a value is a value of the same sort. -/
theorem gives_chosen (hmode : Γ = SortEnv.empty ∧ n = 0) (ha : L.sortOf type = .ok a) (hs : GivesValue k L Γ n s s1 source a)
    (hquiet : ∀ sort p ps, Keeps Session.Quiet (build sort p ps))
    (hbuild : ∀ {s sort p}, s.HasPred k p [sort] → s.HasValue k L source sort → WellBuilt k L s (build sort p))
    (hrun : chosen L hint build type s1 = .ok (v, t)) : GivesValue k L Γ n s t v a := by
  obtain ⟨-, rfl, rfl⟩ | ⟨sort, p, s2, hsort, hp, haxiom, rfl⟩ := chosen_ok hrun
  · exact gives_empty hs
  cases Except.ok.inj (ha.symm.trans hsort)
  obtain ⟨rfl, rfl⟩ := hmode
  obtain ⟨hs2, hpred⟩ := hs.sorted.freshPred hp
  have hq2 := (quiet_freshPred hint [sort]).of_ok hp
  have hq3 := (quiet.axiomOver (hquiet sort p)).of_ok haxiom
  have hvalue : s1.HasValue k L source sort := ⟨hs.fits.sorted, hs.settled⟩
  have ht := hs2.axiomOver (hquiet sort p) (hbuild hpred (hvalue.later hq2)) haxiom
  refine ⟨ht, hs.quiet.trans (hq2.trans hq3), hs.known, .of_sorted ?_, by simp [Settled]⟩
  have hpred' : t.HasPred k p [sort] := Session.HasPred.later hpred hq3
  unfold Session.HasPred at hpred'
  rw [hq3.level] at hpred'
  exact hpred'

theorem gives_deref (hlaid : L.Laid symbols) (hr : r ∈ L.store.relations) (hts : List.lookup r.base L.tupleSorts = some ts)
    (hsnapshot : s1.Standing k L) (hs : GivesValue k L Γ n s s1 source (some (L.classSort r.source))) :
    GivesValue k L Γ n s s1 (.deref source r.base r.flipped (s1.snapshot.slot ts.sort)) (some (L.classSort r.target)) := by
  obtain ⟨hnear, hfar⟩ := hlaid.ends_of_base hr hts
  have hknown := hlaid.knows_class (hlaid.store.target r hr)
  refine ⟨hs.sorted, hs.quiet, hknown, .of_sorted ?_, by rw [Settled]; exact hs.settled⟩
  refine ⟨ts, hts, hsnapshot.slot (hlaid.tupleSort_lt hts), congrArg k hfar, ?_⟩
  rw [hnear]
  exact hs.fits.sorted

/-- The value of an expression is of the sort of its type. -/
def Gives (k : SortId → SortId) (L : Layout) (inFormula : Bool) (scope : Scope) (Γ : SortEnv) (n : Nat) (e : ObjExpr) : Prop :=
  ∀ ⦃s t : Session⦄ ⦃type : ObjType⦄ ⦃v : ObjValue⦄, s.Sorted k L → s.Standing k L →
    scope.Sorted k L s.symbols s.contexts Γ n s.paramSorts → infer L.store scope.types e = .ok type →
    objValue L inFormula scope e s = .ok (v, t) → ∃ a, L.sortOf type = .ok a ∧ GivesValue k L Γ n s t v a

theorem sorted_objValues (hwf : L.store.WellFormed) (hes : ∀ e ∈ es, Gives k L inFormula scope Γ n e) (hs : s.Sorted k L)
    (hsnapshot : s.Standing k L) (hscope : scope.Sorted k L s.symbols s.contexts Γ n s.paramSorts) (ha : L.sortOf acc = .ok a)
    (hknown : L.Knows a) (htype : inferUnion L.store scope.types acc es = .ok type)
    (hrun : objValues L inFormula scope es s = .ok (vs, t)) :
    ∃ b, L.sortOf type = .ok b ∧ Covers a b ∧ L.Knows b ∧ t.Sorted k L ∧ s.Quiet t ∧
      ∀ v ∈ vs, v.Fits k L t.symbols t.contexts Γ t.paramSorts b ∧ v.Settled n := by
  induction es generalizing s t acc type a vs with
  | nil =>
    cases htype
    cases pure_ok.1 hrun
    exact ⟨a, ha, .refl a, hknown, hs, .refl _, by simp⟩
  | cons e rest ih =>
    obtain ⟨he, hrest⟩ := List.forall_mem_cons.1 hes
    obtain ⟨u, w, hu, hw, htype⟩ := inferUnion_cons_ok.1 htype
    obtain ⟨v1, s1, h1, hrun⟩ := bind_ok.1 hrun
    obtain ⟨vs', s2, h2, hrun⟩ := bind_ok.1 hrun
    cases pure_ok.1 hrun
    obtain ⟨b, hb, hfirst⟩ := he hs hsnapshot hscope hu h1
    obtain ⟨c, hc, hac, hbc⟩ := sortOf_joinStrict hwf.graph (unionType_ok hw) ha hb
    have hknown' := knows_joinStrict hwf.graph (unionType_ok hw) ha hb hc hknown hfirst.known
    obtain ⟨d, hd, hcd, hknownd, ht, hq, hvs⟩ := ih hrest hfirst.sorted (hsnapshot.later hfirst.quiet)
      (hscope.quiet hfirst.quiet) hc hknown' htype h2
    refine ⟨d, hd, hac.trans hcd, hknownd, ht, hfirst.quiet.trans hq, List.forall_mem_cons.2 ⟨⟨?_, hfirst.settled⟩, hvs⟩⟩
    rw [hq.paramSorts]
    exact (hfirst.fits.later hfirst.settled hq.symbols hq.contexts (.refl n Γ) (List.prefix_refl _)).mono (hbc.trans hcd)

/-- The value of an expression has the sort of its type. -/
theorem sorted_objValue (hlaid : L.Laid symbols) (hmode : Mode inFormula Γ n)
    (e : ObjExpr) : Gives k L inFormula scope Γ n e := by
  induction e with
  | allOf className =>
    intro s t type v hs hsnapshot hscope htype hrun
    obtain ⟨c, hc, htype⟩ := exceptBind_ok.1 htype
    cases htype
    obtain ⟨c', hc', hrun⟩ := typedBind_ok.1 hrun
    cases Except.ok.inj (hc.symm.trans hc')
    cases pure_ok.1 hrun
    have hlt : c.index < L.graph.size := ClassGraph.resolveIn_lt hc
    refine ⟨_, sortOf_class c rfl, hs, .refl _, hlaid.knows_class hlt, .of_sorted ?_, by simp [Settled]⟩
    exact ⟨hlt, rfl, hsnapshot.slot (hlaid.classSort_lt hlt)⟩
  | var name | iterator name =>
    intro s t type v hs hsnapshot hscope htype hrun
    exact gives_boundValue hs hscope htype hrun
  | subset source ih =>
    intro s t type v hs hsnapshot hscope htype hrun
    obtain ⟨u, hu, rfl⟩ := infer_subset_ok.1 htype
    obtain ⟨hfalse, value, u', s1, hu', h1, hrun⟩ := choice_ok hrun
    cases Except.ok.inj (hu.symm.trans hu')
    obtain ⟨a, ha, hvalue⟩ := ih hs hsnapshot hscope hu (hfalse ▸ h1)
    exact ⟨a, ha, gives_chosen (hmode hfalse) ha hvalue (fun _ _ => quiet.someMembers (quiet_member L _)) wellBuilt_someMembers hrun⟩
  | oneOf source ih =>
    intro s t type v hs hsnapshot hscope htype hrun
    obtain ⟨u, hu, rfl⟩ := infer_oneOf_ok.1 htype
    obtain ⟨hfalse, value, u', s1, hu', h1, hrun⟩ := choice_ok hrun
    cases Except.ok.inj (hu.symm.trans hu')
    obtain ⟨a, ha, hvalue⟩ := ih hs hsnapshot hscope hu (hfalse ▸ h1)
    refine ⟨a, (sortOf_single u).trans ha, ?_⟩
    exact gives_chosen (hmode hfalse) ha hvalue (fun _ _ => quiet.oneMember (quiet_member L _)) wellBuilt_oneMember hrun
  | union parts ih =>
    intro s t type v hs hsnapshot hscope htype hrun
    rw [infer_union] at htype
    obtain ⟨vs, s1, h1, hrun⟩ := bind_ok.1 hrun
    cases pure_ok.1 hrun
    obtain ⟨b, hb, -, hknown, ht, hq, hvs⟩ := sorted_objValues hlaid.store ih hs hsnapshot hscope (sortOf_none_iff.2 rfl)
      knows_none htype h1
    refine ⟨b, hb, ht, hq, hknown, fun sort hsort => ?_, ?_⟩
    · exact sorted_unionValue fun w hw => (hvs w hw).1 sort hsort
    · exact settled_unionValue ((allSettled_iff _ _).2 fun w hw => (hvs w hw).2)
  | deref source relation ih =>
    intro s t type v hs hsnapshot hscope htype hrun
    obtain ⟨u, r, hu, hr, rfl⟩ := infer_deref_ok.1 htype
    obtain ⟨value, s1, h1, h2⟩ := bind_ok.1 hrun
    obtain ⟨a, ha, hvalue⟩ := ih hs hsnapshot hscope hu h1
    obtain ⟨u', r', ts, hu', hr', hts, heq⟩ := derefValue_ok h2
    cases Except.ok.inj (hu.symm.trans hu')
    cases Except.ok.inj (hr.symm.trans hr')
    cases heq
    cases sortOf_relationOn hlaid.store.graph hr ha
    exact ⟨_, sortOf_class r.target rfl, gives_deref hlaid (Store.relationOn_ok hr).1 hts (hsnapshot.later hvalue.quiet) hvalue⟩

theorem sorted_objSet (hlaid : L.Laid symbols) (hmode : Mode inFormula Γ n) (hs : s.Sorted k L)
    (hsnapshot : s.Standing k L) (hscope : scope.Sorted k L s.symbols s.contexts Γ n s.paramSorts)
    (hrun : objSet L inFormula scope e s = .ok ((v, type), t)) : ∃ a, L.sortOf type = .ok a ∧ GivesValue k L Γ n s t v a := by
  obtain ⟨htype, hrun, -⟩ := objSet_ok hrun
  exact sorted_objValue hlaid hmode e hs hsnapshot hscope htype hrun

end Expressions

/-! ## Formulas -/

section Conditions

variable {L : Layout} {symbols : Symbols} {scope : Scope} {Γ : SortEnv} {s t : Session} {params : List Term}

/-- A formula is built here about the values of a scope. -/
structure Stating (k : SortId → SortId) (L : Layout) (s : Session) (Γ : SortEnv) (params : List Term) (scope : Scope) : Prop where
  building : s.Building k L Γ params
  snapshot : s.Standing k L
  scope : scope.Sorted k L s.symbols s.contexts Γ s.vars.count s.paramSorts

theorem Stating.later (h : Stating k L s Γ params scope) (hq : s.Quiet t) (ht : t.Sorted k L) : Stating k L t Γ params scope := by
  refine ⟨h.building.later hq ht, h.snapshot.later hq, ?_⟩
  rw [hq.paramSorts]
  exact h.scope.later hq.symbols hq.contexts (.refl _ Γ) (List.prefix_refl _) hq.vars

variable {e : ObjExpr}

/-- Membership in the value of an expression. -/
theorem GivesValue.member (hv : GivesValue k L Γ n s s1 v a) (hq : s1.Quiet s2) (hagree : Agree n Γ Γ')
    (hle : n ≤ s2.vars.count) (hb : s2.Building k L Γ' params) (ha : Covers a (some sort))
    (ho : s2.HasTerms k Γ' [o] [sort]) (hrun : member L v params o s2 = .ok (F, t)) :
    s2.Quiet t ∧ t.Building k L Γ' params ∧ F.WellFormed k t.symbols Γ' := by
  have hfits := (hv.fits.later hv.settled hq.symbols hq.contexts hagree (List.prefix_refl _)).mono ha
  rw [← hq.paramSorts] at hfits
  exact hb.memberAt hfits.sorted (hv.settled.mono hle) hb.params ho hrun

theorem Stating.objSet (hlaid : L.Laid symbols) (h : Stating k L s Γ params scope)
    (hrun : objSet L true scope e s = .ok ((v, type), t)) :
    ∃ a, L.sortOf type = .ok a ∧ GivesValue k L Γ s.vars.count s t v a ∧ Stating k L t Γ params scope := by
  obtain ⟨a, ha, hv⟩ := sorted_objSet hlaid (fun hmode => by cases hmode) h.building.sorted h.snapshot h.scope hrun
  exact ⟨a, ha, hv, h.later hv.quiet hv.sorted⟩

theorem wellFormed_emptySet (hlaid : L.Laid symbols) (h : Stating k L s Γ params scope)
    (hrun : emptySet L scope params e s = .ok (F, t)) :
    t.Sorted k L ∧ F.WellFormed k t.symbols Γ := by
  obtain ⟨⟨v, type⟩, s1, h1, hrun⟩ := bind_ok.1 hrun
  obtain ⟨a, ha, hv, hst⟩ := h.objSet hlaid h1
  obtain ⟨a', ha', hrun⟩ := liftBind_ok.1 hrun
  rw [ha] at ha'
  cases ha'
  cases a with
  | none =>
    cases pure_ok.1 hrun
    exact ⟨hv.sorted, wellFormed_top⟩
  | some sort =>
    obtain ⟨⟨b, o⟩, s3, h3, hrun⟩ := bind_ok.1 hrun
    obtain ⟨G, s4, h4, hrun⟩ := bind_ok.1 hrun
    cases pure_ok.1 hrun
    obtain ⟨hq3, hb3, ho, hagree, hadm⟩ := hst.building.binder h3
    have hle := (hv.quiet.trans hq3).vars
    obtain ⟨-, hb4, hG⟩ := hv.member hq3 (hagree.anti hv.quiet.vars) hle hb3 (.refl _) ho h4
    exact ⟨hb4.sorted, wellFormed_mkNot (wellFormed_mkForSome hadm hG)⟩

/-- The encoding of an inclusion is well formed. -/
theorem wellFormed_includedSet (hlaid : L.Laid symbols) (h : Stating k L s Γ params scope)
    (hrun : includedSet L scope params e e' s = .ok (F, t)) : t.Sorted k L ∧ F.WellFormed k t.symbols Γ := by
  obtain ⟨⟨v, type⟩, s1, h1, hrun⟩ := bind_ok.1 hrun
  obtain ⟨a, ha, hv, hst1⟩ := h.objSet hlaid h1
  obtain ⟨⟨v', type'⟩, s2, h2, hrun⟩ := bind_ok.1 hrun
  obtain ⟨a', ha', hv', hst2⟩ := hst1.objSet hlaid h2
  dsimp only at hrun
  split at hrun
  · cases pure_ok.1 hrun
    exact ⟨hv'.sorted, wellFormed_top⟩
  · obtain ⟨joined, hjoined, hrun⟩ := typedBind_ok.1 hrun
    obtain ⟨c, hc, hac, hbc⟩ := sortOf_joinStrict hlaid.store.graph (ObjType.join_ok hjoined) ha ha'
    obtain ⟨c', hc', hrun⟩ := liftBind_ok.1 hrun
    rw [hc] at hc'
    cases hc'
    cases c with
    | none =>
      cases pure_ok.1 hrun
      exact ⟨hv'.sorted, wellFormed_top⟩
    | some sort =>
      obtain ⟨⟨b, o⟩, s5, h5, hrun⟩ := bind_ok.1 hrun
      obtain ⟨G, s6, h6, hrun⟩ := bind_ok.1 hrun
      obtain ⟨H, s7, h7, hrun⟩ := bind_ok.1 hrun
      cases pure_ok.1 hrun
      obtain ⟨hq5, hb5, ho, hagree, hadm⟩ := hst2.building.binder h5
      have hq12 := hv.quiet.trans hv'.quiet
      obtain ⟨hq6, hb6, hG⟩ := hv.member (hv'.quiet.trans hq5) (hagree.anti hq12.vars) (hq12.trans hq5).vars hb5 hac ho h6
      obtain ⟨hq7, hb7, hH⟩ := hv'.member (hq5.trans hq6) (hagree.anti hv'.quiet.vars) (hv'.quiet.trans (hq5.trans hq6)).vars
        hb6 hbc (ho.later hq6) h7
      exact ⟨hb7.sorted, wellFormed_mkForAll hadm (wellFormed_mkImplies (WellFormed.mono hq7.symbols hG) hH)⟩

/-- The values of sets that are compared are of the sort of the joined type. -/
theorem sorted_comparable (hlaid : L.Laid symbols) : ∀ (es : List ObjExpr) {s t : Session}
    {j j' : Option ObjType} {vs : List ObjValue}, Stating k L s Γ params scope →
    (∀ u, j = some u → ∃ a, L.sortOf u = .ok a ∧ L.Knows a) →
    comparable L scope es j s = .ok ((vs, j'), t) →
    t.Sorted k L ∧ s.Quiet t ∧ ∀ u', j' = some u' → ∃ b, L.sortOf u' = .ok b ∧ L.Knows b ∧
      (∀ u a, j = some u → L.sortOf u = .ok a → Covers a b) ∧
      ∀ v ∈ vs, v.Fits k L t.symbols t.contexts Γ t.paramSorts b ∧ v.Settled t.vars.count
  | [], _, _, _, _, _, h, hjoined, hrun => by
    cases pure_ok.1 hrun
    refine ⟨h.building.sorted, .refl _, fun u' hu' => ?_⟩
    obtain ⟨a, ha, hknown⟩ := hjoined u' hu'
    refine ⟨a, ha, hknown, fun u b hu hb => ?_, by simp⟩
    rw [hu] at hu'
    cases hu'
    rw [ha] at hb
    cases hb
    exact .refl _
  | e :: rest, _, _, joined, _, _, h, hjoined, hrun => by
    obtain ⟨v, type, s1, next, vs', h1, hnext, h2, rfl⟩ := comparable_cons_ok hrun
    obtain ⟨a, ha, hv, hst⟩ := h.objSet hlaid h1
    -- the next joined type covers the type of the value and the one before
    obtain ⟨b, hb, hknown, hab, hcover⟩ : ∃ b, L.sortOf next = .ok b ∧ L.Knows b ∧ Covers a b ∧
        ∀ u c, joined = some u → L.sortOf u = .ok c → Covers c b := by
      rcases hnext with ⟨rfl, rfl⟩ | ⟨before, rfl, hjoin⟩
      · exact ⟨a, ha, hv.known, .refl a, fun u c hu => by cases hu⟩
      · obtain ⟨c, hc, hknown⟩ := hjoined before rfl
        obtain ⟨b, hb, hcb, hab⟩ := Layout.sortOf_joinStrict hlaid.store.graph (ObjType.join_ok hjoin) hc ha
        have hknown' := Layout.knows_joinStrict hlaid.store.graph (ObjType.join_ok hjoin) hc ha hb hknown hv.known
        refine ⟨b, hb, hknown', hab, fun u c' hu hc' => ?_⟩
        cases hu
        rw [hc] at hc'
        cases hc'
        exact hcb
    obtain ⟨ht, hq, hall⟩ := sorted_comparable hlaid rest hst (fun u hu => by cases hu; exact ⟨b, hb, hknown⟩) h2
    refine ⟨ht, hv.quiet.trans hq, fun u' hu' => ?_⟩
    obtain ⟨d, hd, hknownd, hcov, hvs⟩ := hall u' hu'
    have hbd := hcov next b rfl hb
    refine ⟨d, hd, hknownd, fun u c hu hc => (hcover u c hu hc).trans hbd, fun w hw => ?_⟩
    rcases List.mem_cons.1 hw with rfl | hw
    · rw [hq.paramSorts]
      exact ⟨(hv.fits.later hv.settled hq.symbols hq.contexts (.refl _ Γ) (List.prefix_refl _)).mono (hab.trans hbd),
        hv.settled.mono (hv.quiet.trans hq).vars⟩
    · exact hvs w hw

theorem wellFormed_mapM_mkIff {s1 : Session} {head : Formula} (hn : n ≤ s1.vars.count) (hagree : Agree n Γ Γ') :
    ∀ (vs : List ObjValue) {s2 t : Session} {fs : List Formula},
    (∀ v ∈ vs, GivesValue k L Γ n s s1 v (some sort)) → s1.Quiet s2 → s2.Building k L Γ' params →
    s2.HasTerms k Γ' [o] [sort] → head.WellFormed k s2.symbols Γ' →
    (vs.mapM fun v => do return Formula.mkIff head (← member L v params o)) s2 = .ok (fs, t) →
    s2.Quiet t ∧ t.Sorted k L ∧ ∀ f ∈ fs, f.WellFormed k t.symbols Γ'
  | [], _, _, _, _, _, hb, _, _, hrun => by
    cases mapM_nil_ok.1 hrun
    exact ⟨.refl _, hb.sorted, by simp⟩
  | v :: rest, s2, _, _, hvs, hq, hb, ho, hhead, hrun => by
    obtain ⟨f, s3, h1, fs', t', h2, heq⟩ := mapM_cons_ok.1 hrun
    cases heq
    obtain ⟨G, s4, h3, h1⟩ := bind_ok.1 h1
    cases pure_ok.1 h1
    have hv := hvs v (by simp)
    have hle : n ≤ s2.vars.count := Nat.le_trans hn hq.vars
    obtain ⟨hq3, hb3, hG⟩ := hv.member hq hagree hle hb (.refl _) ho h3
    have hhead3 := WellFormed.mono hq3.symbols hhead
    obtain ⟨hqt, ht, hparts⟩ := wellFormed_mapM_mkIff hn hagree rest (fun w hw => hvs w (List.mem_cons_of_mem _ hw)) (hq.trans hq3) hb3
      (ho.later hq3) hhead3 h2
    refine ⟨hq3.trans hqt, ht, fun g hg => ?_⟩
    rcases List.mem_cons.1 hg with rfl | hg
    · exact .mono hqt.symbols (wellFormed_mkIff hhead3 hG)
    · exact hparts g hg

/-- The encoding of an equality is well formed. -/
theorem wellFormed_equalSets (hlaid : L.Laid symbols) (h : Stating k L s Γ params scope)
    (hrun : equalSets L scope params es s = .ok (F, t)) : t.Sorted k L ∧ F.WellFormed k t.symbols Γ := by
  obtain ⟨⟨vs, joined⟩, s1, h1, hrun⟩ := bind_ok.1 hrun
  obtain ⟨hs1, hq1, hall⟩ := sorted_comparable hlaid es (j := none) h (fun u hu => by cases hu) h1
  dsimp only at hrun
  split at hrun
  · rename_i type first rest
    obtain ⟨a, ha, hknown, -, hvs⟩ := hall type rfl
    obtain ⟨a', ha', hrun⟩ := liftBind_ok.1 hrun
    rw [ha] at ha'
    cases ha'
    cases a with
    | none =>
      cases pure_ok.1 hrun
      exact ⟨hs1, wellFormed_top⟩
    | some sort =>
      obtain ⟨⟨b, o⟩, s3, h3, hrun⟩ := bind_ok.1 hrun
      obtain ⟨head, s4, h4, hrun⟩ := bind_ok.1 hrun
      obtain ⟨parts, s5, h5, hrun⟩ := bind_ok.1 hrun
      cases pure_ok.1 hrun
      obtain ⟨hq3, hb3, ho, hagree, hadm⟩ := (h.later hq1 hs1).building.binder h3
      have hvalue : ∀ v ∈ first :: rest, GivesValue k L Γ s1.vars.count s1 s1 v (some sort) :=
        fun v hv => ⟨hs1, .refl _, hknown, (hvs v hv).1, (hvs v hv).2⟩
      obtain ⟨hq4, hb4, hhead⟩ := (hvalue first (by simp)).member hq3 hagree hq3.vars hb3 (.refl _) ho h4
      obtain ⟨-, ht, hparts⟩ := wellFormed_mapM_mkIff (Nat.le_refl _) hagree rest (fun v hv => hvalue v (List.mem_cons_of_mem _ hv))
        (hq3.trans hq4) hb4 (ho.later hq4) hhead h5
      exact ⟨ht, wellFormed_mkForAll hadm (wellFormed_mkAnd hparts)⟩
  · cases pure_ok.1 hrun
    exact ⟨hs1, wellFormed_top⟩

theorem Stating.bind (h : Stating k L s Γ params scope) (htype : L.sortOf type = .ok (some sort)) (hknown : L.Knows (some sort))
    (hrun : binder sort s = .ok ((b, o), t)) :
    Stating k L t (Γ.bind [b]) params (scope.insert name ⟨.bound o, type.single, false⟩) := by
  obtain ⟨hq, hb, ho, hagree, -⟩ := h.building.binder hrun
  refine ⟨hb, h.snapshot.later hq, Scope.Sorted.insert ?_ ⟨(sortOf_single type).trans htype, hknown, .of_sorted ?_, ?_⟩⟩
  · rw [hq.paramSorts]
    exact h.scope.later hq.symbols hq.contexts hagree (List.prefix_refl _) hq.vars
  · exact ho.hasSort
  · exact ho.settled.1

/-- The variables of a quantifier are new and have the sorts of their binders, and the formulas that they are in their domains
are well-formed within all of them. -/
structure Binds (k : SortId → SortId) (L : Layout) (params : List Term) (Γ : SortEnv) (s t : Session) (q : Quantified) : Prop where
  stating : Stating k L t (Γ.bind q.binders) params q.scope
  agree : Valuation.Agree s.vars.count Γ (Γ.bind q.binders)
  fresh : Structure.FreshAfter s.vars.count q.binders
  admits : Γ.Admits q.binders
  members : ∀ F ∈ q.members, F.WellFormed k t.symbols (Γ.bind q.binders)

/-- The variables of a quantifier are bound anew, and their values have the sorts of their domains. -/
theorem sorted_quantified (hlaid : L.Laid symbols) : ∀ (qs : List QuantVar) {scope : Scope}
    {Γ : SortEnv} {s t : Session} {r : Option Quantified}, Stating k L s Γ params scope →
    quantified L params qs scope s = .ok (r, t) → t.Sorted k L ∧ s.Quiet t ∧ ∀ q, r = some q → Binds k L params Γ s t q
  | [], _, Γ, _, _, _, h, hrun => by
    cases pure_ok.1 hrun
    refine ⟨h.building.sorted, .refl _, fun q hq => ?_⟩
    cases hq
    exact ⟨h, .refl _ _, fun _ hb => by simp at hb, trivial, by simp⟩
  | v :: rest, scope, Γ, s, _, _, h, hrun => by
    have hqt := (plain_quantified (choosing_quiet L).plain params (v :: rest) scope).of_ok hrun
    obtain ⟨value, type, s1, a, h1, ha', hnone, hsome⟩ := quantified_cons_ok hrun
    obtain ⟨a', ha, hv, hst⟩ := h.objSet hlaid h1
    rw [ha] at ha'
    cases ha'
    cases a with
    | none =>
      obtain ⟨rfl, rfl⟩ := hnone rfl
      exact ⟨hv.sorted, hqt, fun q hq => by cases hq⟩
    | some sort =>
      obtain ⟨inDomain, s2, r', hmember, hrest, rfl⟩ := hsome sort rfl
      have hbinder : binder sort s1 = .ok ((⟨VarGen.nameOf (s1.vars.count + 1), sort⟩,
          .var (VarGen.nameOf (s1.vars.count + 1))), { s1 with vars := ⟨s1.vars.count + 1⟩ }) := binder_ok.2 rfl
      obtain ⟨hq1, hb1, ho, hagree1, hadm1⟩ := hst.building.binder hbinder
      have hle := hv.quiet.vars
      obtain ⟨hq2, hb2, -⟩ := hv.member hq1 (hagree1.anti hle) (Nat.le_trans hle hq1.vars) hb1 (.refl _) ho hmember
      have hq12 := hq1.trans hq2
      obtain ⟨ht, hq3, hbinds⟩ := sorted_quantified hlaid rest ((hst.bind ha hv.known hbinder).later hq2 hb2.sorted) hrest
      refine ⟨ht, hqt, fun q hq => ?_⟩
      obtain ⟨q', rfl, hq'⟩ := Option.map_eq_some_iff.1 hq
      cases hq'
      obtain ⟨hstating, hagree2, hfresh, hadmits, hmembers⟩ := hbinds q' rfl
      have hle2 : s.vars.count ≤ s2.vars.count := Nat.le_trans hle hq12.vars
      refine ⟨hstating, (hagree1.anti hle).trans (hagree2.anti hle2), fun b hb => ?_, hadm1.append hadmits, fun F hF => ?_⟩
      · rcases List.mem_cons.1 hb with rfl | hb
        · exact ⟨s1.vars.count + 1, Nat.lt_succ_of_le hle, rfl⟩
        · exact hfresh.anti hle2 b hb
      · rcases List.mem_cons.1 hF with rfl | hF
        · -- the formula is built as it would be within all the variables, since it takes none of them
          have hagree' := hagree2.anti hq2.vars
          have hfits := hv.fits.later hv.settled hq1.symbols hq1.contexts ((hagree1.trans (hagree'.anti hq1.vars)).anti hle)
            (List.prefix_refl _)
          have hfree := (hb1.free s2.vars.count).bind_fresh hfresh
          obtain ⟨-, -, hF⟩ := hb1.sorted.member hfits.sorted (hv.settled.mono (Nat.le_trans hle hq1.vars))
            (hb1.params.agree hagree' (Nat.le_refl _)) (ho.agree hagree' (Nat.le_refl _)) hfree hmember
          exact .mono hq3.symbols hF
        · exact hmembers F hF

theorem wellFormed_unknown (h : s.Building k L Γ params) (hrun : unknown params s = .ok (F, t)) :
    t.Sorted k L ∧ F.WellFormed k t.symbols Γ := by
  obtain ⟨p, s1, h1, hrun⟩ := bind_ok.1 hrun
  obtain ⟨d, s2, h2, hrun⟩ := bind_ok.1 hrun
  cases depth_ok.1 h2
  cases pure_ok.1 hrun
  obtain ⟨hs1, hp⟩ := h.sorted.freshPred h1
  have hq := (quiet_freshPred "unknown" []).of_ok h1
  have hatom := hp.wellFormed (h.later hq hs1).params .nil
  rw [List.append_nil] at hatom
  exact ⟨hs1, hatom⟩

theorem wellFormed_equivalent (h : ∀ f ∈ fs, f.WellFormed k symbols Γ) : (equivalent fs).WellFormed k symbols Γ := by
  cases fs with
  | nil => rw [equivalent]; exact wellFormed_top
  | cons f rest =>
    refine wellFormed_mkAnd fun g hg => ?_
    obtain ⟨g', hg', rfl⟩ := List.mem_map.1 hg
    exact wellFormed_mkIff (h f (by simp)) (h g' (by simp [hg']))

/-- The encoding of a formula is well-formed. -/
def Encodes (k : SortId → SortId) (L : Layout) (params : List Term) (f : FormulaExpr) : Prop :=
  ∀ ⦃scope : Scope⦄ ⦃Γ : SortEnv⦄ ⦃s t : Session⦄ ⦃F : Formula⦄, Stating k L s Γ params scope →
    formula L params f scope s = .ok (F, t) → t.Sorted k L ∧ F.WellFormed k t.symbols Γ

theorem wellFormed_formulas (hfs : ∀ f ∈ fs, Encodes k L params f) (h : Stating k L s Γ params scope)
    (hrun : formulas L params fs scope s = .ok (Fs, t)) : t.Sorted k L ∧ ∀ F ∈ Fs, F.WellFormed k t.symbols Γ := by
  induction fs generalizing s Fs with
  | nil =>
    cases pure_ok.1 hrun
    exact ⟨h.building.sorted, by simp⟩
  | cons f rest ih =>
    obtain ⟨hf, hfs⟩ := List.forall_mem_cons.1 hfs
    obtain ⟨G, s1, h1, hrun⟩ := bind_ok.1 hrun
    obtain ⟨Gs, s2, h2, hrun⟩ := bind_ok.1 hrun
    cases pure_ok.1 hrun
    obtain ⟨hs1, hG⟩ := hf h h1
    obtain ⟨hs2, hGs⟩ := ih hfs (h.later ((quiet_formula L params f scope).of_ok h1) hs1) h2
    exact ⟨hs2, List.forall_mem_cons.2 ⟨WellFormed.mono ((quiet_formulas L params rest scope).of_ok h2).symbols hG, hGs⟩⟩

/-- The variables of a quantifier, that they are in their domains, and its body. -/
theorem wellFormed_matrix (hlaid : L.Laid symbols) (hbody : Encodes k L params body) (h : Stating k L s Γ params scope)
    (h1 : quantified L params vars scope s = .ok (some q, s1)) (h2 : formula L params body q.scope s1 = .ok (B, t)) :
    t.Sorted k L ∧ Γ.Admits q.binders ∧ (mkAnd q.members).WellFormed k t.symbols (Γ.bind q.binders) ∧
      B.WellFormed k t.symbols (Γ.bind q.binders) := by
  obtain ⟨hst, -, -, hadm, hmembers⟩ := (sorted_quantified hlaid vars h h1).2.2 q rfl
  have hq2 := (quiet_formula L params body q.scope).of_ok h2
  obtain ⟨ht, hB⟩ := hbody hst h2
  exact ⟨ht, hadm, wellFormed_mkAnd fun G hG => .mono hq2.symbols (hmembers G hG), hB⟩

/-- The encoding of every formula is well formed. -/
theorem wellFormed_formula (hlaid : L.Laid symbols) (f : FormulaExpr) : Encodes k L params f := by
  induction f with
  | literal value =>
    intro scope Γ s t F h hrun
    cases value with
    | true =>
      cases pure_ok.1 hrun
      exact ⟨h.building.sorted, wellFormed_top⟩
    | false =>
      cases pure_ok.1 hrun
      exact ⟨h.building.sorted, wellFormed_bot⟩
    | unknown => exact wellFormed_unknown h.building hrun
  | not f ih =>
    intro scope Γ s t F h hrun
    obtain ⟨G, s1, h1, hrun⟩ := bind_ok.1 hrun
    cases pure_ok.1 hrun
    exact (ih h h1).imp id wellFormed_mkNot
  | and parts ih | or parts ih | equiv parts ih =>
    intro scope Γ s t F h hrun
    obtain ⟨Gs, s1, h1, hrun⟩ := bind_ok.1 hrun
    cases pure_ok.1 hrun
    have hparts := wellFormed_formulas ih h h1
    first
      | exact hparts.imp id wellFormed_mkAnd
      | exact hparts.imp id wellFormed_mkOr
      | exact hparts.imp id wellFormed_equivalent
  | implies premise conclusion ihp ihc =>
    intro scope Γ s t F h hrun
    obtain ⟨P, s1, h1, hrun⟩ := bind_ok.1 hrun
    obtain ⟨C, s2, h2, hrun⟩ := bind_ok.1 hrun
    cases pure_ok.1 hrun
    have hq2 := (quiet_formula L params conclusion scope).of_ok h2
    obtain ⟨hs1, hP⟩ := ihp h h1
    obtain ⟨hs2, hC⟩ := ihc (h.later ((quiet_formula L params premise scope).of_ok h1) hs1) h2
    exact ⟨hs2, wellFormed_mkImplies (WellFormed.mono hq2.symbols hP) hC⟩
  | equal sets => exact fun _ _ _ _ _ => wellFormed_equalSets hlaid
  | isIn set within => exact fun _ _ _ _ _ => wellFormed_includedSet hlaid
  | isEmpty set => exact fun _ _ _ _ _ => wellFormed_emptySet hlaid
  | forAll vars body ih =>
    intro scope Γ s t F h hrun
    obtain ⟨_ | q, s1, h1, hrun⟩ := bind_ok.1 hrun
    · cases pure_ok.1 hrun
      exact ⟨(sorted_quantified hlaid vars h h1).1, wellFormed_top⟩
    · obtain ⟨B, s2, h2, hrun⟩ := bind_ok.1 hrun
      cases pure_ok.1 hrun
      obtain ⟨ht, hadm, hin, hB⟩ := wellFormed_matrix hlaid ih h h1 h2
      exact ⟨ht, wellFormed_mkForAll hadm (wellFormed_mkImplies hin hB)⟩
  | forSome vars body ih =>
    intro scope Γ s t F h hrun
    obtain ⟨_ | q, s1, h1, hrun⟩ := bind_ok.1 hrun
    · cases pure_ok.1 hrun
      exact ⟨(sorted_quantified hlaid vars h h1).1, wellFormed_bot⟩
    · obtain ⟨B, s2, h2, hrun⟩ := bind_ok.1 hrun
      cases pure_ok.1 hrun
      obtain ⟨ht, hadm, hin, hB⟩ := wellFormed_matrix hlaid ih h h1 h2
      exact ⟨ht, wellFormed_mkForSome hadm (wellFormed_mkAnd (forall_mem_pair hin hB))⟩

end Conditions

end Encode

end StoreCheck
