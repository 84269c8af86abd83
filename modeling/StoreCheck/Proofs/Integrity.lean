import Mathlib.Data.Set.Finite.Range
import StoreCheck.Proofs.Creations
import StoreCheck.Proofs.Encoding.StateRuns

/-!
# Referential integrity

In the final state of an action every existing tuple has existing ends (`references_kept`), if no flat loop has a body that deletes
objects of a component and relates objects of the same component, and if chained loops have finitely many iterations. The
iterations of a flat loop are merged sort by sort, so that an object that one iteration deletes may be the end of a tuple that
another iteration adds (`reference_lost_overbooking`).
-/

namespace StoreCheck

open Encode Structure Layout StoreCheck.Flow

variable {ts : TupleSort} {st : Statement} {component : Nat}

namespace Flow

/-- The statement deletes no object of the component. -/
def keeps (store : Store) (component : Nat) (types : TypeEnv) : Statement → Bool
  | .delete objects =>
    match infer store types objects with
    | .ok type => store.graph.componentOfSignature type.signature != some component
    | .error _ => true
  | _ => true

/-- The statement relates no object of the component. -/
def detached (store : Store) (component : Nat) (types : TypeEnv) : Statement → Bool
  | .createTuple source relation _ =>
    match infer store types source with
    | .ok type =>
      match store.relationOn type.signature relation with
      | .ok r => store.graph.componentOf r.source != component && store.graph.componentOf r.target != component
      | .error _ => true
    | .error _ => true
  | _ => true

/-- If the statement is a flat loop, its body does not delete objects of a component of which it also relates objects. -/
def intact (store : Store) (types : TypeEnv) : Statement → Bool
  | .forEach var domain body .flat =>
    match infer store types domain with
    | .ok type => type.signature.isBottom || (List.range store.graph.componentCount).all fun component =>
        everywhereIn store (keeps store component) (types.insert var type.single) body ||
          everywhereIn store (detached store component) (types.insert var type.single) body
    | .error _ => true
  | _ => true

end Flow

/-! ## Contents with all ends -/

variable {M : Structure} {L : Layout} {s t : Session} {ρ : M.Env} {k : SortId → SortId} {symbols : Symbols}

namespace Structure.Contents

/-- Every tuple has its ends. -/
def Intact (L : Layout) (σ : M.Contents) : Prop :=
  ∀ id ts, List.lookup id L.tupleSorts = some ts → ∀ e ∈ σ ts.sort, ts.Left M e ∈ σ ts.source ∧ ts.Right M e ∈ σ ts.target

variable {σ : M.Contents}

theorem intact_add (h : σ.Intact L) {sort : SortId} (hsort : ∀ id ts, List.lookup id L.tupleSorts = some ts → ts.sort ≠ sort)
    (X : Set M.Elem) : Intact L (Function.update σ sort (σ sort ∪ X)) := by
  intro id ts hts e he
  rw [Function.update_of_ne (hsort id ts hts)] at he
  have hgrows : ∀ sort', σ sort' ⊆ Function.update σ sort (σ sort ∪ X) sort' := by
    intro sort'
    by_cases heq : sort' = sort
    · subst heq
      rw [Function.update_self]
      exact Set.subset_union_left
    · rw [Function.update_of_ne heq]
  obtain ⟨hleft, hright⟩ := h id ts hts e he
  exact ⟨hgrows _ hleft, hgrows _ hright⟩

theorem intact_without (hlaid : L.Laid symbols) (h : σ.Intact L) (sort : SortId) (X : Set M.Elem) :
    Intact L (without L sort X σ) := by
  intro id ts hts e he
  obtain ⟨hin, -, hends⟩ := mem_without.1 he
  obtain ⟨hleft, hright⟩ := h id ts hts e hin
  obtain ⟨hl, hr⟩ := hends id ts hts rfl
  obtain ⟨⟨c, hc, hsource⟩, d, hd, htarget⟩ := hlaid.ends_eq hts
  -- an end is no tuple, so that only the deletion of the end itself matters
  refine ⟨mem_without.2 ⟨hleft, hl, fun id' ts' hts' heq => ?_⟩, mem_without.2 ⟨hright, hr, fun id' ts' hts' heq => ?_⟩⟩
  · exact absurd (hsource.symm.trans heq.symm) (hlaid.component_ne_tupleSort hts' hc)
  · exact absurd (htarget.symm.trans heq.symm) (hlaid.component_ne_tupleSort hts' hd)

theorem intact_update {Y : Set M.Elem} (hlaid : L.Laid symbols) (h : σ.Intact L) {id : RelationId}
    (hts : List.lookup id L.tupleSorts = some ts)
    (hY : ∀ e ∈ Y, e ∈ σ ts.sort ∨ ts.Left M e ∈ σ ts.source ∧ ts.Right M e ∈ σ ts.target) :
    Intact L (Function.update σ ts.sort Y) := by
  intro id' ts' hts' e he
  obtain ⟨⟨c, hc, hsource⟩, d, hd, htarget⟩ := hlaid.ends_eq hts'
  have hsource' : ts'.source ≠ ts.sort := hsource ▸ hlaid.component_ne_tupleSort hts hc
  have htarget' : ts'.target ≠ ts.sort := htarget ▸ hlaid.component_ne_tupleSort hts hd
  rw [Function.update_of_ne hsource', Function.update_of_ne htarget']
  by_cases heq : ts'.sort = ts.sort
  · obtain ⟨rfl, rfl⟩ := hlaid.tupleSort_inj hts' hts heq
    rw [Function.update_self] at he
    exact (hY e he).elim (h _ _ hts e) id
  · rw [Function.update_of_ne heq] at he
    exact h id' ts' hts' e he

/-- Iterations that leave the contents intact can be merged where an end that one of them takes is the end of no tuple that
another one adds. -/
theorem intact_merge {its : Set M.Elem} {out : M.Elem → M.Contents} (h : σ.Intact L) (hout : ∀ x ∈ its, (out x).Intact L)
    (hapart : ∀ id ts, List.lookup id L.tupleSorts = some ts → ∀ sort, sort = ts.source ∨ sort = ts.target →
      (∀ x ∈ its, σ sort ⊆ out x sort) ∨ ∀ x ∈ its, out x ts.sort ⊆ σ ts.sort) : Intact L (merge σ its out) := by
  intro id ts hts e he
  rcases mem_merge.1 he with ⟨hin, hall⟩ | ⟨hnot, x, hx, hin⟩
  · obtain ⟨hleft, hright⟩ := h id ts hts e hin
    exact ⟨mem_merge.2 (.inl ⟨hleft, fun x hx => (hout x hx id ts hts e (hall x hx)).1⟩),
      mem_merge.2 (.inl ⟨hright, fun x hx => (hout x hx id ts hts e (hall x hx)).2⟩)⟩
  · obtain ⟨hleft, hright⟩ := hout x hx id ts hts e hin
    -- an end that was there before is kept by all iterations, since one of them adds a tuple with it
    have hend : ∀ sort, sort = ts.source ∨ sort = ts.target → ∀ o, o ∈ out x sort → o ∈ merge σ its out sort := by
      intro sort hsort o ho
      by_cases hold : o ∈ σ sort
      · rcases hapart id ts hts sort hsort with hkept | hnone
        · exact mem_merge.2 (.inl ⟨hold, fun y hy => hkept y hy hold⟩)
        · exact absurd (hnone x hx hin) hnot
      · exact mem_merge.2 (.inr ⟨hold, x, hx, ho⟩)
    exact ⟨hend _ (.inl rfl) _ hleft, hend _ (.inr rfl) _ hright⟩

end Structure.Contents

/-! ## Simple statements -/

/-- What a statement without blocks may do to the contents, with the types of the variables in front of it. -/
inductive SimpleStep (M : Structure) (L : Layout) (types : TypeEnv) (σ : M.Contents) : Statement → M.Contents → Prop where
  | same (st : Statement) : SimpleStep M L types σ st σ
  | create {className : String} {var : Option String} {c : ClassId} (hc : c.index < L.graph.size) (X : Set M.Elem) :
      SimpleStep M L types σ (.create className var) (Function.update σ (L.classSort c) (σ (L.classSort c) ∪ X))
  | delete {objects : ObjExpr} {type : ObjType} {sort : SortId} (htype : infer L.store types objects = .ok type)
      (hsort : L.sortOf type = .ok (some sort)) (X : Set M.Elem) :
      SimpleStep M L types σ (.delete objects) (Contents.without L sort X σ)
  -- tuples are added between existing objects only
  | link {source target : ObjExpr} {relation : String} {type : ObjType} {r : Relation} {ts : TupleSort} {Y : Set M.Elem}
      (htype : infer L.store types source = .ok type) (hr : L.store.relationOn type.signature relation = .ok r)
      (hts : List.lookup r.base L.tupleSorts = some ts)
      (hY : ∀ e ∈ Y, e ∈ σ ts.sort ∨ ts.Left M e ∈ σ ts.source ∧ ts.Right M e ∈ σ ts.target) :
      SimpleStep M L types σ (.createTuple source relation target) (Function.update σ ts.sort Y)
  | unlink {source target : ObjExpr} {relation : String} {id : RelationId} {ts : TupleSort} {Y : Set M.Elem}
      (hts : List.lookup id L.tupleSorts = some ts) (hY : Y ⊆ σ ts.sort) :
      SimpleStep M L types σ (.deleteTuple source relation target) (Function.update σ ts.sort Y)

/-- The ends of a tuple are of the sorts of its ends. -/
theorem TupleSort.sort_ends (hlaid : L.Laid symbols) (hfits : M.Fits symbols) {id : RelationId}
    (hts : List.lookup id L.tupleSorts = some ts) (he : M.sort e = ts.sort) :
    M.sort (ts.Left M e) = ts.source ∧ M.sort (ts.Right M e) = ts.target := by
  obtain ⟨⟨_, hleft⟩, ⟨_, hright⟩⟩ := hlaid.ends (id, ts) (mem_of_lookup hts)
  exact ⟨hfits ts.left _ hleft [e] (congrArg (· :: []) he), hfits ts.right _ hright [e] (congrArg (· :: []) he)⟩

/-- A simple statement does such a step, wherever it is run. -/
theorem simpleStep_of_statement (hlaid : L.Laid symbols) (hfits : M.Fits symbols) (hs : s.Placed k L)
    {types : TypeEnv} (htypes : s.Follows types) (hsimple : IsSimple st) (hrun : statement L st s = .ok ((), t))
    (hM : M.Obeys ρ t) (hes : s.Runs M es) : SimpleStep M L types (s.snapshot.on M es) st (t.snapshot.on M es) := by
  cases st with
  | assign var value =>
    rw [snapshot_assign hrun]
    exact .same _
  | create className var =>
    obtain ⟨c, made, hadds, -, hon⟩ := on_create hlaid hs hrun hM
    rw [hon es hes]
    exact .create (ClassGraph.resolveIn_lt hadds.resolved) _
  | delete objects =>
    obtain ⟨value, type, s1, hvalue, ⟨-, hsame⟩ | ⟨sort, hsort, hon⟩⟩ := on_delete hlaid hs hrun hM
    · rw [hsame]
      exact .same _
    · obtain ⟨u, hu, hsignature⟩ := htypes.infer (objSet_ok hvalue).1
      rw [hon es hes]
      exact .delete hu ((sortOf_congr hsignature).trans hsort) _
  | createTuple source relation target =>
    obtain ⟨v, vt, s1, w, wt, s2, r, ts, hv, -, hr, -, hts, hon⟩ := on_updateTuples hlaid hs hrun hM
    obtain ⟨u, hu, hsignature⟩ := htypes.infer (objSet_ok hv).1
    rw [hon es hes]
    refine .link hu (by rw [hsignature]; exact hr) hts ?_
    rintro e ⟨he, hold | ⟨-, hleft, hright⟩⟩
    · exact .inl ⟨he, hold⟩
    · obtain ⟨hl, hr⟩ := TupleSort.sort_ends hlaid hfits hts he
      exact .inr ⟨⟨hl, hleft⟩, hr, hright⟩
  | deleteTuple source relation target =>
    obtain ⟨v, vt, s1, w, wt, s2, r, ts, -, -, -, -, hts, hon⟩ := on_updateTuples hlaid hs hrun hM
    rw [hon es hes]
    refine .unlink hts ?_
    rintro e ⟨he, hold, -⟩
    exact ⟨he, hold⟩
  | ifElse condition thenBlock elseBlock => cases hsimple
  | either branches => cases hsimple
  | forEach var domain body order => cases hsimple

namespace SimpleStep

variable {types : TypeEnv} (hlaid : L.Laid symbols)

include hlaid

/-- A simple statement keeps tuples whole. -/
theorem intact (h : SimpleStep M L types σ st τ) (hσ : σ.Intact L) : τ.Intact L := by
  cases h with
  | same => exact hσ
  | create hc X =>
    refine Contents.intact_add hσ (fun id ts hts => ?_) X
    exact (hlaid.sortOf_ne_tupleSort (sortOf_class (t := .ofClass _) _ rfl) hts).symm
  | delete htype hsort X => exact Contents.intact_without hlaid hσ _ X
  | link htype hr hts hY => exact Contents.intact_update hlaid hσ hts hY
  | unlink hts hY => exact Contents.intact_update hlaid hσ hts fun e he => .inl (hY he)

/-- A simple statement that deletes nothing of a component keeps its objects. -/
theorem kept (h : SimpleStep M L types σ st τ) (hlt : component < L.graph.componentCount)
    (hkeeps : keeps L.store component types st = true) : σ ⟨component⟩ ⊆ τ ⟨component⟩ := by
  cases h with
  | same => exact subset_rfl
  | @create _ _ c hc X =>
    by_cases heq : (⟨component⟩ : SortId) = L.classSort c
    · rw [heq, Function.update_self]
      exact Set.subset_union_left
    · rw [Function.update_of_ne heq]
  | @delete objects type sort htype hsort X =>
    simp only [keeps, htype, bne_iff_ne, ne_eq] at hkeeps
    intro e he
    refine Contents.mem_without.2 ⟨he, fun heq => ?_, fun id ts hts heq => ?_⟩
    · obtain ⟨component', -, hcomponent, rfl⟩ := hlaid.sortOf_eq (Nat.lt_of_le_of_lt (Nat.zero_le _) hlt) hsort
      cases heq
      exact absurd hcomponent hkeeps
    · exact absurd heq.symm (hlaid.component_ne_tupleSort hts hlt)
  | link htype hr hts hY => rw [Function.update_of_ne (hlaid.component_ne_tupleSort hts hlt)]
  | unlink hts hY => rw [Function.update_of_ne (hlaid.component_ne_tupleSort hts hlt)]

/-- A simple statement that relates nothing of a component adds no tuples with such an end. -/
theorem noneAdded (h : SimpleStep M L types σ st τ) {id : RelationId} {ts : TupleSort}
    (hts : List.lookup id L.tupleSorts = some ts) (hend : (⟨component⟩ : SortId) = ts.source ∨ ⟨component⟩ = ts.target)
    (hdetached : detached L.store component types st = true) : τ ts.sort ⊆ σ ts.sort := by
  cases h with
  | same => exact subset_rfl
  | @create _ _ c hc X =>
    rw [Function.update_of_ne (hlaid.sortOf_ne_tupleSort (sortOf_class (t := .ofClass c) c rfl) hts).symm]
  | delete htype hsort X => exact fun e he => (Contents.mem_without.1 he).1
  | @link source target relation type r ts' Y htype hr hts' hY =>
    simp only [detached, htype, hr, Bool.and_eq_true, bne_iff_ne, ne_eq] at hdetached
    by_cases heq : ts.sort = ts'.sort
    · obtain ⟨-, rfl⟩ := hlaid.tupleSort_inj hts hts' heq
      have hmem := (Store.relationOn_ok hr).1
      obtain ⟨hnear, hfar⟩ := hlaid.ends_of_base hmem hts'
      rw [hlaid.classSort_eq (hlaid.store.source r hmem)] at hnear
      rw [hlaid.classSort_eq (hlaid.store.target r hmem)] at hfar
      have hends : (⟨component⟩ : SortId) = ts.nearSort r.flipped ∨ ⟨component⟩ = ts.farSort r.flipped := by
        cases r.flipped
        · exact hend
        · exact hend.symm
      rw [hnear, hfar] at hends
      rcases hends with heq | heq
      · exact absurd (SortId.mk.inj heq).symm hdetached.1
      · exact absurd (SortId.mk.inj heq).symm hdetached.2
    · rw [Function.update_of_ne heq]
  | @unlink _ _ _ id' ts' Y hts' hY =>
    by_cases heq : ts.sort = ts'.sort
    · rw [heq, Function.update_self]
      exact hY
    · rw [Function.update_of_ne heq]

end SimpleStep

/-! ## Blocks -/

section Blocks

variable {types : TypeEnv} {b : Block} (hlaid : L.Laid symbols) (hfits : M.Fits symbols)
  (hw : Walked M L k s b) (htypes : s.Follows types)

include hlaid hfits hw htypes

/-- What holds of every step of the simple statements, at the types in front of them, and of merged iterations, holds along the
block. -/
theorem relates_of_steps (hall : everywhereIn L.store p types b = true) (hrefl : ∀ σ, R σ σ)
    (htrans : ∀ σ τ υ, R σ τ → R τ υ → R σ υ) (hstep : ∀ types st σ τ, p types st = true → SimpleStep M L types σ st τ → R σ τ)
    (hmerge : ∀ σ its out, (∀ x ∈ its, R σ (out x)) → R σ (Contents.merge σ its out)) : Relates M L ρ k R s b where
  toWalked := hw
  refl := hrefl
  trans := htrans
  simple u u' st rest hu hsimple hrun hM es hes := by
    obtain ⟨types', htypes', hall'⟩ := everywhere_of_reaches hu htypes hall
    exact hstep types' st _ _ (everywhere_head hall')
      (simpleStep_of_statement hlaid hfits (hw.placed u _ hu) htypes' hsimple hrun hM hes)
  flat _ _ _ _ _ _ _ _ _ _ _ _ _ _ hits := hmerge _ _ _ hits

/-- A block that deletes nothing of a component keeps its objects. -/
theorem relates_kept (hlt : component < L.graph.componentCount)
    (hkeeps : everywhereIn L.store (keeps L.store component) types b = true) :
    Relates M L ρ k (fun σ τ => σ ⟨component⟩ ⊆ τ ⟨component⟩) s b :=
  relates_of_steps hlaid hfits hw htypes hkeeps (fun _ => subset_rfl) (fun _ _ _ h h' => h.trans h')
    (fun _ _ _ _ hp hstep => hstep.kept hlaid hlt hp)
    fun _ _ _ hits _ he => Contents.mem_merge.2 (.inl ⟨he, fun x hx => hits x hx he⟩)

/-- A block that relates nothing of a component adds no tuples with such an end. -/
theorem relates_noneAdded {id : RelationId} (hts : List.lookup id L.tupleSorts = some ts)
    (hend : (⟨component⟩ : SortId) = ts.source ∨ ⟨component⟩ = ts.target)
    (hdetached : everywhereIn L.store (detached L.store component) types b = true) :
    Relates M L ρ k (fun σ τ => τ ts.sort ⊆ σ ts.sort) s b :=
  relates_of_steps hlaid hfits hw htypes hdetached (fun _ => subset_rfl) (fun _ _ _ h h' => h'.trans h)
    (fun _ _ _ _ hp hstep => hstep.noneAdded hlaid hts hend hp)
    fun _ _ _ hits e he => by
      rcases Contents.mem_merge.1 he with ⟨hin, -⟩ | ⟨-, x, hx, hin⟩
      · exact hin
      · exact hits x hx hin

/-- A block keeps tuples whole if its flat loops can. -/
theorem relates_intact (hintact : everywhereIn L.store (intact L.store) types b = true) :
    Relates M L ρ k (fun σ τ => σ.Intact L → τ.Intact L) s b where
  toWalked := hw
  refl _ h := h
  trans _ _ _ h h' hσ := h' (h hσ)
  simple u u' st rest hu hsimple hrun hM es hes := by
    obtain ⟨types', htypes', -⟩ := everywhere_of_reaches hu htypes hintact
    exact (simpleStep_of_statement hlaid hfits (hw.placed u _ hu) htypes' hsimple hrun hM hes).intact hlaid
  flat u u1 u' var domain body rest f hu hstart r hM es hes hits hσ := by
    obtain ⟨types', htypes', hall⟩ := everywhere_of_reaches hu htypes hintact
    obtain ⟨type, htype, hbottom, hu1, henter⟩ := follows_of_starts htypes' hstart
    have hloop := everywhere_head hall
    simp only [intact, htype, hbottom, Bool.false_or, List.all_eq_true, List.mem_range, Bool.or_eq_true] at hloop
    have hbody := henter u1.snapshot u1 hu1
    have hwalked := hw.of_reaches (hu.trans (.flatBody hstart (.here _ _)))
    refine Contents.intact_merge hσ (fun x hx => hits x hx hσ) fun id ts hts sort hsort => ?_
    obtain ⟨component, hlt, rfl⟩ : ∃ component, component < L.graph.componentCount ∧ sort = ⟨component⟩ := by
      obtain ⟨⟨c, hc, hsource⟩, d, hd, htarget⟩ := hlaid.ends_eq hts
      rcases hsort with rfl | rfl
      · exact ⟨c, hc, hsource⟩
      · exact ⟨d, hd, htarget⟩
    rcases hloop component hlt with hkeeps | hdetached
    · exact .inl fun x hx => related_iterations hlaid (hw.placed u _ hu) hstart (related_of_block hlaid body)
        (relates_kept hlaid hfits hwalked hbody hlt hkeeps) r hM hes hx
    · exact .inr fun x hx => related_iterations hlaid (hw.placed u _ hu) hstart (related_of_block hlaid body)
        (relates_noneAdded hlaid hfits hwalked hbody hts hsort hdetached) r hM hes hx

end Blocks

/-! ## Actions -/

/-- The chained loops of the action have finitely many live iterations, at every position of the structure where they are run. -/
def FiniteChains (store : Store) (action : Action) (M : Structure) : Prop :=
  ∀ entered, action.params.forM (Encode.param (Layout.ofStore store).1) (Layout.ofStore store).2 = .ok ((), entered) →
    ∀ s s1 var domain body rest f,
      Reaches (Layout.ofStore store).1 entered action.block s (.forEach var domain body .chained :: rest) →
      StartsLoop (Layout.ofStore store).1 var domain body .chained s f s1 → ∀ es, s1.Runs M es → (f.iterations M s1 es).Finite

namespace Stages

variable {store : Store} {a : Action} (stages : Stages store a)

theorem walked_block (hwf : store.WellFormed) (hfinite : FiniteChains store a M) :
    Walked M (ofStore store).1 (fun _ => (⟨0⟩ : SortId)) stages.entered a.block where
  placed _ _ hu := Reached.placed hwf (fun _ _ => rfl) (.statement stages.params hu)
  finite u u1 var domain body rest f := hfinite stages.entered stages.params u u1 var domain body rest f

/-- The types of the parameters when the block starts, in the initial state. -/
theorem follows_entered : ∃ types, Flow.params store [] a.params = .ok types ∧ stages.entered.Follows types ∧
    stages.entered.snapshot = (Layout.ofStore store).1.initial :=
  Encode.follows_params a.params (Layout.follows_start store) stages.params

/-- The number of the first final predicate can be computed. -/
theorem finalPred_of_any (h : ((do walk (ofStore store).1 a; distinctAxioms (ofStore store).1 : Encode Unit)
      (ofStore store).2).toOption.any (fun out => out.2.symbols.predicates.length == n) = true) (sort : SortId) :
    stages.finalPred sort = ⟨n + sort.index⟩ := by
  obtain ⟨⟨⟨⟩, u⟩, hrun, hn⟩ := exists_ok_of_any h
  have hwalk : walk (ofStore store).1 a (ofStore store).2 = .ok ((), stages.walked) :=
    bind_ok.2 ⟨(), stages.entered, stages.params, stages.block⟩
  cases hrun.symm.trans (bind_ok.2 ⟨(), stages.walked, hwalk, stages.distinct⟩)
  rw [finalPred, eq_of_beq hn]

end Stages

/-- The initial state keeps tuples whole. -/
theorem intact_initial {store : Store} (hwf : store.WellFormed) (hfits : M.Fits (ofStore store).2.symbols)
    (hfounds : (ofStore store).1.Founds M) : Contents.Intact (ofStore store).1
      ((ofStore store).1.initial.on M []) := by
  have hlaid := laid_ofStore hwf
  intro id ts hts e he
  obtain ⟨i, r, hi, rfl, -⟩ := hlaid.lookup_some hts
  obtain ⟨hleft, hright⟩ := (hfounds.joins r (List.mem_of_getElem? hi) ts hts).ends e he.1 he.2
  obtain ⟨hl, hr⟩ := TupleSort.sort_ends hlaid hfits hts he.1
  exact ⟨⟨hl, hleft⟩, hr, hright⟩

/-- For every valid store, every action whose theory can be made and in which no body of a flat loop deletes objects of a component
and relates objects of the same component, and every model of the theory in which chained loops have finitely many iterations:
every tuple of a base relation that exists finally has a left end that exists finally, of the sort of the source, and a right end
that exists finally, of the sort of the target. -/
theorem references_kept (spec : Spec) (store : Store) (hspec : Store.ofSpec spec = .ok store) (action : Action)
    (hintact : Flow.everywhereOf store (Flow.intact store) action = true) (assumed checked : List FormulaExpr) (name : String)
    (theory : Theory) (htheory : preservationTheory store action assumed checked name = .ok theory) (M : Structure)
    (hM : M.Models theory) (hfinite : FiniteChains store action M) :
    ∃ stages : Stages store action, ∀ r ∈ store.baseRelations,
      ∃ ts, List.lookup r.id (Layout.ofStore store).1.tupleSorts = some ts ∧
        ∀ e, M.sort e = ts.sort → M.pred (stages.finalPred ts.sort) [e] →
          (M.sort (ts.Left M e) = ts.source ∧ M.pred (stages.finalPred ts.source) [ts.Left M e]) ∧
          (M.sort (ts.Right M e) = ts.target ∧ M.pred (stages.finalPred ts.target) [ts.Right M e]) := by
  obtain ⟨stages, hfits, hobeys⟩ := Stages.of_models htheory hM
  have hwf := Store.wellFormed_ofSpec hspec
  have hlaid := Layout.laid_ofStore hwf
  let ρ : M.Env := fun _ => (M.inhabited ⟨0⟩).choose
  have hM' := hobeys ρ
  obtain ⟨types, hparams, htypes, hinitial⟩ := stages.follows_entered
  have hin : Flow.everywhereIn store (Flow.intact store) types action.block = true := by
    rwa [Flow.everywhereOf, hparams] at hintact
  have hrelates := relates_intact (ρ := ρ) hlaid hfits (stages.walked_block hwf hfinite) htypes hin
  -- the whole block is run once, from the initial state
  have hblock := related_of_block hlaid action.block stages.entered stages.walked hrelates stages.block
    (hM'.of_grows stages.extends_walked.axioms) [] ((Layout.runs_of_grows stages.grows_entered []).mpr rfl)
  rw [hinitial] at hblock
  have hfinal := hblock (intact_initial hwf hfits ((Layout.obeys_start store).mp (hM'.of_grows stages.extends_final.axioms)))
  refine ⟨stages, fun r hr => ?_⟩
  obtain ⟨i, -, hts⟩ := hlaid.lookup_base hr
  refine ⟨_, hts, fun e he hexists => ?_⟩
  obtain ⟨hsource, htarget⟩ := hlaid.ends_lt hts
  have hmem := hfinal r.id _ hts e ⟨he, (stages.finalPred_iff hM' (hlaid.mem_sorts.mpr (hlaid.tupleSort_lt hts)) he).mp hexists⟩
  exact ⟨⟨hmem.1.1, (stages.finalPred_iff hM' (hlaid.mem_sorts.mpr hsource) hmem.1.1).mpr hmem.1.2⟩,
    hmem.2.1, (stages.finalPred_iff hM' (hlaid.mem_sorts.mpr htarget) hmem.2.1).mpr hmem.2.2⟩

/-- In a finite structure all loops have finitely many iterations. -/
theorem FiniteModel.finiteChains (N : FiniteModel) (store : Store) (action : Action) : FiniteChains store action N.toStructure := by
  intro _ _ _ s1 _ _ _ _ f _ _ es _
  refine (Set.finite_range fun i : Fin (N.extra f.sort + 1) => (⟨f.sort, i⟩ : N.Elem)).subset ?_
  rintro ⟨sort, i⟩ ⟨hsort, -⟩
  cases hsort
  exact ⟨i, rfl⟩

namespace Hotel

/-- Some guests leave one after another: each is removed, or only gives back all rooms. Then each arriving guest gets a new room. -/
def turnover : Action where
  name := "turnover"
  params := [⟨"leaving", "Guest", .any⟩, ⟨"arriving", "Guest", .any⟩]
  block := [
    .forEach "g" (.var "leaving") [
      .either [[.delete (.iterator "g")], [.deleteTuple (.iterator "g") "stays" (.allOf "Room")]]] .chained,
    .forEach "g" (.var "arriving") [
      .create "Room" (some "r"),
      .createTuple (.iterator "g") "stays" (.var "r")] .flat]

/-- Of two guests in one room the first is removed, and the second moves to a new room. -/
def moving : FiniteModel := model 2 2 [
  -- is_guest, is_regular, is_room
  [[0], [1]], [[0], [1]], [[0], [1]],
  -- existed_initially_guest, existed_initially_room, existed_initially_guest_stays, param_leaving, param_arriving
  [[0], [1]], [[0]], [[0], [2]], [[0], [1]], [[1]],
  -- the first loop: iter_g, before_g, just_before_g, first_g, last_g
  [[0], [1]], [[0, 1]], [[0, 1]], [[0]], [[1]],
  -- the state that an iteration starts with: guests and stays; either_1, either_2
  [[0, 0], [0, 1], [1, 1]], [[0, 0], [0, 2], [1, 2]], [[0]], [[1]],
  -- the guests and stays after a removal, the stays after giving back, the guests and stays after either
  [[0, 1]], [[0, 2]], [], [[0, 1], [1, 1]], [[0, 2]],
  -- the guests and stays after the loop; the second loop: iter_g_2, created_room
  [[1]], [], [[1]], [[1, 1]],
  -- the rooms and stays of an iteration, and after the loop
  [[1, 0], [1, 1]], [[1, 3]], [[0], [1]], [[3]],
  -- exists_finally_guest, exists_finally_room, exists_finally_guest_stays
  [[1]], [[0], [1]], [[3]]]

theorem stays_mem : (⟨⟨0⟩, "stays", ⟨0⟩, ⟨2⟩, .any, none⟩ : Relation) ∈ store.baseRelations := by decide +kernel

theorem lookup_stays : List.lookup ⟨0⟩ (ofStore store).1.tupleSorts = some ⟨⟨2⟩, ⟨0⟩, ⟨1⟩, ⟨0⟩, ⟨1⟩⟩ := by decide +kernel

/-- Each guest gets the one room that is left, or it is closed. -/
def overbooking : Action where
  name := "overbooking"
  params := [⟨"full", "Room", .one⟩]
  block := [
    .forEach "g" (.allOf "Guest") [
      .either [[.createTuple (.iterator "g") "stays" (.var "full")], [.delete (.var "full")]]] .flat]

/-- The first of two guests gets the room, and for the second one it is closed. -/
def collision : FiniteModel := model 2 1 [
  -- is_guest, is_regular, is_room
  [[0], [1]], [], [[0]],
  -- existed_initially_guest, existed_initially_room, existed_initially_guest_stays, param_full
  [[0], [1]], [[0]], [], [[0]],
  -- iter_g, either_1, either_2
  [[0], [1]], [[0]], [[1]],
  -- the stays after getting the room, the rooms and stays after closing it
  [[0, 0]], [], [],
  -- the rooms and stays after either, the rooms and stays after the loop
  [[0, 0]], [[0, 0]], [], [[0]],
  -- exists_finally_guest, exists_finally_room, exists_finally_guest_stays
  [[0], [1]], [], [[0]]]

end Hotel

open Hotel

/-- The tuple of the second guest and the new room exists finally, and so do both. -/
theorem references_kept_turnover :
    Store.ofSpec Hotel.spec = .ok Hotel.store ∧ Flow.everywhereOf Hotel.store (Flow.intact Hotel.store) Hotel.turnover = true ∧
    FiniteChains Hotel.store Hotel.turnover Hotel.moving.toStructure ∧
    ∃ theory, preservationTheory Hotel.store Hotel.turnover [] [] "turnover" = .ok theory ∧
      Hotel.moving.toStructure.Models theory ∧
      ∃ stages : Stages Hotel.store Hotel.turnover,
        Hotel.moving.toStructure.pred (stages.finalPred ⟨2⟩) [(⟨⟨2⟩, 3⟩ : Hotel.moving.Elem)] ∧
        Hotel.moving.toStructure.pred (stages.finalPred ⟨0⟩) [(⟨⟨0⟩, 1⟩ : Hotel.moving.Elem)] ∧
        Hotel.moving.toStructure.pred (stages.finalPred ⟨1⟩) [(⟨⟨1⟩, 1⟩ : Hotel.moving.Elem)] := by
  have hspec := ofSpec_spec
  have hintact : Flow.everywhereOf Hotel.store (Flow.intact Hotel.store) turnover = true := by decide +kernel
  have hfinite := moving.finiteChains Hotel.store turnover
  obtain ⟨theory, htheory, hchecks⟩ := exists_ok_of_any
    (x := preservationTheory Hotel.store turnover [] [] "turnover") (p := fun t => moving.checks t) (by decide +kernel)
  have hmodels := models_of_checks hspec htheory hchecks
  obtain ⟨stages, hkept⟩ := references_kept spec Hotel.store hspec turnover hintact [] [] "turnover" theory htheory _
    hmodels hfinite
  obtain ⟨ts, hts, hends⟩ := hkept _ stays_mem
  cases hts.symm.trans lookup_stays
  have hexists : moving.toStructure.pred (stages.finalPred ⟨2⟩) [(⟨⟨2⟩, 3⟩ : moving.Elem)] := by
    rw [stages.finalPred_of_any (n := 30) (by decide +kernel)]
    rfl
  have hboth := hends (⟨⟨2⟩, 3⟩ : moving.Elem) rfl hexists
  exact ⟨hspec, hintact, hfinite, theory, htheory, hmodels, stages, hexists, hboth.1.2, hboth.2.2⟩

/-- A model of the theory of an accepted action in which a tuple exists finally without its right end: the guest stays in the room
that is closed. -/
theorem reference_lost_overbooking :
    Store.ofSpec Hotel.spec = .ok Hotel.store ∧
    ∃ theory, preservationTheory Hotel.store Hotel.overbooking [] [] "overbooking" = .ok theory ∧
      Hotel.collision.toStructure.Models theory ∧
      ∀ stages : Stages Hotel.store Hotel.overbooking, ∃ r ∈ Hotel.store.baseRelations,
        ∃ ts, List.lookup r.id (Layout.ofStore Hotel.store).1.tupleSorts = some ts ∧
          ∃ e, Hotel.collision.toStructure.sort e = ts.sort ∧ Hotel.collision.toStructure.pred (stages.finalPred ts.sort) [e] ∧
            ¬ Hotel.collision.toStructure.pred (stages.finalPred ts.target) [ts.Right Hotel.collision.toStructure e] := by
  have hspec := ofSpec_spec
  obtain ⟨theory, htheory, hchecks⟩ := exists_ok_of_any
    (x := preservationTheory Hotel.store overbooking [] [] "overbooking") (p := fun t => collision.checks t)
    (by decide +kernel)
  refine ⟨hspec, theory, htheory, models_of_checks hspec htheory hchecks, fun stages => ?_⟩
  refine ⟨_, stays_mem, _, lookup_stays, (⟨⟨2⟩, 0⟩ : collision.Elem), rfl, ?_, ?_⟩
  · rw [stages.finalPred_of_any (n := 17) (by decide +kernel)]
    rfl
  · rw [stages.finalPred_of_any (n := 17) (by decide +kernel)]
    exact Bool.false_ne_true

end StoreCheck
