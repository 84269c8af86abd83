import StoreCheck.Proofs.Encoding.StateMeaning

/-!
# Relations between the states before and after a block

A relation between states that holds of every simple statement, that flat loops hand on from their iterations to the merged
state, and that is reflexive and transitive, holds of the states before and after a whole block, at every position where the block
is run (`related_of_block`): alternatives end with the state of the one that is taken, and the iterations of a chained loop run
one after another.
-/

namespace StoreCheck

variable {b c : Block} {k : SortId → SortId} {t s1 : Session} {domain : ObjExpr} {f : Encode.LoopFrame} {order : LoopKind}
  {var : String} {rest body : List Statement}

namespace Encode

open List Structure

variable {M : Structure} {L : Layout} {s : Session} {symbols : Symbols}

/-- The statement has no blocks inside. -/
def IsSimple : Statement → Prop
  | .ifElse _ _ _ => False
  | .either _ => False
  | .forEach _ _ _ _ => False
  | _ => True

/-- A block that is encoded from the session, where all that it comes to is sorted, and whose chained loops have finitely many
iterations in the structure. -/
structure Walked (M : Structure) (L : Layout) (k : SortId → SortId) (s : Session) (b : Block) : Prop where
  placed : ∀ u c, Reaches L s b u c → u.Placed k L
  finite : ∀ u u1 var domain body rest f, Reaches L s b u (.forEach var domain body .chained :: rest) →
    StartsLoop L var domain body .chained u f u1 → ∀ es, u1.Runs M es → (f.iterations M u1 es).Finite

theorem Walked.of_reaches (h : Walked M L k s b) (hreaches : Reaches L s b t c) : Walked M L k t c where
  placed u d hu := h.placed u d (hreaches.trans hu)
  finite u u1 var domain body rest f hu := h.finite u u1 var domain body rest f (hreaches.trans hu)

/-- The relation holds of every step of a block that is encoded from the session. -/
structure Relates (M : Structure) (L : Layout) (ρ : M.Env) (k : SortId → SortId) (R : M.Contents → M.Contents → Prop) (s : Session)
    (b : Block) : Prop extends Walked M L k s b where
  refl : ∀ σ, R σ σ
  trans : ∀ σ τ υ, R σ τ → R τ υ → R σ υ
  simple : ∀ u u' st rest, Reaches L s b u (st :: rest) → IsSimple st → statement L st u = .ok ((), u') → M.Obeys ρ u' →
    ∀ es, u.Runs M es → R (u.snapshot.on M es) (u'.snapshot.on M es)
  /-- What holds of each iteration of a flat loop holds of what they are merged to. -/
  flat : ∀ u u1 u' var domain body rest f, Reaches L s b u (.forEach var domain body .flat :: rest) →
    StartsLoop L var domain body .flat u f u1 → ∀ r : FlatRun L f u1 u', M.Obeys ρ u' → ∀ es, u1.Runs M es →
      (∀ x ∈ f.iterations M u1 es, R (u.snapshot.on M es) (r.inner.snapshot.on M (es ++ [x]))) →
      R (u.snapshot.on M es)
        (Contents.merge (u.snapshot.on M es) (f.iterations M u1 es) fun x => r.inner.snapshot.on M (es ++ [x]))

/-- What holds of the steps of a block holds of those of a part that its encoding comes to. -/
theorem Relates.of_reaches (h : Relates M L ρ k R s b) (hreaches : Reaches L s b t c) : Relates M L ρ k R t c where
  toWalked := h.toWalked.of_reaches hreaches
  refl := h.refl
  trans := h.trans
  simple u u' st rest hu := h.simple u u' st rest (hreaches.trans hu)
  flat u u1 u' var domain body rest f hu := h.flat u u1 u' var domain body rest f (hreaches.trans hu)

/-- A conditional has alternatives. -/
theorem alternatives_of_ifElse (hrun : statement L (.ifElse condition thenBlock elseBlock) s = .ok ((), t)) :
    ∃ alternatives s1, alternativesOf L (.ifElse condition thenBlock elseBlock) s = .ok (alternatives, s1) ∧
      alternatives ≠ [] ∧ ∀ a ∈ alternatives, a.2 = thenBlock ∨ a.2 = elseBlock := by
  obtain ⟨taken, s1, skipped, s2, s3, h1, h2, h3, -, -⟩ := ifElse_ok hrun
  refine ⟨[(taken, thenBlock), (skipped, elseBlock)], s3, ?_, by simp, by simp⟩
  exact bind_ok.2 ⟨_, _, h1, bind_ok.2 ⟨_, _, h2, bind_ok.2 ⟨_, _, h3, rfl⟩⟩⟩

/-- A choice between blocks has alternatives. -/
theorem alternatives_of_either {rest : List (List Statement)}
    (hrun : statement L (.either (first :: second :: rest)) s = .ok ((), t)) :
    ∃ alternatives s1, alternativesOf L (.either (first :: second :: rest)) s = .ok (alternatives, s1) ∧
      alternatives ≠ [] ∧ ∀ a ∈ alternatives, a.2 ∈ first :: second :: rest := by
  rw [statement, blocks_eq_map] at hrun
  obtain ⟨indicators, s1, s2, h1, h2, -, -⟩ := either_ok hrun
  rw [← map_cons, ← map_cons, length_map] at h1
  have hlength := length_choiceIndicators h1
  refine ⟨indicators.zip (first :: second :: rest), s2, ?_, ?_, fun a ha => (of_mem_zip ha).2⟩
  · exact bind_ok.2 ⟨_, _, h1, bind_ok.2 ⟨_, _, h2, rfl⟩⟩
  · intro hnil
    have := congrArg List.length hnil
    simp [hlength] at this

/-- What the body of a loop that starts is encoded by. -/
theorem body_of_starts {body : Block} (hstart : StartsLoop L var domain body order s f t) : f.body = block L body := by
  cases hstart
  rfl

section Relations

variable (hlaid : L.Laid symbols)

/-- The relation holds from the state before the block to the state after it, wherever the block is run. -/
def RelatesBlock (M : Structure) (L : Layout) (ρ : M.Env) (k : SortId → SortId) (R : M.Contents → M.Contents → Prop)
    (b : Block) : Prop :=
  ∀ s t, Relates M L ρ k R s b → block L b s = .ok ((), t) → M.Obeys ρ t → ∀ es, s.Runs M es →
    R (s.snapshot.on M es) (t.snapshot.on M es)

include hlaid

/-- Alternatives are related as the one that is taken. -/
theorem related_of_alternatives (h : Relates M L ρ k R s (st :: rest))
    (hbranches : ∀ a ∈ alternatives, RelatesBlock M L ρ k R a.2) (halternatives : alternativesOf L st s = .ok (alternatives, s1))
    (hne : alternatives ≠ []) (hrun : statement L st s = .ok ((), t)) (hM : M.Obeys ρ t) (hes : s.Runs M es) :
    R (s.snapshot.on M es) (t.snapshot.on M es) := by
  obtain ⟨hs1, -⟩ := placed_alternativesOf hlaid (h.placed s _ (.here _ _)) halternatives
  have hq := (quiet_alternativesOf L st).of_ok halternatives
  obtain ⟨r, s2, changes, s3, hbeside, hmerge, hM3, hsnapshot, -⟩ := TakenAlternative.of_branch halternatives hne hrun hM hes
  have hsplit : alternativesOf L st s = .ok (r.before ++ (r.indicator, r.body) :: r.after, s1) :=
    halternatives.trans (congrArg (fun l => Except.ok (l, s1)) r.split)
  have hreaches : Reaches L s (st :: rest) (enterAlternative s1 r.indicator r.reached) r.body :=
    .alternative hsplit r.earlier (.here _ _)
  have hinner := h.placed _ _ (hreaches.trans (reaches_end r.body r.run))
  have hes1 := hes.later hq
  have hbody := hbranches _ r.mem _ _ (h.of_reaches hreaches) r.run (hM.of_grows r.made.axioms) es (r.runs_enter hs1.sorted hes1)
  rw [hsnapshot, r.on_branch hs1 hinner hbeside hmerge hM3 hes1, ← hq.snapshot]
  exact hbody

/-- Where the body of a flat loop is related, each iteration is, from the state before the loop. -/
theorem related_iterations {body : Block} (hs : s.Placed k L) (hstart : StartsLoop L var domain body .flat s f s1)
    (hbody : RelatesBlock M L ρ k R body) (h : Relates M L ρ k R (enterBody f s1.snapshot s1) body) (r : FlatRun L f s1 t)
    (hM : M.Obeys ρ t) (hes : s1.Runs M es) (hx : x ∈ f.iterations M s1 es) :
    R (s.snapshot.on M es) (r.inner.snapshot.on M (es ++ [x])) := by
  have hf := placed_of_starts hlaid hs hstart
  have hentry : s1.snapshot.on M (es ++ [x]) = s.snapshot.on M es := by
    rw [← snapshot_of_starts hstart]
    refine Snapshot.on_append (fun slot hslot => ?_) [x]
    rw [← length_map (f := M.sort), hes.sorts]
    exact Snapshot.Sorted.depth_le hf.session.snapshot slot hslot
  rw [← hentry]
  exact hbody _ _ h (body_of_starts hstart ▸ r.body) (hM.of_grows r.extends_inner.axioms) _ (hf.runs_flat hes hx)

/-- A flat loop is related as its iterations are. -/
theorem related_of_flat (h : Relates M L ρ k R s (.forEach var domain body .flat :: rest)) (hbody : RelatesBlock M L ρ k R body)
    (hstart : StartsLoop L var domain body .flat s f s1)
    (hrun : statement L (.forEach var domain body .flat) s = .ok ((), t)) (hM : M.Obeys ρ t) (hes : s.Runs M es) :
    R (s.snapshot.on M es) (t.snapshot.on M es) := by
  have hs := h.placed s _ (.here _ _)
  have hgrows := grows_of_starts hstart
  obtain ⟨r⟩ := FlatRun.of_ok (L := L) ((loop_of_starts hstart hrun).1 rfl)
  have hreaches : Reaches L s (.forEach var domain body .flat :: rest) (enterBody f s1.snapshot s1) body :=
    .flatBody hstart (.here _ _)
  have hinner := h.placed _ _ (hreaches.trans (reaches_end body (body_of_starts hstart ▸ r.body)))
  have hes1 := hes.beside hs.sorted hgrows.beside hgrows.guards
  rw [r.on_flat (placed_of_starts hlaid hs hstart) hinner hM hes1, snapshot_of_starts hstart]
  exact h.flat s s1 t var domain body rest f (.here _ _) hstart r hM es hes1 fun x hx =>
    related_iterations hlaid hs hstart hbody (h.of_reaches hreaches) r hM hes1 hx

/-- A chained loop is related as its iterations are, one after another. -/
theorem related_of_chained
    (h : Relates M L ρ k R s (.forEach var domain body .chained :: rest)) (hbody : RelatesBlock M L ρ k R body)
    (hstart : StartsLoop L var domain body .chained s f s1)
    (hrun : statement L (.forEach var domain body .chained) s = .ok ((), t)) (hM : M.Obeys ρ t) (hes : s.Runs M es) :
    R (s.snapshot.on M es) (t.snapshot.on M es) := by
  have hs := h.placed s _ (.here _ _)
  have hf := placed_of_starts hlaid hs hstart
  have hgrows := grows_of_starts hstart
  obtain ⟨r⟩ := ChainedRun.of_ok ((loop_of_starts hstart hrun).2.1 rfl)
  have hM1 : M.Obeys ρ s1 := hM.of_grows ((r.made_inner hf).trans r.extends_inner).axioms
  obtain ⟨_, _, _, _, _, hiterates⟩ := iterates_of_starts hlaid hs hstart hM1
  have hr : block L body (enterBody f r.entry (r.ready.inContext s1.context)) = .ok ((), r.inner) :=
    body_of_starts hstart ▸ r.body
  have hreaches : Reaches L s (.forEach var domain body .chained :: rest) (enterBody f r.entry (r.ready.inContext s1.context)) body :=
    .chainedBody hstart r.starts (.here _ _)
  have hinner := h.placed _ _ (hreaches.trans (reaches_end body hr))
  have hes1 := hes.beside hs.sorted hgrows.beside hgrows.guards
  obtain ⟨its, hlists, hthreaded⟩ := r.threaded hf hinner hM hes1 (hiterates.ordered _ r.kind es hes1.sorts)
    (h.finite s s1 var domain body rest f (.here _ _) hstart es hes1)
  rw [← snapshot_of_starts hstart]
  refine (hthreaded.keeps (P := R (s1.snapshot.on M es)) (fun x hx hstart => ?_) (h.refl _)).1
  obtain ⟨hsort, hlive⟩ := (hlists.mem x).1 hx
  exact h.trans _ _ _ hstart (hbody _ _ (h.of_reaches hreaches) hr (hM.of_grows r.extends_inner.axioms) _
    (r.runs_body hf hes1 hsort hlive))

/-- A loop is related as its iterations are. -/
theorem related_of_loop (h : Relates M L ρ k R s (.forEach var domain body order :: rest)) (hbody : RelatesBlock M L ρ k R body)
    (hrun : statement L (.forEach var domain body order) s = .ok ((), t)) (hM : M.Obeys ρ t) (hes : s.Runs M es) :
    R (s.snapshot.on M es) (t.snapshot.on M es) := by
  have hforEach := hrun
  obtain ⟨value, type, s1, hdomain, hcases⟩ := forEach_ok hforEach
  obtain ⟨-, rfl⟩ | ⟨sort, plan, child, s2, s3, hsort, hplan, hcontext, haxioms, -⟩ := hcases
  · -- over a set of the bottom type there is nothing to do
    rw [((quiet_objSet L false s.scope domain).of_ok hdomain).snapshot]
    exact h.refl _
  · have hstart : StartsLoop L var domain body order s _ s3 := .intro hdomain hsort hplan hcontext haxioms
    cases order with
    | flat => exact related_of_flat hlaid h hbody hstart hrun hM hes
    | chained => exact related_of_chained hlaid h hbody hstart hrun hM hes

omit hlaid in
/-- A block is related if its statements are. -/
theorem relatesBlock_of {b : List Statement} (hb : ∀ st ∈ b, ∀ {s rest t es}, Relates M L ρ k R s (st :: rest) →
      statement L st s = .ok ((), t) → M.Obeys ρ t → s.Runs M es → R (s.snapshot.on M es) (t.snapshot.on M es)) :
    RelatesBlock M L ρ k R b := by
  induction b with
  | nil =>
    intro s t h hrun _ _ _
    cases pure_ok.1 hrun
    exact h.refl _
  | cons st rest ih =>
    intro s t h hrun hM es hes
    obtain ⟨hst, hothers⟩ := forall_mem_cons.1 hb
    obtain ⟨⟨⟩, s1, h1, h2⟩ := bind_ok.1 hrun
    have hgrows := (grows_statement L st).of_ok h1
    have hM1 := hM.of_grows ((grows_block L rest).of_ok h2).axioms
    have hs := h.placed s _ (.here _ _)
    have hrest := ih hothers s1 t (h.of_reaches (.later h1 (.here _ _))) h2 hM es (hes.beside hs.sorted hgrows.beside hgrows.guards)
    exact h.trans _ _ _ (hst h h1 hM1 hes) hrest

theorem related_of_statement {ρ : M.Env} {k : SortId → SortId} {R : M.Contents → M.Contents → Prop} {rest : List Statement}
    {t : Session} {es : List M.Elem} (st : Statement) (h : Relates M L ρ k R s (st :: rest)) (hrun : statement L st s = .ok ((), t))
    (hM : M.Obeys ρ t) (hes : s.Runs M es) : R (s.snapshot.on M es) (t.snapshot.on M es) := by
  induction st generalizing s t rest es with
  | assign | create | delete | createTuple | deleteTuple => exact h.simple s t _ rest (.here _ _) trivial hrun hM es hes
  | ifElse condition thenBlock elseBlock ihthen ihelse =>
    obtain ⟨alternatives, s1, halternatives, hne, hblocks⟩ := alternatives_of_ifElse hrun
    refine related_of_alternatives hlaid h (fun a ha => ?_) halternatives hne hrun hM hes
    rcases hblocks a ha with heq | heq
    · rw [heq]
      exact relatesBlock_of ihthen
    · rw [heq]
      exact relatesBlock_of ihelse
  | either branches ih =>
    rcases branches with _ | ⟨first, _ | ⟨second, others⟩⟩
    · cases pure_ok.1 hrun
      exact h.refl _
    · exact relatesBlock_of (ih first mem_cons_self) s t (h.of_reaches (.only (.here _ _))) hrun hM es hes
    · obtain ⟨alternatives, s1, halternatives, hne, hblocks⟩ := alternatives_of_either hrun
      exact related_of_alternatives hlaid h (fun a ha => relatesBlock_of (ih a.2 (hblocks a ha))) halternatives hne hrun hM hes
  | forEach var domain body order ih => exact related_of_loop hlaid h (relatesBlock_of ih) hrun hM hes

/-- The relation holds from the state before a block to the state after it. -/
theorem related_of_block (b : Block) : RelatesBlock M L ρ k R b := relatesBlock_of fun st _ => related_of_statement hlaid st

end Relations

end Encode

end StoreCheck
