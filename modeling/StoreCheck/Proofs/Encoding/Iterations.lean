import Mathlib.Data.Set.Finite.Basic
import StoreCheck.Proofs.Encoding.Encoded
import StoreCheck.Proofs.Encoding.LoopMeaning

/-!
# The iterations of a chained loop in a model

The order axioms of a chained loop are those of a discrete order with ends. So, where there are finitely many live iterations,
they can be listed (`ChainOrder.Orders.exists_list`), and what is said of first, neighbouring and last iterations is what
running them one after another says (`ChainOrder.Lists.threaded`). For the states that the iterations start from and end with
this is `threaded_chainedLoop`.
-/

namespace StoreCheck

open List Snapshot Contexts

variable {body : Block} {domain : ObjExpr} {symbols : Symbols} {var : String}

variable {M : Structure} {L : Layout} {s t : Session} {k : SortId → SortId}

/-! ## Lists of iterations -/

/-- Iterations run one after another: each starts from what is there, `start`, and leaves `out`. -/
inductive Threaded {α β : Type} (start out : α → β) : β → List α → β → Prop where
  | done (b : β) : Threaded start out b [] b
  | step {x : α} {rest : List α} {post : β} (h : Threaded start out (out x) rest post) :
      Threaded start out (start x) (x :: rest) post

/-- A property of what the first iteration starts from that every iteration keeps is there at the end, and at the start of each. -/
theorem Threaded.keeps {α β : Type} {start out : α → β} {pre post : β} {its : List α} (h : Threaded start out pre its post)
    {P : β → Prop} (hkeeps : ∀ x ∈ its, P (start x) → P (out x)) (hpre : P pre) : P post ∧ ∀ x ∈ its, P (start x) := by
  induction h with
  | done b => exact ⟨hpre, by simp⟩
  | @step x rest post h ih =>
    obtain ⟨hpost, hrest⟩ := ih (fun y hy => hkeeps y (by simp [hy])) (hkeeps x (by simp) hpre)
    exact ⟨hpost, forall_mem_cons.2 ⟨hpre, hrest⟩⟩

/-- The list has all live objects, each once, in the order. -/
structure ChainOrder.Lists (order : ChainOrder) (M : Structure) (outer : List M.Elem) (live : M.Elem → Prop)
    (its : List M.Elem) : Prop where
  nodup : its.Nodup
  mem : ∀ x, x ∈ its ↔ live x
  ordered : its.Pairwise fun x y => M.pred order.before (outer ++ [x, y])

/-- A finite set that a strict total order is given on can be listed in the order. -/
theorem exists_ordered_list {α : Type} {R : α → α → Prop} (S : Finset α)
    (htrans : ∀ x ∈ S, ∀ y ∈ S, ∀ z ∈ S, R x y → R y z → R x z) (htotal : ∀ x ∈ S, ∀ y ∈ S, x ≠ y → R x y ∨ R y x)
    (hirrefl : ∀ x ∈ S, ¬ R x x) : ∃ l : List α, l.Nodup ∧ (∀ x, x ∈ l ↔ x ∈ S) ∧ l.Pairwise R := by
  classical
  induction S using Finset.induction_on with
  | empty => exact ⟨[], .nil, by simp, .nil⟩
  | @insert a S ha ih =>
    obtain ⟨l, hnodup, hmem, hl⟩ := ih (fun x hx y hy z hz => htrans x (by simp [hx]) y (by simp [hy]) z (by simp [hz]))
      (fun x hx y hy => htotal x (by simp [hx]) y (by simp [hy])) (fun x hx => hirrefl x (by simp [hx]))
    -- the new element goes between those before it and those after it
    have hside : ∀ x ∈ l, R x a ∨ R a x := fun x hx =>
      htotal x (by simp [(hmem x).1 hx]) a (by simp) (by rintro rfl; exact ha ((hmem x).1 hx))
    refine ⟨l.filter (R · a) ++ a :: l.filter (R a ·), ?_, fun x => ?_, ?_⟩
    · refine nodup_append'.2 ⟨hnodup.filter _, nodup_cons.2 ⟨?_, hnodup.filter _⟩, ?_⟩
      · exact fun h => ha ((hmem a).1 (mem_of_mem_filter h))
      · intro x hx hx'
        obtain ⟨hxl, hxa⟩ := mem_filter.1 hx
        have hxS := (hmem x).1 hxl
        rcases mem_cons.1 hx' with rfl | hx'
        · exact ha hxS
        · have hax := (mem_filter.1 hx').2
          exact hirrefl x (by simp [hxS]) (htrans x (by simp [hxS]) a (by simp) x (by simp [hxS])
            (of_decide_eq_true hxa) (of_decide_eq_true hax))
    · simp only [mem_append, mem_filter, mem_cons, Finset.mem_insert, decide_eq_true_eq]
      constructor
      · rintro (⟨h, -⟩ | rfl | ⟨h, -⟩)
        · exact .inr ((hmem x).1 h)
        · exact .inl rfl
        · exact .inr ((hmem x).1 h)
      · rintro (rfl | h)
        · exact .inr (.inl rfl)
        · have hx := (hmem x).2 h
          rcases hside x hx with h | h
          · exact .inl ⟨hx, h⟩
          · exact .inr (.inr ⟨hx, h⟩)
    · refine pairwise_append.2 ⟨hl.filter _, pairwise_cons.2 ⟨fun y hy => ?_, hl.filter _⟩, ?_⟩
      · exact of_decide_eq_true (mem_filter.1 hy).2
      · intro x hx y hy
        obtain ⟨hxl, hxa⟩ := mem_filter.1 hx
        have hxS := (hmem x).1 hxl
        rcases mem_cons.1 hy with rfl | hy
        · exact of_decide_eq_true hxa
        · obtain ⟨hyl, hay⟩ := mem_filter.1 hy
          exact htrans x (by simp [hxS]) a (by simp) y (by simp [(hmem y).1 hyl]) (of_decide_eq_true hxa)
            (of_decide_eq_true hay)

namespace ChainOrder

variable {order : ChainOrder} {sort : SortId} {outer : List M.Elem} {live : M.Elem → Prop}

/-- Finitely many live iterations can be listed in their order. -/
theorem Orders.exists_list (h : order.Orders M sort outer live) (hfinite : {x | M.sort x = sort ∧ live x}.Finite) :
    ∃ its, order.Lists M outer (fun x => M.sort x = sort ∧ live x) its := by
  have hS : ∀ x ∈ hfinite.toFinset, M.sort x = sort ∧ live x := fun x hx => by simpa using hx
  obtain ⟨its, hnodup, hmem, hpairs⟩ := exists_ordered_list (R := fun x y => M.pred order.before (outer ++ [x, y]))
    hfinite.toFinset (fun x hx y hy z hz => h.trans x (hS x hx).1 y (hS y hy).1 z (hS z hz).1)
    (fun x hx y hy => h.total x (hS x hx).1 y (hS y hy).1 (hS x hx).2 (hS y hy).2) (fun x hx => h.irrefl x (hS x hx).1)
  exact ⟨its, hnodup, fun x => by rw [hmem]; simp, hpairs⟩

namespace Lists

variable (h : order.Orders M sort outer live)

include h

/-- The first one of the list is first. -/
theorem first (hlist : order.Lists M outer (fun x => M.sort x = sort ∧ live x) (x :: rest)) :
    M.pred order.first (outer ++ [x]) := by
  obtain ⟨hx, hlx⟩ := (hlist.mem x).1 (by simp)
  refine (h.first x hx).2 ⟨hlx, ?_⟩
  rintro ⟨y, hy, hyx⟩
  rcases mem_cons.1 ((hlist.mem y).2 ⟨hy, (h.ordered y hy x hx hyx).1⟩) with rfl | hmem
  · exact h.irrefl y hy hyx
  · exact h.asymm y hy x hx hyx (rel_of_pairwise_cons hlist.ordered hmem)

/-- The last one of the list is last. -/
theorem last (hlist : order.Lists M outer (fun x => M.sort x = sort ∧ live x) (init ++ [z])) :
    M.pred order.last (outer ++ [z]) := by
  obtain ⟨hz, hlz⟩ := (hlist.mem z).1 (by simp)
  refine (h.last z hz).2 ⟨hlz, ?_⟩
  rintro ⟨y, hy, hzy⟩
  rcases mem_append.1 ((hlist.mem y).2 ⟨hy, (h.ordered z hz y hy hzy).2⟩) with hmem | hmem
  · exact h.asymm z hz y hy hzy ((pairwise_append.1 hlist.ordered).2.2 y hmem z (by simp))
  · rw [mem_singleton.1 hmem] at hzy
    exact h.irrefl z hz hzy

/-- Neighbours in the list are neighbours. -/
theorem next (hlist : order.Lists M outer (fun x => M.sort x = sort ∧ live x) (init ++ x :: y :: rest)) :
    M.pred order.justBefore (outer ++ [x, y]) := by
  obtain ⟨hx, -⟩ := (hlist.mem x).1 (by simp)
  obtain ⟨hy, -⟩ := (hlist.mem y).1 (by simp)
  obtain ⟨-, htail, hinit⟩ := pairwise_append.1 hlist.ordered
  obtain ⟨hxs, htail⟩ := pairwise_cons.1 htail
  refine (h.next x hx y hy).2 ⟨hxs y (by simp), ?_⟩
  rintro ⟨z, hz, hxz, hzy⟩
  rcases mem_append.1 ((hlist.mem z).2 ⟨hz, (h.ordered x hx z hz hxz).2⟩) with hmem | hmem
  · exact h.asymm x hx z hz hxz (hinit z hmem x (by simp))
  rcases mem_cons.1 hmem with rfl | hmem
  · exact h.irrefl z hz hxz
  rcases mem_cons.1 hmem with rfl | hmem
  · exact h.irrefl z hz hzy
  · exact h.asymm z hz y hy hzy ((pairwise_cons.1 htail).1 z hmem)

/-- Where the first iteration starts from what was there, every other one from what its neighbour left, and the end is what the
last one left, the iterations run one after another. -/
theorem threaded {β : Type} {start out : M.Elem → β} {pre post : β}
    (hlist : order.Lists M outer (fun x => M.sort x = sort ∧ live x) its)
    (hfirst : ∀ x, M.sort x = sort → live x → M.pred order.first (outer ++ [x]) → start x = pre)
    (hnext : ∀ x, M.sort x = sort → ∀ y, M.sort y = sort → live y → M.pred order.justBefore (outer ++ [x, y]) →
      start y = out x)
    (hnone : (∀ x, M.sort x = sort → ¬ live x) → post = pre)
    (hlast : ∀ x, M.sort x = sort → M.pred order.last (outer ++ [x]) → post = out x) : Threaded start out pre its post := by
  -- the iterations after one of them
  have hafter : ∀ (rest init : List M.Elem) (x : M.Elem), its = init ++ x :: rest → Threaded start out (out x) rest post := by
    intro rest
    induction rest with
    | nil =>
      rintro init x rfl
      rw [hlast x ((hlist.mem x).1 (by simp)).1 (last h hlist)]
      exact .done _
    | cons y rest ih =>
      rintro init x rfl
      obtain ⟨hy, hly⟩ := (hlist.mem y).1 (by simp)
      rw [← hnext x ((hlist.mem x).1 (by simp)).1 y hy hly (next h hlist)]
      exact .step (ih (init ++ [x]) y (by simp))
  cases its with
  | nil =>
    rw [hnone fun x hx hlx => by simpa using (hlist.mem x).2 ⟨hx, hlx⟩]
    exact .done _
  | cons x rest =>
    obtain ⟨hx, hlx⟩ := (hlist.mem x).1 (by simp)
    rw [← hfirst x hx hlx (first h hlist)]
    exact .step (hafter rest [] x rfl)

end Lists

end ChainOrder

/-! ## States at positions -/

namespace Snapshot

/-- What the snapshot holds of each sort, at a position. -/
def on (σ : Snapshot) (M : Structure) (es : List M.Elem) (sort : SortId) : Set M.Elem :=
  {e | M.sort e = sort ∧ (σ.slot sort).At M es e}

variable {σ : Snapshot} {changes : List (SortId × Slot)} {sort : SortId}

/-- Only the slots that are given change. -/
theorem slot_withSlots_of_not_mem (h : sort ∉ changes.map Prod.fst) : (σ.withSlots changes).slot sort = σ.slot sort := by
  by_contra hne
  obtain ⟨slot, hslot⟩ := exists_mem_of_slot_withSlots_ne changes σ hne
  exact h (mem_map.2 ⟨_, hslot, rfl⟩)

/-- A sort for which slots are given has one of them afterwards. -/
theorem exists_slot_withSlots (hmem : sort ∈ changes.map Prod.fst) :
    ∀ {σ : Snapshot}, sort.index < σ.slots.length → ∃ slot, (sort, slot) ∈ changes ∧ (σ.withSlots changes).slot sort = slot := by
  induction changes with
  | nil => cases hmem
  | cons c rest ih =>
    intro σ hlt
    have hlength : sort.index < (σ.link c.1 c.2).slots.length := by simpa [link] using hlt
    by_cases hrest : sort ∈ rest.map Prod.fst
    · obtain ⟨slot, hslot, heq⟩ := ih hrest hlength
      exact ⟨slot, mem_cons_of_mem _ hslot, heq⟩
    · obtain rfl : sort = c.1 := by simpa [hrest] using hmem
      refine ⟨c.2, mem_cons_self, (slot_withSlots_of_not_mem hrest).trans ?_⟩
      simp [link, slot, hlt]

/-- A slot that is given once is there afterwards. -/
theorem slot_withSlots_of_mem (hnodup : (changes.map Prod.fst).Nodup)
    {slot : Slot} (hmem : (sort, slot) ∈ changes) (hlt : sort.index < σ.slots.length) :
    (σ.withSlots changes).slot sort = slot := by
  obtain ⟨slot', hslot', heq⟩ := exists_slot_withSlots (mem_map_of_mem (f := Prod.fst) hmem) hlt
  rw [heq]
  have hpair := inj_on_of_nodup_map hnodup hslot' hmem rfl
  exact congrArg Prod.snd hpair

theorem length_withSlots (changes : List (SortId × Slot)) (σ : Snapshot) :
    (σ.withSlots changes).slots.length = σ.slots.length := by
  induction changes generalizing σ with
  | nil => rfl
  | cons c rest ih => exact (ih (σ.link c.1 c.2)).trans (by simp [link])

/-- A sort on which two snapshots do not differ has the same slot in both. -/
theorem slot_eq_of_not_mem_difference {τ : Snapshot} (hlength : τ.slots.length = σ.slots.length)
    (h : sort ∉ σ.difference τ) : τ.slot sort = σ.slot sort := by
  by_contra hne
  have hdifferent : σ.slot sort ≠ τ.slot sort := Ne.symm hne
  refine h (mem_filter.2 ⟨?_, decide_eq_true hdifferent⟩)
  have hlt : sort.index < σ.slots.length := by
    by_contra hge
    refine hne ?_
    rw [slot, slot, getD_eq_default _ _ (by omega), getD_eq_default _ _ (by omega)]
  rw [hlength, sorts]
  exact mem_take_iff_getElem.2 ⟨sort.index, by simpa using hlt, by simp⟩

/-- Slots do not look at parameters of deeper contexts. -/
theorem on_append {es : List M.Elem} (hdepth : ∀ slot ∈ σ.slots, slot.depth ≤ es.length) (more : List M.Elem) :
    σ.on M (es ++ more) = σ.on M es := by
  funext sort
  simp only [on, Slot.At, take_append_of_le_length (depth_slot_le hdepth sort)]

end Snapshot

/-! ## Positions inside a loop -/

theorem Contexts.live_extend {cs cs' : Contexts} (h : cs.table <+: cs'.table) {id : ContextId} (hid : id.index < cs.table.length) :
    cs'.Live M id es ↔ cs.Live M id es := by
  unfold Contexts.Live level
  rw [get_extend h hid]

/-- What is run stays so beside it, inside the same branches. -/
theorem Session.Runs.beside (h : s.Runs M es) (hs : s.Sorted k L) (hst : s.Beside t) (hguards : t.guards = s.guards) :
    t.Runs M es := by
  refine ⟨h.sorts.trans (hst.paramSorts hs).symm, ?_, by rw [hguards]; exact h.guards⟩
  rw [hst.context]
  exact (live_extend hst.made.contexts hs.context).2 h.live

namespace Encode

/-- A live iteration of a position where a loop is run is a position where the body is. -/
theorem runs_inside {f : LoopFrame} (hs : s.Sorted k L) (hf : f.Sorted L s) (hcontexts : s.contexts.table <+: t.contexts.table)
    (hcontext : t.context = f.child) (hguards : t.guards = s.guards) (hes : s.Runs M es) (hx : M.sort x = f.sort)
    (hlive : s.contexts.Live M f.child (es ++ [x])) : t.Runs M (es ++ [x]) := by
  have hget := get_extend hcontexts hf.child
  refine ⟨?_, ?_, fun g hg => ?_⟩
  · rw [Session.paramSorts, hcontext, hget, hf.params, map_append, hes.sorts, map_singleton, hx]
  · rw [hcontext]
    exact (live_extend hcontexts hf.child).2 hlive
  · rw [hguards] at hg
    have hdepth : g.depth ≤ es.length := by
      rw [← length_map (f := M.sort), hes.sorts]
      exact (hs.guards g hg).depth
    rw [take_append_of_le_length hdepth]
    exact hes.guards g hg

/-- Some step of a list of steps, with what came before and after it. -/
theorem exists_step_of_forM {α : Type} {rule : α → Encode Unit} (hquiet : ∀ a, Keeps Session.Quiet (rule a)) {a : α} :
    ∀ {l : List α} {s : Session}, l.forM rule s = .ok ((), t) → a ∈ l →
      ∃ s0 t0, s.Quiet s0 ∧ rule a s0 = .ok ((), t0) ∧ t0.Quiet t
  | [], _, _, hmem => by cases hmem
  | b :: rest, s, hrun, hmem => by
    obtain ⟨s1, h1, h2⟩ := forM_cons_ok.1 hrun
    rcases mem_cons.1 hmem with rfl | hmem
    · exact ⟨s, s1, .refl s, h1, (Keeps.forM hquiet rest).of_ok h2⟩
    · obtain ⟨s0, t0, hq, h, hq'⟩ := exists_step_of_forM hquiet h2 hmem
      exact ⟨s0, t0, ((hquiet b).of_ok h1).trans hq, h, hq'⟩

theorem exists_step_of_mapM {α β : Type} {rule : α → Encode β} (hquiet : ∀ a, Keeps Session.Quiet (rule a)) {b : β} :
    ∀ {l : List α} {bs : List β} {s : Session}, l.mapM rule s = .ok (bs, t) → b ∈ bs →
      ∃ a ∈ l, ∃ s0 t0, s.Quiet s0 ∧ rule a s0 = .ok (b, t0) ∧ t0.Quiet t
  | [], _, _, hrun, hmem => by
    cases mapM_nil_ok.1 hrun
    cases hmem
  | a :: rest, _, s, hrun, hmem => by
    obtain ⟨b1, s1, h1, bs1, t1, h2, h3⟩ := mapM_cons_ok.1 hrun
    cases h3
    rcases mem_cons.1 hmem with rfl | hmem
    · exact ⟨a, by simp, s, s1, .refl s, h1, (Keeps.mapM hquiet rest).of_ok h2⟩
    · obtain ⟨a', ha', s0, t0, hq, h, hq'⟩ := exists_step_of_mapM hquiet h2 hmem
      exact ⟨a', by simp [ha'], s0, t0, ((hquiet a).of_ok h1).trans hq, h, hq'⟩

/-! ## Loops that start -/

/-- A loop whose context is there, over a plan that names every sort once. -/
structure LoopFrame.Placed (k : SortId → SortId) (L : Layout) (s : Session) (f : LoopFrame) : Prop where
  session : s.Placed k L
  frame : f.Sorted L s
  body : Keeps Session.Grows f.body
  writes : f.plan.writes.Nodup

theorem nodup_sorts (L : Layout) : L.sorts.Nodup :=
  nodup_range.map fun _ _ h => SortId.mk.inj h

section Starts

variable {order : LoopKind} {f : LoopFrame}

theorem placed_of_starts (hlaid : L.Laid symbols) (h : s.Placed k L)
    (hstart : StartsLoop L var domain body order s f t) : f.Placed k L t := by
  obtain ⟨ht, hf, -, -⟩ := placed_loop hlaid h hstart
  obtain ⟨hdomain, hsort, hplan, hcontext, haxioms⟩ := hstart
  refine ⟨ht, hf, grows_block L body, ?_⟩
  obtain ⟨effects, -, hplan⟩ := exceptBind_ok.1 hplan
  cases hplan
  exact (nodup_sorts L).filter _

theorem snapshot_of_starts (hstart : StartsLoop L var domain body order s f t) : t.snapshot = s.snapshot := by
  obtain ⟨hdomain, hsort, hplan, hcontext, haxioms⟩ := hstart
  rw [((quiet_contextAxioms L _ var _ _).of_ok haxioms).snapshot, (addContext_ok hcontext).2]
  exact ((quiet_objSet L false s.scope domain).of_ok hdomain).snapshot

/-- What the context of a loop says: its live iterations are the elements of the domain, they lie in live iterations around the
loop, and those of a chained loop are in order. -/
structure LoopFrame.Iterates (f : LoopFrame) (M : Structure) (L : Layout) (ρ : M.Env) (s : Session) (value : ObjValue) : Prop where
  domain : ∀ es, s.Runs M es → ∀ e, M.sort e = f.sort →
    (s.contexts.Live M f.child (es ++ [e]) ↔ value.Holds L M s.contexts ρ es e)
  nested : ∀ es : List M.Elem, es.map M.sort = s.paramSorts → ∀ e, M.sort e = f.sort →
    s.contexts.Live M f.child (es ++ [e]) → s.contexts.Live M s.context (es ++ [e])
  ordered : ∀ order, (s.contexts.get f.child).kind = .chained order → ∀ es : List M.Elem, es.map M.sort = s.paramSorts →
    order.Orders M f.sort es fun x => s.contexts.Live M f.child (es ++ [x])

/-- The iterations of a loop that is started are the members of its domain. -/
theorem iterates_of_starts (hlaid : L.Laid symbols) (h : s.Placed k L)
    (hstart : StartsLoop L var domain body order s f t) (hM : M.Obeys ρ t) :
    ∃ value type s1, objSet L false s.scope domain s = .ok ((value, type), s1) ∧ L.sortOf type = .ok (some f.sort) ∧
      f.Iterates M L ρ t value := by
  obtain ⟨ht, hf, -, -⟩ := placed_loop hlaid h hstart
  obtain @⟨value, type, sort, plan, child, s1, s2, _, hdomain, hsort, hplan, hcontext, haxioms⟩ := hstart
  refine ⟨value, type, s1, hdomain, hsort, ?_⟩
  obtain ⟨a, ha, hv, hs1⟩ := placed_objSet hlaid h hdomain
  have hq := (quiet_contextAxioms L child var sort value).of_ok haxioms
  obtain ⟨-, hiterates⟩ := (obeys_contextAxioms (hv.settled.mono (Nat.zero_le _)) haxioms).1 hM
  have hchild : t.contexts.get child = s2.contexts.get child := by rw [hq.table]
  have hparams : (t.contexts.get child).paramSorts = t.paramSorts ++ [sort] := hf.params
  have hlevel : t.contexts.level child = t.paramSorts.length + 1 := by
    rw [ht.sorted.contexts.level_eq, hparams, length_append, length_singleton]
  have hlevel' : (s2.contexts.get child).level = t.paramSorts.length + 1 := by rw [← hchild]; exact hlevel
  obtain ⟨live, -, -, -, -, -, -, hlive, -⟩ := contextAxioms_ok haxioms
  refine ⟨fun es hes e he => ?_, fun es hes e he => ?_, fun order horder es hes => ?_⟩
  · have htake : (es ++ [e]).take (t.contexts.level child) = es ++ [e] := by
      apply take_of_length_le
      rw [hlevel, ← hes.sorts]
      simp
    have hdom := hiterates.domain live hlive es ((Session.runs_iff_of_quiet hq).1 hes) e he
    rw [← hq.table] at hdom
    rw [← hdom]
    show (∀ p, (t.contexts.get child).live = some p → _) ↔ _
    rw [hchild, hlive]
    simp only [Option.some.injEq, forall_eq']
    rw [show (loopFrame var type (s.scope.isLocal domain) child sort plan (block L body)).child = child from rfl, htake]
  · have hnested := hiterates.nested s2.context (by
      have := hf.parent
      rw [show (loopFrame var type (s.scope.isLocal domain) child sort plan (block L body)).child = child from rfl, hchild,
        hq.context] at this
      exact this) (es ++ [e])
    rw [hq.table, hq.context]
    refine hnested ?_
    rw [← hchild, hparams, map_append, hes, map_singleton]
    exact congrArg (fun a => t.paramSorts ++ [a]) he
  · have hordered := hiterates.ordered order (by rw [← hchild]; exact horder) es ?_
    · rw [ownSort, hlevel', ← hchild, hparams] at hordered
      rw [hq.table]
      have hown : order.Orders M sort es fun x => s2.contexts.Live M child (es ++ [x]) := by simpa using hordered
      exact hown
    · rw [outerSorts, hlevel', ← hchild, hparams]
      simpa using hes

end Starts

/-! ## Runs of chained loops -/

/-- The encoding of a chained loop from the session in which its context is there. -/
structure ChainedRun (L : Layout) (f : LoopFrame) (s t : Session) where
  order : ChainOrder
  inputs : List (SortId × Slot)
  carries : List Carry
  /-- What the iterations start from is there. -/
  ready : Session
  /-- The end of the body. -/
  inner : Session
  /-- The starts of the iterations are tied to what was before them. -/
  tied : Session
  changes : List (SortId × Slot)
  exited : Session
  kind : (s.contexts.get f.child).kind = .chained order
  starts : iterationInputs L f (s.inContext f.child) = .ok ((inputs, carries), ready)
  body : f.body (enterBody f (s.snapshot.withSlots inputs) (ready.inContext s.context)) = .ok ((), inner)
  planned : ∀ sort ∈ (s.snapshot.withSlots inputs).difference inner.snapshot, sort ∈ f.plan.writes
  threads : threads L f order s.snapshot ⟨s.snapshot.withSlots inputs, inner.snapshot, inner.scope⟩ carries inputs
    { inner with context := f.child, snapshot := s.snapshot.withSlots inputs, scope := s.scope } = .ok ((), tied)
  exits : inputs.mapM (fun input => exitSlot f order s.snapshot
    ⟨s.snapshot.withSlots inputs, inner.snapshot, inner.scope⟩ input.1) (tied.inContext s.context) = .ok (changes, exited)
  values : f.plan.carried.forM (exitValue L f order s.scope ⟨s.snapshot.withSlots inputs, inner.snapshot, inner.scope⟩)
    (exited.atSnapshot (s.snapshot.withSlots changes)) = .ok ((), t)

theorem ChainedRun.of_ok (h : chainedLoop L f s = .ok ((), t)) : Nonempty (ChainedRun L f s t) := by
  obtain ⟨order, inputs, carries, s1, body, s2, s3, changes, s4, hkind, h1, h2, hplanned, h3, h4, h5⟩ := chainedLoop_ok h
  obtain ⟨s7, h6, rfl, rfl⟩ := loopBody_ok h2
  exact ⟨order, inputs, carries, s1, s7, s3, changes, s4, hkind, h1, h6, hplanned, h3, h4, h5⟩

namespace ChainedRun

variable {f : LoopFrame} (r : ChainedRun L f s t)

/-- The state that the iterations start from. -/
def entry : Snapshot := s.snapshot.withSlots r.inputs

theorem extends_exited : r.exited.Extends t :=
  (r.exited.grows_atSnapshot _).extends.trans ((Keeps.forM (fun name => grows_exitValue f r.order s.scope _ name) _).of_ok r.values).extends

theorem extends_tied : r.tied.Extends t :=
  (r.tied.extends_place _ s.context _ _).trans
    (((Keeps.mapM (fun _ : SortId × Slot => quiet.exitSlot) _).of_ok r.exits).extends.trans
      r.extends_exited)

theorem extends_inner : r.inner.Extends t :=
  (r.inner.extends_place _ f.child r.entry s.scope).trans ((quiet_threads L f _ _ _ _ _).of_ok r.threads).extends |>.trans
    r.extends_tied

theorem grows_ready : (s.inContext f.child).Grows r.ready := (grows_iterationInputs f).of_ok r.starts

theorem map_inputs : r.inputs.map Prod.fst = f.plan.writes := by
  obtain ⟨s1, h1, -⟩ := iterationInputs_ok r.starts
  rw [map_of_mapM Prod.fst id (fun _ _ _ _ h => ?_) h1, map_id]
  obtain ⟨slot, s', -, hp⟩ := bind_ok.1 h
  cases pure_ok.1 hp
  rfl

theorem map_changes : r.changes.map Prod.fst = f.plan.writes := by
  rw [map_of_mapM Prod.fst Prod.fst (fun _ _ _ _ h => ?_) r.exits, r.map_inputs]
  obtain ⟨_, _, _, _, rfl⟩ := exitSlot_ok h
  rfl

theorem snapshot_eq : t.snapshot = s.snapshot.withSlots r.changes := snapshot_exitValues r.values

variable {sort : SortId}

/-- A sort that the body is not planned to write keeps its slot, at the start of the iterations, at their end and after them. -/
theorem slot_of_not_planned (h : sort ∉ f.plan.writes) : r.entry.slot sort = s.snapshot.slot sort ∧
    t.snapshot.slot sort = s.snapshot.slot sort := by
  constructor
  · exact slot_withSlots_of_not_mem (by rw [r.map_inputs]; exact h)
  · rw [r.snapshot_eq]
    exact slot_withSlots_of_not_mem (by rw [r.map_changes]; exact h)

/-! ### What a model says of the run -/

theorem made_inner (h : f.Placed k L s) : s.Extends r.inner :=
  (s.extends_place _ f.child _ _).trans (r.grows_ready.extends.trans
    ((r.ready.extends_place _ f.child _ _).trans (h.body.of_ok r.body).extends))

theorem guards_inner (h : f.Placed k L s) : r.inner.guards = s.guards :=
  (h.body.of_ok r.body).guards.trans r.grows_ready.guards

section Positions

variable {es : List M.Elem} {x : M.Elem} (h : f.Placed k L s) (hes : s.Runs M es) (hx : M.sort x = f.sort)
  (hlive : s.contexts.Live M f.child (es ++ [x]))

include h hes hx hlive

/-- The body is run at the live iterations. -/
theorem runs_body : (enterBody f r.entry (r.ready.inContext s.context)).Runs M (es ++ [x]) := by
  have hcontexts : s.contexts.table <+: (enterBody f r.entry (r.ready.inContext s.context)).contexts.table :=
    r.grows_ready.contexts
  have hguards : (enterBody f r.entry (r.ready.inContext s.context)).guards = s.guards := r.grows_ready.guards
  exact runs_inside h.session.sorted h.frame hcontexts rfl hguards hes hx hlive

/-- The iterations start from what the one before has left, the first one from what was there. -/
theorem start_of_obeys (hM : M.Obeys ρ t) {sort : SortId} (hsort : sort ∈ f.plan.writes) :
    (M.pred r.order.first (es ++ [x]) → r.entry.on M (es ++ [x]) sort = s.snapshot.on M (es ++ [x]) sort) ∧
    ∀ y, M.sort y = f.sort → M.pred r.order.justBefore (es ++ [y, x]) →
      r.entry.on M (es ++ [x]) sort = r.inner.snapshot.on M (es ++ [y]) sort := by
  obtain ⟨slot, hmem⟩ : ∃ slot, (sort, slot) ∈ r.inputs := by
    rw [← r.map_inputs] at hsort
    obtain ⟨⟨_, slot⟩, hmem, rfl⟩ := mem_map.1 hsort
    exact ⟨slot, hmem⟩
  have hslot : r.entry.slot sort = slot := slot_withSlots_of_mem (by rw [r.map_inputs]; exact h.writes) hmem
    (by rw [h.session.snapshot.length]; exact h.frame.writes sort hsort)
  obtain ⟨⟨⟩, s1, h1, h2⟩ := bind_ok.1 r.threads
  have hq1 := (Keeps.forM (fun _ => quiet_threadCarry L _ _) _).of_ok h1
  obtain ⟨s0, t0, hq0, hthread, hq2⟩ := exists_step_of_forM (fun _ => quiet.threadSlot) h2 hmem
  have hq := hq1.trans hq0
  have hruns : s0.Runs M (es ++ [x]) := by
    have hcontexts : s.contexts.table <+: s0.contexts.table := (r.made_inner h).contexts.trans hq.contexts
    exact runs_inside h.session.sorted h.frame hcontexts hq.context (hq.guards.trans (r.guards_inner h)) hes hx hlive
  have hfacts := ((obeys_threadedSlot hthread).1 (hM.of_grows (hq2.axioms.trans r.extends_tied.axioms))).2 _ hruns
  have htake : (es ++ [x]).take ((es ++ [x]).length - 1) = es := by simp
  have hdrop : (es ++ [x]).drop ((es ++ [x]).length - 1) = [x] := by simp
  rw [htake, hdrop] at hfacts
  unfold on
  rw [hslot]
  constructor
  · intro hfirst
    ext e
    exact and_congr_right fun he => hfacts.1 hfirst e he
  · intro y hy hyx
    ext e
    exact and_congr_right fun he => hfacts.2 y hy (by simpa using hyx) e he

end Positions

/-- After the loop there is what the last iteration has left; without iterations, what was there. -/
theorem end_of_obeys (h : f.Placed k L s) (hM : M.Obeys ρ t) {es : List M.Elem} (hes : s.Runs M es)
    (hsort : sort ∈ f.plan.writes) :
    ((∀ x, M.sort x = f.sort → ¬ s.contexts.Live M f.child (es ++ [x])) → t.snapshot.on M es sort = s.snapshot.on M es sort) ∧
    ∀ x, M.sort x = f.sort → M.pred r.order.last (es ++ [x]) →
      t.snapshot.on M es sort = r.inner.snapshot.on M (es ++ [x]) sort := by
  obtain ⟨slot, hmem⟩ : ∃ slot, (sort, slot) ∈ r.changes := by
    rw [← r.map_changes] at hsort
    obtain ⟨⟨_, slot⟩, hmem, rfl⟩ := mem_map.1 hsort
    exact ⟨slot, hmem⟩
  have hslot : t.snapshot.slot sort = slot := by
    rw [r.snapshot_eq]
    exact slot_withSlots_of_mem (by rw [r.map_changes]; exact h.writes) hmem
      (by rw [h.session.snapshot.length]; exact h.frame.writes sort hsort)
  obtain ⟨input, -, s0, t0, hq0, hexit, hq2⟩ :=
    exists_step_of_mapM (fun input : SortId × Slot => quiet.exitSlot) r.exits hmem
  obtain ⟨new, s1, hfresh, haxiom, hpair⟩ := exitSlot_ok hexit
  cases hpair
  have hq := hq0.trans (quiet.freshSlot.of_ok hfresh)
  have hqtied := (quiet_threads L f _ _ _ _ _).of_ok r.threads
  have hruns : s1.Runs M es := hes.beside h.session.sorted
    ⟨(r.made_inner h).trans ((r.inner.extends_place _ f.child r.entry s.scope).trans (hqtied.extends.trans
      ((r.tied.extends_place _ s.context _ _).trans hq.extends))), hq.context⟩
    (hq.guards.trans (hqtied.guards.trans (r.guards_inner h)))
  have hfacts := ((obeys_lastSlot haxiom).1 (hM.of_grows (hq2.axioms.trans r.extends_exited.axioms))).2 _ hruns
  have hlive : ∀ x, s1.contexts.Live M f.child (es ++ [x]) ↔ s.contexts.Live M f.child (es ++ [x]) := fun x =>
    live_extend ((r.made_inner h).contexts.trans (hqtied.contexts.trans hq.contexts)) h.frame.child
  unfold on
  rw [hslot]
  constructor
  · intro hnone
    ext e
    refine and_congr_right fun he => hfacts.1 ?_ e he
    rintro ⟨x, hx, hx'⟩
    exact hnone x hx ((hlive x).1 hx')
  · intro x hx hlast
    ext e
    exact and_congr_right fun he => hfacts.2 x hx hlast e he

/-- A sort that the body is not planned to write has, at the end of the body, the slot from before the loop. -/
theorem slot_inner_of_not_planned (h : f.Placed k L s) (hinner : r.inner.Placed k L)
    (hsort : sort ∉ f.plan.writes) : r.inner.snapshot.slot sort = s.snapshot.slot sort := by
  rw [← (r.slot_of_not_planned hsort).1]
  have hlength : r.inner.snapshot.slots.length = r.entry.slots.length := by
    rw [hinner.snapshot.length, ← h.session.snapshot.length]
    exact (length_withSlots _ _).symm
  exact slot_eq_of_not_mem_difference hlength fun hmem => hsort (r.planned sort hmem)

/-- Where there are finitely many live iterations they are run one after another: the states that they start from and leave are
threaded in a list of them, from the state before the loop to the one after it. -/
theorem threaded (h : f.Placed k L s) (hinner : r.inner.Placed k L) (hM : M.Obeys ρ t) {es : List M.Elem} (hes : s.Runs M es)
    (hordered : r.order.Orders M f.sort es fun x => s.contexts.Live M f.child (es ++ [x]))
    (hfinite : {x | M.sort x = f.sort ∧ s.contexts.Live M f.child (es ++ [x])}.Finite) :
    ∃ its, r.order.Lists M es (fun x => M.sort x = f.sort ∧ s.contexts.Live M f.child (es ++ [x])) its ∧
      Threaded (fun x => r.entry.on M (es ++ [x])) (fun x => r.inner.snapshot.on M (es ++ [x])) (s.snapshot.on M es) its
        (t.snapshot.on M es) := by
  obtain ⟨its, hlist⟩ := hordered.exists_list hfinite
  have hon : ∀ x, s.snapshot.on M (es ++ [x]) = s.snapshot.on M es := fun x => on_append (fun slot hslot => by
    rw [← length_map (f := M.sort), hes.sorts]
    exact Snapshot.Sorted.depth_le h.session.snapshot slot hslot) [x]
  -- a sort that is not written has the same slot throughout
  have hkept : ∀ {sort : SortId}, sort ∉ f.plan.writes → ∀ x, r.entry.on M (es ++ [x]) sort = s.snapshot.on M es sort ∧
      r.inner.snapshot.on M (es ++ [x]) sort = s.snapshot.on M es sort ∧ t.snapshot.on M es sort = s.snapshot.on M es sort := by
    intro sort hsort x
    obtain ⟨hentry, ht⟩ := r.slot_of_not_planned hsort
    refine ⟨?_, ?_, ?_⟩
    · rw [← hon x, Snapshot.on, hentry, Snapshot.on]
    · rw [← hon x, Snapshot.on, r.slot_inner_of_not_planned h hinner hsort, Snapshot.on]
    · rw [Snapshot.on, ht, Snapshot.on]
  refine ⟨its, hlist, ChainOrder.Lists.threaded hordered hlist ?_ ?_ ?_ ?_⟩
  · intro x hx hlive hfirst
    funext sort
    by_cases hsort : sort ∈ f.plan.writes
    · rw [(r.start_of_obeys h hes hx hlive hM hsort).1 hfirst, hon]
    · exact (hkept hsort x).1
  · intro y hy x hx hlive hyx
    funext sort
    by_cases hsort : sort ∈ f.plan.writes
    · exact (r.start_of_obeys h hes hx hlive hM hsort).2 y hy hyx
    · rw [(hkept hsort x).1, (hkept hsort y).2.1]
  · intro hnone
    funext sort
    by_cases hsort : sort ∈ f.plan.writes
    · exact (r.end_of_obeys h hM hes hsort).1 hnone
    · obtain ⟨x, -⟩ := M.inhabited f.sort
      exact (hkept hsort x).2.2
  · intro x hx hlast
    funext sort
    by_cases hsort : sort ∈ f.plan.writes
    · exact (r.end_of_obeys h hM hes hsort).2 x hx hlast
    · rw [(hkept hsort x).2.2, (hkept hsort x).2.1]

end ChainedRun

end Encode

end StoreCheck
