import StoreCheck.Proofs.Orders

/-!
# Positions are compared lexicographically

A position of a context has a parameter for each loop around it. Two positions, of one context or of two, are compared at the
contexts around both: the outermost level at which they differ decides if it is chained, and where they agree on all of them the
fallback does (`Contexts.Built.holds_before`). Where the axioms of all orders hold, the positions of a context are in a strict
partial order, and in a total one if no loop around them is flat.
-/

namespace StoreCheck

variable {b : ContextId} {n : Nat}

variable {M : Structure}

namespace Contexts

variable {cs : Contexts} {symbols : Symbols} {id parent : ContextId}

/-! ## Contexts around a context -/

/-- What holds of the root, and of every loop in a context that it holds of, holds of all contexts. -/
theorem Built.climb {P : ContextId → Prop} (h : cs.Built symbols) (hroot : P rootId)
    (hloop : ∀ id parent, id.index < cs.table.length → cs.IsLoopIn id parent → P parent → P id) {id : ContextId}
    (hid : id.index < cs.table.length) : P id := by
  obtain ⟨i⟩ := id
  induction i using Nat.strongRecOn with
  | ind i ih =>
    rcases h.cases hid with ⟨hi, -⟩ | ⟨parent, hparent⟩
    · exact hi ▸ hroot
    · exact hloop _ _ hid hparent (ih parent.index hparent.lt (Nat.lt_trans hparent.lt hid))

/-- The second context is the first one, or lies around it. -/
def Inside (cs : Contexts) : ContextId → ContextId → Prop := Relation.ReflTransGen fun a b => (cs.get a).parent = some b

theorem IsLoopIn.inside_iff {c : ContextId} (h : cs.IsLoopIn id parent) : cs.Inside id c ↔ c = id ∨ cs.Inside parent c := by
  constructor
  · intro hc
    rcases Relation.ReflTransGen.cases_head hc with rfl | ⟨b, hb, hc⟩
    · exact .inl rfl
    · cases h.up.symm.trans hb
      exact .inr hc
  · rintro (rfl | hc)
    · exact .refl
    · exact .head h.up hc

section

variable (h : cs.Built symbols) {c : ContextId}

include h

theorem Built.get_root : cs.get rootId = .root := by
  rcases Nat.eq_zero_or_pos cs.table.length with hnone | hpos
  · rw [get, List.length_eq_zero_iff.1 hnone]
    rfl
  · rcases h.cases (show rootId.index < _ from hpos) with ⟨-, hroot⟩ | ⟨parent, hparent⟩
    · exact hroot
    · exact absurd hparent.lt (Nat.not_lt_zero _)

theorem Built.inside_root : cs.Inside rootId c ↔ c = rootId := by
  refine ⟨fun hc => ?_, fun hc => hc ▸ .refl⟩
  rcases Relation.ReflTransGen.cases_head hc with rfl | ⟨b, hb, -⟩
  · rfl
  · rw [h.get_root] at hb
    cases hb

theorem Built.path_root : cs.path rootId = [rootId] := by
  unfold path
  cases cs.table.length <;> simp [pathUp, h.get_root, Context.root]

variable (hid : id.index < cs.table.length)

include hid

/-- The way up from a context goes through the contexts around it. -/
theorem Built.mem_path : c ∈ cs.path id ↔ cs.Inside id c := by
  refine h.climb (P := fun id => c ∈ cs.path id ↔ cs.Inside id c) ?_ (fun id parent hid hparent ih => ?_) hid
  · rw [h.path_root, List.mem_singleton, h.inside_root]
  · rw [h.sorted.path_cons hid hparent.up, List.mem_cons, hparent.inside_iff, ih]

theorem Built.root_around : cs.Inside id rootId :=
  h.climb (P := fun id => cs.Inside id rootId) .refl (fun _ _ _ hparent ih => hparent.inside_iff.2 (.inr ih)) hid

theorem Built.inside_lt (hc : cs.Inside id c) : c.index < cs.table.length :=
  Nat.lt_of_le_of_lt (h.sorted.index_le_of_mem_pathUp _ id c ((h.mem_path hid).2 hc)) hid

theorem Built.level_le (hc : cs.Inside id c) : cs.level c ≤ cs.level id := by
  rw [h.sorted.level_eq, h.sorted.level_eq]
  exact (h.sorted.pathUp _ id c ((h.mem_path hid).2 hc)).length_le

/-- The common ancestor lies around both contexts, and so does no deeper one. -/
theorem Built.commonAncestor (hb : b.index < cs.table.length) :
    cs.Inside id (cs.commonAncestor id b) ∧ cs.Inside b (cs.commonAncestor id b) ∧
      ∀ c, cs.Inside id c → cs.Inside b c → cs.Inside (cs.commonAncestor id b) c := by
  have hfind : ∀ id rest, cs.path id = id :: rest → cs.Inside b id → cs.commonAncestor id b = id := by
    intro id rest hpath hid
    unfold Contexts.commonAncestor
    rw [hpath, List.find?_cons_of_pos (by simpa using (h.mem_path hb).2 hid), Option.getD_some]
  refine h.climb (P := fun a => cs.Inside a (cs.commonAncestor a b) ∧ cs.Inside b (cs.commonAncestor a b) ∧
    ∀ c, cs.Inside a c → cs.Inside b c → cs.Inside (cs.commonAncestor a b) c) ?_ (fun a parent ha hparent ih => ?_) hid
  · rw [hfind rootId [] h.path_root (h.root_around hb)]
    exact ⟨.refl, h.root_around hb, fun c hc _ => hc⟩
  · have hpath := h.sorted.path_cons ha hparent.up
    by_cases hab : cs.Inside b a
    · rw [hfind a _ hpath hab]
      exact ⟨.refl, hab, fun c hc _ => hc⟩
    · have hnext : cs.commonAncestor a b = cs.commonAncestor parent b := by
        unfold Contexts.commonAncestor
        rw [hpath, List.find?_cons_of_neg (by simpa using fun hmem => hab ((h.mem_path hb).1 hmem))]
      rw [hnext]
      refine ⟨hparent.inside_iff.2 (.inr ih.1), ih.2.1, fun c hc hbc => ?_⟩
      rcases hparent.inside_iff.1 hc with rfl | hc
      · exact absurd hbc hab
      · exact ih.2.2 c hc hbc

end

/-! ## Comparing positions -/

/-- At the chained level of a context the positions agree on all parameters above, and the level's order puts the first
position's parameter before the second one's. -/
def LevelPuts (cs : Contexts) (M : Structure) (c : ContextId) (as bs : List M.Elem) : Prop :=
  ∃ order x y, (cs.get c).kind = .chained order ∧ as.take (cs.level c - 1) = bs.take (cs.level c - 1) ∧
    as[cs.level c - 1]? = some x ∧ bs[cs.level c - 1]? = some y ∧ M.pred order.before (as.take (cs.level c - 1) ++ [x, y])

/-- Some level around the context puts the first position before the second one. -/
def PutsBefore (cs : Contexts) (M : Structure) (id : ContextId) (as bs : List M.Elem) : Prop :=
  ∃ c, cs.Inside id c ∧ cs.LevelPuts M c as bs

variable {as bs ds es : List M.Elem}

theorem IsLoopIn.putsBefore_iff (h : cs.IsLoopIn id parent) :
    cs.PutsBefore M id as bs ↔ cs.PutsBefore M parent as bs ∨ cs.LevelPuts M id as bs := by
  unfold PutsBefore
  simp only [h.inside_iff, or_and_right, exists_or, exists_eq_left]
  exact or_comm

theorem take_succ_eq_iff {α : Type} {as bs : List α} {x y : α} (hx : as[n]? = some x) (hy : bs[n]? = some y) :
    as.take (n + 1) = bs.take (n + 1) ↔ as.take n = bs.take n ∧ x = y := by
  rw [List.take_add_one, List.take_add_one, hx, hy]
  simp

/-- The structure satisfies the order and the nesting axioms of the context and of those around it. -/
def Arranged (cs : Contexts) (M : Structure) (id : ContextId) : Prop :=
  ∀ c, cs.Inside id c → (∃ g, ∀ F ∈ (cs.orderAxioms c g).1, M.Satisfies F) ∧ ∃ g, M.Satisfies (cs.nestingAxiom c g).1

/-- The elements are a live position of the context. -/
structure Position (cs : Contexts) (M : Structure) (id : ContextId) (es : List M.Elem) : Prop where
  sorts : es.map M.sort = (cs.get id).paramSorts
  live : cs.Live M id es

theorem Arranged.orders (h : cs.Arranged M id) {c : ContextId} (hc : cs.Inside id c) {order : ChainOrder}
    (hkind : (cs.get c).kind = .chained order) {outer : List M.Elem} (houter : outer.map M.sort = cs.outerSorts c) :
    order.Orders M (cs.ownSort c) outer fun x => cs.Live M c (outer ++ [x]) := by
  obtain ⟨g, hg⟩ := (h c hc).1
  obtain ⟨e, -⟩ := M.inhabited ⟨0⟩
  exact (cs.holds_orderAxioms c g).1 (fun F hF => hg F hF fun _ => e) order hkind outer houter

theorem live_take (hn : cs.level id ≤ n) : cs.Live M id (es.take n) ↔ cs.Live M id es := by
  unfold Live
  rw [List.take_take, Nat.min_eq_left hn]

section

variable (h : cs.Built symbols) (hid : id.index < cs.table.length)

include h

theorem Built.not_putsBefore_root : ¬ cs.PutsBefore M rootId as bs := by
  rintro ⟨c, hc, order, x, y, hkind, -⟩
  rw [h.inside_root.1 hc, h.get_root] at hkind
  cases hkind

include hid

/-- The levels up to a context compare positions lexicographically. -/
theorem Built.foldl_beforeStep (d : M.Elem) (has : cs.level id ≤ as.length) (hbs : cs.level id ≤ bs.length) (fallback : Prop) :
    (cs.path id).foldl (cs.BeforeStep M d as bs) fallback ↔
      cs.PutsBefore M id as bs ∨ as.take (cs.level id) = bs.take (cs.level id) ∧ fallback := by
  refine h.climb (P := fun id => cs.level id ≤ as.length → cs.level id ≤ bs.length → ∀ fallback,
    ((cs.path id).foldl (cs.BeforeStep M d as bs) fallback ↔
      cs.PutsBefore M id as bs ∨ as.take (cs.level id) = bs.take (cs.level id) ∧ fallback)) ?_ ?_ hid has hbs fallback
  · intro _ _ fallback
    simp [h.path_root, BeforeStep, level, h.get_root, Context.root, h.not_putsBefore_root]
  · intro id parent hid hparent ih has hbs fallback
    rw [hparent.level] at has hbs
    have hx : as[cs.level parent]? = some (as.getD (cs.level parent) d) := by
      rw [List.getD_eq_getElem _ _ has, List.getElem?_eq_getElem has]
    have hy : bs[cs.level parent]? = some (bs.getD (cs.level parent) d) := by
      rw [List.getD_eq_getElem _ _ hbs, List.getElem?_eq_getElem hbs]
    rw [h.sorted.path_cons hid hparent.up, List.foldl_cons, ih (by omega) (by omega), hparent.putsBefore_iff]
    unfold BeforeStep LevelPuts
    simp only [hparent.level, Nat.add_sub_cancel, take_succ_eq_iff hx hy, hx, hy, Option.some.injEq]
    cases hkind : (cs.get id).kind with
    | root => exact absurd hkind hparent.kind
    | flat => simp [and_assoc]
    | chained order =>
      simp only [ContextKind.chained.injEq, exists_eq_left', and_or_left, or_assoc, and_assoc, exists_and_left]

theorem Built.holds_before (hb : b.index < cs.table.length) {ρ : M.Env} {pa pb : List Term} (hpa : cs.level id ≤ pa.length)
    (hpb : cs.level b ≤ pb.length) (fallback : Formula) :
    (cs.before id b pa pb fallback).Holds M ρ ↔
      cs.PutsBefore M (cs.commonAncestor id b) (pa.map (Term.eval M ρ)) (pb.map (Term.eval M ρ)) ∨
        (pa.map (Term.eval M ρ)).take (cs.level (cs.commonAncestor id b)) =
          (pb.map (Term.eval M ρ)).take (cs.level (cs.commonAncestor id b)) ∧ fallback.Holds M ρ := by
  obtain ⟨hca, hcb, -⟩ := h.commonAncestor hid hb
  rw [Contexts.holds_before]
  refine h.foldl_beforeStep (h.inside_lt hid hca) _ ?_ ?_ _ <;> rw [List.length_map]
  · exact (h.level_le hid hca).trans hpa
  · exact (h.level_le hb hcb).trans hpb

/-- Positions that agree on the parameters of a context are put before the same ones. -/
theorem Built.putsBefore_congr {as' bs' : List M.Elem} (has : as.take (cs.level id) = as'.take (cs.level id))
    (hbs : bs.take (cs.level id) = bs'.take (cs.level id)) (hbefore : cs.PutsBefore M id as bs) : cs.PutsBefore M id as' bs' := by
  have hcut : ∀ {m n : Nat} {as bs : List M.Elem}, m < n → as.take n = bs.take n → as.take m = bs.take m ∧ as[m]? = bs[m]? := by
    intro m n as bs hlt heq
    have htake := congrArg (List.take m) heq
    have hget := congrArg (·[m]?) heq
    rw [List.take_take, List.take_take, Nat.min_eq_left (Nat.le_of_lt hlt)] at htake
    exact ⟨htake, by simpa [List.getElem?_take, hlt] using hget⟩
  obtain ⟨c, hc, order, x, y, hkind, hputs⟩ := hbefore
  obtain ⟨parent, hparent⟩ := h.exists_isLoopIn hkind
  have hlt : cs.level c - 1 < cs.level id := by
    have := h.level_le hid hc
    have := hparent.level
    omega
  refine ⟨c, hc, order, x, y, hkind, ?_⟩
  rwa [← (hcut hlt has).1, ← (hcut hlt has).2, ← (hcut hlt hbs).1, ← (hcut hlt hbs).2]

variable (harranged : cs.Arranged M id)

include harranged

/-- A position gives one of each context around. -/
theorem Built.position_around (hes : cs.Position M id es) {c : ContextId} (hc : cs.Inside id c) :
    cs.Position M c (es.take (cs.level c)) := by
  induction hc with
  | refl =>
    rw [List.take_of_length_le (by rw [h.sorted.level_eq, ← hes.sorts, List.length_map])]
    exact hes
  | @tail b c hb hup ih =>
    rcases h.cases (h.inside_lt hid hb) with ⟨-, hroot⟩ | ⟨parent, hparent⟩
    · rw [hroot] at hup
      cases hup
    cases hparent.up.symm.trans hup
    have hle : cs.level c ≤ cs.level b := by rw [hparent.level]; exact Nat.le_succ _
    obtain ⟨sort, hsorts⟩ := hparent.sorts
    obtain ⟨g, hg⟩ := (harranged b hb).2
    obtain ⟨e, -⟩ := M.inhabited ⟨0⟩
    have hnested := (cs.holds_nestingAxiom b g).1 (hg fun _ => e) c hup _ ih.sorts ih.live
    refine ⟨?_, ?_⟩
    · have hsub := congrArg (List.take (cs.level c)) ih.sorts
      rw [hsorts, ← List.map_take, List.take_take, Nat.min_eq_left hle, h.sorted.level_eq, List.take_left] at hsub
      rw [h.sorted.level_eq]
      exact hsub
    · rwa [live_take (Nat.le_refl _), ← live_take hle]

/-- The parameter of the level of a loop, with those above it. -/
theorem Built.position_split {c : ContextId} (hc : cs.Inside id c) (hparent : cs.IsLoopIn c parent) (hes : cs.Position M id es) :
    ∃ x, es[cs.level parent]? = some x ∧ M.sort x = cs.ownSort c ∧
      (es.take (cs.level parent)).map M.sort = cs.outerSorts c ∧ cs.Live M c (es.take (cs.level parent) ++ [x]) := by
  have hes := h.position_around hid harranged hes hc
  obtain ⟨sort, hsorts⟩ := hparent.sorts
  have hlength := congrArg List.length hes.sorts
  rw [List.length_map, ← h.sorted.level_eq, hparent.level, List.length_take] at hlength
  have hlt : cs.level parent < es.length := by omega
  have hsplit : es.take (cs.level c) = es.take (cs.level parent) ++ [es[cs.level parent]] := by
    rw [hparent.level, List.take_append_getElem hlt]
  have hmap := hes.sorts
  rw [hsplit, List.map_append, hsorts] at hmap
  obtain ⟨houter, hown⟩ := List.append_inj' hmap rfl
  refine ⟨es[cs.level parent], List.getElem?_eq_getElem hlt, ?_, ?_, hsplit ▸ hes.live⟩
  · rw [(h.ownSort_outerSorts hsorts).1]
    simpa using hown
  · rw [(h.ownSort_outerSorts hsorts).2]
    exact houter

variable (has : cs.Position M id as)

include has

theorem Built.putsBefore_irrefl {c : ContextId} (hc : cs.Inside id c) : ¬ cs.PutsBefore M c as as := by
  refine h.climb (P := fun c => cs.Inside id c → ¬ cs.PutsBefore M c as as) (fun _ => h.not_putsBefore_root)
    (fun c parent _ hparent ih hc hbefore => ?_) (h.inside_lt hid hc) hc
  rcases hparent.putsBefore_iff.1 hbefore with hbefore | ⟨order, x, y, hkind, -, hx, hy, hpred⟩
  · exact ih (hc.tail hparent.up) hbefore
  · obtain ⟨z, hz, hzs, houter, -⟩ := h.position_split hid harranged hc hparent has
    rw [hparent.level, Nat.add_sub_cancel] at hx hy hpred
    cases hx.symm.trans hz
    cases hy.symm.trans hz
    exact (harranged.orders hc hkind houter).irrefl x hzs hpred

variable (hbs : cs.Position M id bs)

include hbs

/-- The outer one of the two levels decides; at one level the order of the level is transitive. -/
theorem Built.putsBefore_trans (hds : cs.Position M id ds) {c : ContextId} (hc : cs.Inside id c) :
    cs.PutsBefore M c as bs → cs.PutsBefore M c bs ds → cs.PutsBefore M c as ds := by
  refine h.climb (P := fun c => cs.Inside id c → cs.PutsBefore M c as bs → cs.PutsBefore M c bs ds → cs.PutsBefore M c as ds)
    (fun _ hab => absurd hab h.not_putsBefore_root) (fun c parent hlt hparent ih hc hab hbd => ?_) (h.inside_lt hid hc) hc
  have hup := hparent.lt.trans hlt
  rw [hparent.putsBefore_iff] at hab hbd ⊢
  unfold LevelPuts at hab hbd ⊢
  rw [hparent.level, Nat.add_sub_cancel] at hab hbd ⊢
  obtain hab | ⟨order, x, y, hkind, hsame, hx, hy, hpred⟩ := hab <;>
    obtain hbd | ⟨order', y', z, hkind', hsame', hy', hz, hpred'⟩ := hbd
  · exact .inl (ih (hc.tail hparent.up) hab hbd)
  · exact .inl (h.putsBefore_congr hup rfl hsame' hab)
  · exact .inl (h.putsBefore_congr hup hsame.symm rfl hbd)
  · cases hkind.symm.trans hkind'
    cases hy.symm.trans hy'
    obtain ⟨_, hx', hxs, houter, -⟩ := h.position_split hid harranged hc hparent has
    obtain ⟨_, hy', hys, -⟩ := h.position_split hid harranged hc hparent hbs
    obtain ⟨_, hz', hzs, -⟩ := h.position_split hid harranged hc hparent hds
    cases hx.symm.trans hx'
    cases hy.symm.trans hy'
    cases hz.symm.trans hz'
    rw [← hsame] at hpred'
    exact .inr ⟨order, x, z, hkind, hsame.trans hsame', hx, hz,
      (harranged.orders hc hkind houter).trans x hxs y hys z hzs hpred hpred'⟩

/-- Where all levels are chained, positions agree up to a level, or one is put before the other. -/
theorem Built.putsBefore_total (hchained : ∀ c, cs.Inside id c → c ≠ rootId → ∃ order, (cs.get c).kind = .chained order)
    {c : ContextId} (hc : cs.Inside id c) :
    as.take (cs.level c) = bs.take (cs.level c) ∨ cs.PutsBefore M c as bs ∨ cs.PutsBefore M c bs as := by
  refine h.climb (P := fun c => cs.Inside id c →
    as.take (cs.level c) = bs.take (cs.level c) ∨ cs.PutsBefore M c as bs ∨ cs.PutsBefore M c bs as) ?_ ?_
    (h.inside_lt hid hc) hc
  · intro _
    simp [level, h.get_root, Context.root]
  · intro c parent hlt hparent ih hc
    rw [hparent.putsBefore_iff, hparent.putsBefore_iff]
    rcases ih (hc.tail hparent.up) with hsame | hbefore
    · have hroot : c ≠ rootId := fun heq => absurd hparent.lt (heq ▸ Nat.not_lt_zero _)
      obtain ⟨order, hkind⟩ := hchained c hc hroot
      obtain ⟨x, hx, hxs, houter, hlx⟩ := h.position_split hid harranged hc hparent has
      obtain ⟨y, hy, hys, -, hly⟩ := h.position_split hid harranged hc hparent hbs
      rw [← hsame] at hly
      unfold LevelPuts
      rw [hparent.level, Nat.add_sub_cancel, take_succ_eq_iff hx hy]
      by_cases hxy : x = y
      · exact .inl ⟨hsame, hxy⟩
      · rcases (harranged.orders hc hkind houter).total x hxs y hys hlx hly hxy with hpred | hpred
        · exact .inr (.inl (.inr ⟨order, x, y, hkind, hsame, hx, hy, hpred⟩))
        · rw [hsame] at hpred
          exact .inr (.inr (.inr ⟨order, y, x, hkind, hsame.symm, hy, hx, hpred⟩))
    · exact .inr (hbefore.imp .inl .inl)

end

end Contexts

namespace Relay

theorem isLoopIn_legs : contexts.IsLoopIn ⟨1⟩ Contexts.rootId :=
  ⟨rfl, by decide, rfl, ⟨⟨0⟩, rfl⟩, ⟨⟨0⟩, rfl⟩, fun h => by cases h⟩

theorem arranged_run : contexts.Arranged run ⟨1⟩ := by
  obtain ⟨symbols, hbuilt⟩ := built
  intro c hc
  rcases isLoopIn_legs.inside_iff.1 hc with rfl | hc
  · have hsorts : (contexts.get ⟨1⟩).paramSorts = (contexts.get Contexts.rootId).paramSorts ++ [⟨0⟩] := rfl
    refine ⟨⟨⟨0⟩, ?_⟩, ⟨0⟩, fun ρ => ?_⟩
    · refine (hbuilt.satisfies_orderAxioms kind_legs hsorts rfl ⟨0⟩).2 fun outer houter => ?_
      cases List.map_eq_nil_iff.1 houter
      exact isChain_run.orders finite_run
    · rw [Contexts.holds_nestingAxiom]
      rintro parent hparent es - - p hp
      cases hparent
      cases hp
  · cases hbuilt.inside_root.1 hc
    refine ⟨⟨⟨0⟩, fun F hF => by cases hF⟩, ⟨0⟩, fun ρ => ?_⟩
    rw [Contexts.holds_nestingAxiom]
    intro parent hparent
    cases hparent

/-- The two legs. -/
def legOf : run.Env := fun name => (⟨0⟩, name == "second")

theorem position_leg (name : String) : contexts.Position run ⟨1⟩ (([.var name] : List Term).map (Term.eval run legOf)) := by
  refine ⟨rfl, fun p hp => ?_⟩
  cases hp
  trivial

end Relay

end StoreCheck
