import Mathlib.Data.Finset.Card
import Mathlib.Data.List.GetD
import Mathlib.Data.List.Nodup
import Mathlib.Logic.Relation
import StoreCheck.Class.Graph
import StoreCheck.Proofs.Steps

/-!
# The search for ancestors

The search marks classes white, grey and black. It keeps an invariant of the black classes (`Search.Sound`): their parents are
black, their ancestors are found, and none of them lies on a cycle. All grey classes lead to the class that is visited, so a grey
class that comes up again lies on a cycle; and every class that is entered leaves fewer white ones, so the search ends on any input,
cyclic or not (`Search.visits_visit`, `Search.search_depth`). It succeeds exactly if there is no cycle, and then the ancestors of a
class are the classes that parent edges lead to (`Search.search_ok_iff`, `Search.mem_ancestorsOf_search`).
-/

namespace StoreCheck.ClassGraph

open List Relation

variable {n depth : Nat} {p : ClassId} {closure : List ClassId}

variable {c : ClassId}

theorem mem_idsUpTo : c ∈ idsUpTo n ↔ c.index < n := by
  simp only [idsUpTo, mem_map, mem_range]
  constructor
  · rintro ⟨i, hi, rfl⟩
    exact hi
  · intro h
    exact ⟨c.index, h, rfl⟩

theorem nodup_idsUpTo (n : Nat) : (idsUpTo n).Nodup :=
  List.Nodup.map (fun _ _ h => congrArg ClassId.index h) nodup_range

/-! ## The search -/

/-- The second class is a direct parent of the first one. -/
def Edge (parents : List (List ClassId)) (c p : ClassId) : Prop := p ∈ parentsIn parents c

theorem Edge.lt {parents : List (List ClassId)} (h : Edge parents c p) : c.index < parents.length := by
  rcases Nat.lt_or_ge c.index parents.length with hlt | hge
  · exact hlt
  · rw [Edge, parentsIn, getD_eq_default _ _ hge] at h
    cases h

theorem mem_unionBelow : d ∈ unionBelow n a b ↔ d.index < n ∧ (d ∈ a ∨ d ∈ b) := by
  simp [unionBelow, mem_idsUpTo]

namespace Search

variable {parents : List (List ClassId)} {s t u : Search} {c d : ClassId}

/-- Marking a class grey changes no other mark. -/
theorem markOf_enter (h : c.index < s.marks.length) (d : ClassId) :
    (s.enter c).markOf d = if d = c then .grey else s.markOf d := by
  by_cases hd : d = c
  · subst hd
    simp [enter, markOf, h]
  · have hne : c.index ≠ d.index := fun heq => hd (congrArg ClassId.mk heq.symm)
    simp [enter, markOf, getD_eq_getElem?_getD, hd, hne]

/-- Marking a class black changes no other mark. -/
theorem markOf_leave (h : c.index < s.marks.length) (closure : List ClassId) (d : ClassId) :
    (s.leave c closure).markOf d = if d = c then .black else s.markOf d := by
  by_cases hd : d = c
  · subst hd
    simp [leave, markOf, h]
  · have hne : c.index ≠ d.index := fun heq => hd (congrArg ClassId.mk heq.symm)
    simp [leave, markOf, getD_eq_getElem?_getD, hd, hne]

/-- A class that is done gets its own ancestors only. -/
theorem ancestorsOf_leave (h : c.index < s.ancestors.length) (closure : List ClassId) (d : ClassId) :
    (s.leave c closure).ancestorsOf d = if d = c then closure else s.ancestorsOf d := by
  by_cases hd : d = c
  · subst hd
    simp [leave, ancestorsOf, h]
  · have hne : c.index ≠ d.index := fun heq => hd (congrArg ClassId.mk heq.symm)
    simp [leave, ancestorsOf, getD_eq_getElem?_getD, hd, hne]

/-- What holds of black classes at every moment of the search: their parents are black, their ancestors are found, and none of them
lies on a cycle. -/
structure Sound (parents : List (List ClassId)) (s : Search) : Prop where
  marks : s.marks.length = parents.length
  lists : s.ancestors.length = parents.length
  ordered : ∀ c, (s.ancestorsOf c).Sublist (idsUpTo parents.length)
  closed : ∀ c p, s.markOf c = .black → Edge parents c p → s.markOf p = .black
  found : ∀ c, s.markOf c = .black → ∀ d, d ∈ s.ancestorsOf c ↔ TransGen (Edge parents) c d
  acyclic : ∀ c, s.markOf c = .black → ¬ TransGen (Edge parents) c c

/-- What parent edges lead to from a black class is black. -/
theorem Sound.black (h : s.Sound parents) (hc : s.markOf c = .black) (hcd : ReflTransGen (Edge parents) c d) :
    s.markOf d = .black := by
  induction hcd with
  | refl => exact hc
  | tail _ hedge ih => exact h.closed _ _ ih hedge

/-- Before the search all classes are white. -/
theorem markOf_start (n : Nat) (c : ClassId) : (start n).markOf c = .white := by
  simp [start, markOf, getD_eq_getElem?_getD, getElem?_replicate]
  split <;> rfl

theorem sound_start (parents : List (List ClassId)) : (start parents.length).Sound parents := by
  have hwhite : ∀ c, (start parents.length).markOf c ≠ .black := by
    intro c
    rw [markOf_start]
    exact Mark.noConfusion
  refine ⟨by simp [start], by simp [start], fun c => ?_, fun c _ hc => absurd hc (hwhite c), fun c hc => absurd hc (hwhite c),
    fun c hc => absurd hc (hwhite c)⟩
  have hnone : (start parents.length).ancestorsOf c = [] := by
    simp [start, ancestorsOf, getD_eq_getElem?_getD, getElem?_replicate]
    split <;> rfl
  rw [hnone]
  exact nil_sublist _

/-- A visit leaves the classes on the way grey, and black classes black. -/
structure Advances (s t : Search) : Prop where
  black : ∀ c, s.markOf c = .black → t.markOf c = .black
  grey : ∀ c, t.markOf c = .grey ↔ s.markOf c = .grey

theorem Advances.refl (s : Search) : s.Advances s := ⟨fun _ h => h, fun _ => Iff.rfl⟩

theorem Advances.trans (h : s.Advances t) (h' : t.Advances u) : s.Advances u :=
  ⟨fun c hc => h'.black c (h.black c hc), fun c => (h'.grey c).trans (h.grey c)⟩

/-- No class turns white again. -/
theorem Advances.white (h : s.Advances t) (hc : t.markOf c = .white) : s.markOf c = .white := by
  cases hs : s.markOf c with
  | white => rfl
  | grey =>
    rw [(h.grey c).2 hs] at hc
    cases hc
  | black =>
    rw [h.black c hs] at hc
    cases hc

/-- The number of white classes among the first `n`. -/
def whites (n : Nat) (s : Search) : Nat := ((Finset.range n).filter fun i => s.markOf ⟨i⟩ = .white).card

theorem whites_le (n : Nat) (s : Search) : s.whites n ≤ n :=
  (Finset.card_filter_le _ _).trans_eq (Finset.card_range n)

theorem Advances.whites_le (h : s.Advances t) (n : Nat) : t.whites n ≤ s.whites n :=
  Finset.card_le_card (Finset.monotone_filter_right _ fun _ _ => h.white)

/-- Entering a class leaves one white class less. -/
theorem whites_enter (hmarks : s.marks.length = n) (hlt : c.index < n) (hwhite : s.markOf c = .white) :
    (s.enter c).whites n < s.whites n := by
  have hmark := markOf_enter (s := s) (hmarks ▸ hlt)
  refine Finset.card_lt_card (Finset.ssubset_iff_of_subset ?_ |>.2 ⟨c.index, ?_, ?_⟩)
  · intro i hi
    rw [Finset.mem_filter, hmark] at hi
    split at hi
    · cases hi.2
    · exact Finset.mem_filter.2 hi
  · exact Finset.mem_filter.2 ⟨Finset.mem_range.2 hlt, hwhite⟩
  · intro hmem
    rw [Finset.mem_filter, hmark, if_pos rfl] at hmem
    cases hmem.2

/-! ### One visit -/

/-- The search may visit the class at a depth: all that is on the way leads to the class, and there are few enough white classes. -/
structure Ready (parents : List (List ClassId)) (depth : Nat) (s : Search) (c : ClassId) : Prop where
  sound : s.Sound parents
  lt : c.index < parents.length
  reach : ∀ d, s.markOf d = .grey → TransGen (Edge parents) d c
  depth : s.whites parents.length < depth

/-- What a visit comes to: the class is black, or a class on a cycle has been met. -/
structure Visits (parents : List (List ClassId)) (s : Search) (c : ClassId) (r : Except ClassId Search) : Prop where
  done : ∀ t, r = .ok t → t.Sound parents ∧ s.Advances t ∧ t.markOf c = .black
  cycle : ∀ e, r = .error e → TransGen (Edge parents) e e

/-- What visiting parents of a class comes to. -/
structure VisitsParents (parents : List (List ClassId)) (found : Search × List ClassId) (ps : List ClassId)
    (r : Except ClassId (Search × List ClassId)) : Prop where
  done : ∀ t closure, r = .ok (t, closure) → t.Sound parents ∧ found.1.Advances t ∧ (∀ p ∈ ps, t.markOf p = .black) ∧
    closure.Sublist (idsUpTo parents.length) ∧
    ∀ d, d ∈ closure ↔ d ∈ found.2 ∨ ∃ p ∈ ps, ReflTransGen (Edge parents) p d
  cycle : ∀ e, r = .error e → TransGen (Edge parents) e e

section Visits

variable (hparents : ∀ c p, Edge parents c p → p.index < parents.length)

include hparents

/-- Parent edges lead to classes. -/
theorem lt_of_transGen (h : TransGen (Edge parents) c d) : d.index < parents.length := by
  obtain ⟨m, -, hedge⟩ := TransGen.tail'_iff.1 h
  exact hparents m d hedge

/-- One more parent joins the closure with all its ancestors. -/
theorem mem_closure (hs : s.Sound parents) (hp : s.markOf p = .black) (hlt : p.index < parents.length)
    (hclosure : closure.Sublist (idsUpTo parents.length)) :
    d ∈ unionBelow parents.length closure (p :: s.ancestorsOf p) ↔ d ∈ closure ∨ ReflTransGen (Edge parents) p d := by
  rw [mem_unionBelow, mem_cons, hs.found p hp, reflTransGen_iff_eq_or_transGen, and_iff_right_iff_imp]
  rintro (hd | rfl | hd)
  · exact mem_idsUpTo.1 (hclosure.subset hd)
  · exact hlt
  · exact lt_of_transGen hparents hd

/-- If every visit of a parent does what it should, so do visits of several parents, one after another. -/
theorem visitsParents {depth : Nat} {run : ClassId → Search → Except ClassId Search}
    (hrun : ∀ (s : Search) (p : ClassId), s.Ready parents depth p → s.Visits parents p (run p s)) :
    ∀ (ps : List ClassId) (found : Search × List ClassId), (∀ p ∈ ps, Edge parents c p) → found.1.Sound parents →
      (∀ d, found.1.markOf d = .grey → ReflTransGen (Edge parents) d c) → found.1.whites parents.length < depth →
      found.2.Sublist (idsUpTo parents.length) →
      VisitsParents parents found ps (ps.foldlM (visitParent parents.length run) found)
  | [], found, _, hsound, _, _, hclosure => by
    refine ⟨fun t closure h => ?_, fun e h => by cases h⟩
    cases h
    exact ⟨hsound, .refl _, by simp, hclosure, by simp⟩
  | p :: ps, found, hps, hsound, hreach, hdepth, hclosure => by
    obtain ⟨hedge, hps⟩ := forall_mem_cons.1 hps
    have hlt := hparents c p hedge
    have hvisit := hrun found.1 p ⟨hsound, hlt, fun d hd => .tail' (hreach d hd) hedge, hdepth⟩
    cases hr : run p found.1 with
    | error e =>
      have hfail : (p :: ps).foldlM (visitParent parents.length run) found = .error e := by
        rw [foldlM_cons, visitParent, hr]
        rfl
      rw [hfail]
      refine ⟨fun t closure h => (by cases h), fun e' h => ?_⟩
      cases h
      exact hvisit.cycle e hr
    | ok t =>
      have hnext : (p :: ps).foldlM (visitParent parents.length run) found =
          ps.foldlM (visitParent parents.length run) (t, unionBelow parents.length found.2 (p :: t.ancestorsOf p)) := by
        rw [foldlM_cons, visitParent, hr]
        rfl
      obtain ⟨ht, hadvances, hblack⟩ := hvisit.done t hr
      have hrest := visitsParents hrun ps (t, unionBelow parents.length found.2 (p :: t.ancestorsOf p)) hps ht
        (fun d hd => hreach d ((hadvances.grey d).1 hd)) (Nat.lt_of_le_of_lt (hadvances.whites_le _) hdepth) filter_sublist
      rw [hnext]
      refine ⟨fun u closure h => ?_, hrest.cycle⟩
      obtain ⟨hu, hadvances', hblacks, hordered, hmem⟩ := hrest.done u closure h
      refine ⟨hu, hadvances.trans hadvances', forall_mem_cons.2 ⟨hadvances'.black p hblack, hblacks⟩, hordered, fun d => ?_⟩
      rw [hmem, mem_closure hparents ht hblack hlt hclosure, or_assoc]
      simp

end Visits

/-- The class that is entered was white, so nothing black is touched. -/
theorem Sound.enter (h : s.Sound parents) (hlt : c.index < parents.length) (hwhite : s.markOf c = .white) :
    (s.enter c).Sound parents := by
  have hmark := markOf_enter (s := s) (h.marks ▸ hlt)
  have hold : ∀ d, (s.enter c).markOf d = .black → s.markOf d = .black := by
    intro d hd
    rw [hmark] at hd
    split at hd
    · cases hd
    · exact hd
  refine ⟨by simpa [Search.enter] using h.marks, h.lists, h.ordered, fun d p hd hedge => ?_, fun d hd => h.found d (hold d hd),
    fun d hd => h.acyclic d (hold d hd)⟩
  have hp := h.closed d p (hold d hd) hedge
  have hne : p ≠ c := by
    rintro rfl
    rw [hwhite] at hp
    cases hp
  rw [hmark, if_neg hne]
  exact hp

/-- A class may be left when its parents are black and the closure holds all that they lead to: if it lay on a cycle, a parent would
lead to it, and it would be black already. -/
theorem Sound.leave (h : s.Sound parents) (hlt : c.index < parents.length) (hgrey : s.markOf c = .grey)
    (hblack : ∀ p, Edge parents c p → s.markOf p = .black) (hordered : closure.Sublist (idsUpTo parents.length))
    (hclosure : ∀ d, d ∈ closure ↔ ∃ p, Edge parents c p ∧ ReflTransGen (Edge parents) p d) :
    (s.leave c closure).Sound parents := by
  have hmark := markOf_leave (s := s) (h.marks ▸ hlt) closure
  have hancestors := ancestorsOf_leave (s := s) (h.lists ▸ hlt) closure
  have hkept : ∀ d, s.markOf d = .black → (s.leave c closure).markOf d = .black := by
    intro d hd
    rw [hmark]
    split
    · rfl
    · exact hd
  have hold : ∀ d, d ≠ c → (s.leave c closure).markOf d = .black → s.markOf d = .black := by
    intro d hne hd
    rwa [hmark, if_neg hne] at hd
  refine ⟨by simpa [Search.leave] using h.marks, by simpa [Search.leave] using h.lists, fun d => ?_, fun d p hd hedge => ?_,
    fun d hd => ?_, fun d hd => ?_⟩
  · rw [hancestors]
    split
    · exact hordered
    · exact h.ordered d
  · by_cases hdc : d = c
    · subst hdc
      exact hkept p (hblack p hedge)
    · exact hkept p (h.closed d p (hold d hdc hd) hedge)
  · rw [hancestors]
    split
    · rename_i hdc
      subst hdc
      exact fun e => (hclosure e).trans TransGen.head'_iff.symm
    · rename_i hdc
      exact h.found d (hold d hdc hd)
  · by_cases hdc : d = c
    · subst hdc
      intro hcycle
      obtain ⟨p, hedge, hpd⟩ := TransGen.head'_iff.1 hcycle
      have hd := h.black (hblack p hedge) hpd
      rw [hgrey] at hd
      cases hd
    · exact h.acyclic d (hold d hdc hd)

/-- A class that is entered and left again is no longer white, and all other marks advance. -/
theorem Advances.leave (hwhite : s.markOf c = .white) (hs : c.index < s.marks.length) (ht : c.index < t.marks.length)
    (h : (s.enter c).Advances t) : s.Advances (t.leave c closure) := by
  have hmark := markOf_leave ht closure
  refine ⟨fun d hd => ?_, fun d => ?_⟩
  · rw [hmark]
    split
    · rfl
    · rename_i hdc
      refine h.black d ?_
      rw [markOf_enter hs, if_neg hdc]
      exact hd
  · rw [hmark]
    split
    · rename_i hdc
      subst hdc
      simp [hwhite]
    · rename_i hdc
      rw [h.grey, markOf_enter hs, if_neg hdc]

/-- The way to a white class, once it is entered: the class itself, and what led to it. -/
theorem Ready.reach_enter {limit : Nat} (h : s.Ready parents limit c) (hd : (s.enter c).markOf d = .grey) : ReflTransGen (Edge parents) d c := by
  rw [markOf_enter (h.sound.marks ▸ h.lt)] at hd
  split at hd
  · rename_i hdc
    rw [hdc]
  · exact (h.reach d hd).to_reflTransGen

/-- Between visits no class is on the way, so any class may be visited at a depth above the number of classes. -/
theorem ready_of_idle (hdepth : parents.length < depth) (hs : s.Sound parents) (hidle : ∀ d, s.markOf d ≠ .grey)
    (hc : c.index < parents.length) : s.Ready parents depth c :=
  ⟨hs, hc, fun d hd => absurd hd (hidle d), Nat.lt_of_le_of_lt (whites_le _ s) hdepth⟩

variable (hparents : ∀ c p, Edge parents c p → p.index < parents.length)

include hparents

/-- A visit makes its class black, or meets a class on a cycle. A grey class that comes up leads to itself, since all that is on the
way leads to what is visited; and each class that is entered leaves fewer white ones, so the depth is never used up. -/
theorem visits_visit : ∀ (depth : Nat) (s : Search) (c : ClassId), s.Ready parents depth c →
    s.Visits parents c (visit parents depth c s) := by
  intro depth
  induction depth with
  | zero => exact fun s c h => absurd h.depth (Nat.not_lt_zero _)
  | succ depth ih =>
    intro s c h
    have hlt : c.index < s.marks.length := h.sound.marks ▸ h.lt
    rw [visit]
    cases hmark : s.markOf c with
    | black =>
      refine ⟨fun t ht => ?_, fun e he => by cases he⟩
      cases ht
      exact ⟨h.sound, .refl s, hmark⟩
    | grey =>
      refine ⟨fun t ht => (by cases ht), fun e he => ?_⟩
      cases he
      exact h.reach c hmark
    | white =>
      have hfold := visitsParents hparents (c := c) ih (parentsIn parents c) (s.enter c, []) (fun p hp => hp)
        (h.sound.enter h.lt hmark) (fun d => h.reach_enter)
        (Nat.lt_of_lt_of_le (whites_enter h.sound.marks h.lt hmark) (Nat.le_of_lt_succ h.depth)) (nil_sublist _)
      refine ⟨fun u hu => ?_, fun e he => ?_⟩
      · obtain ⟨⟨t, closure⟩, hr, hu⟩ := exceptBind_ok.1 hu
        cases hu
        obtain ⟨ht, hadvances, hblack, hordered, hclosure⟩ := hfold.done t closure hr
        have hgrey : t.markOf c = .grey := by
          rw [hadvances.grey, markOf_enter hlt, if_pos rfl]
        have hlt' : c.index < t.marks.length := ht.marks ▸ h.lt
        refine ⟨ht.leave h.lt hgrey hblack hordered fun d => ?_, .leave hmark hlt hlt' hadvances, ?_⟩
        · rw [hclosure]
          simp [Edge]
        · rw [markOf_leave hlt', if_pos rfl]
      · cases hr : (parentsIn parents c).foldlM (visitParent parents.length (visit parents depth)) (s.enter c, []) with
        | error e' =>
          rw [hr] at he
          cases he
          exact hfold.cycle _ hr
        | ok found =>
          rw [hr] at he
          cases he

/-- A depth that is enough is as good as one more. -/
theorem visit_deeper : ∀ (depth : Nat) (s : Search) (c : ClassId), s.Ready parents depth c →
    visit parents (depth + 1) c s = visit parents depth c s := by
  intro depth
  induction depth with
  | zero => exact fun s c h => absurd h.depth (Nat.not_lt_zero _)
  | succ depth ih =>
    intro s c h
    rw [visit, visit]
    cases hmark : s.markOf c with
    | black | grey => rfl
    | white =>
      have hfold : (parentsIn parents c).foldlM (visitParent parents.length (visit parents (depth + 1))) (s.enter c, []) =
          (parentsIn parents c).foldlM (visitParent parents.length (visit parents depth)) (s.enter c, []) := by
        refine exceptFoldlM_congr (P := fun found => found.1.Sound parents ∧
          (∀ d, found.1.markOf d = .grey → ReflTransGen (Edge parents) d c) ∧ found.1.whites parents.length < depth)
          (fun p hp found hfound => ?_) ?_
        · obtain ⟨hsound, hreach, hdepth⟩ := hfound
          have hready : found.1.Ready parents depth p :=
            ⟨hsound, hparents c p hp, fun d hd => .tail' (hreach d hd) hp, hdepth⟩
          refine ⟨by rw [visitParent, visitParent, ih _ _ hready], fun next hnext => ?_⟩
          obtain ⟨t, ht, hnext⟩ := exceptBind_ok.1 hnext
          cases hnext
          obtain ⟨hsound', hadvances, -⟩ := (visits_visit hparents depth found.1 p hready).done t ht
          exact ⟨hsound', fun d hd => hreach d ((hadvances.grey d).1 hd), Nat.lt_of_le_of_lt (hadvances.whites_le _) hdepth⟩
        · exact ⟨h.sound.enter h.lt hmark, fun d => h.reach_enter,
            Nat.lt_of_lt_of_le (whites_enter h.sound.marks h.lt hmark) (Nat.le_of_lt_succ h.depth)⟩
      rw [hfold]

/-! ### The whole search -/

/-- Visiting classes one after another makes all of them black, or meets a class on a cycle. -/
theorem visits_all {depth : Nat} (hdepth : parents.length < depth) : ∀ (cs : List ClassId) (s : Search),
    (∀ c ∈ cs, c.index < parents.length) → s.Sound parents → (∀ d, s.markOf d ≠ .grey) →
    (∀ t, cs.foldlM (fun s c => visit parents depth c s) s = .ok t →
      t.Sound parents ∧ s.Advances t ∧ ∀ c ∈ cs, t.markOf c = .black) ∧
    ∀ e, cs.foldlM (fun s c => visit parents depth c s) s = .error e → TransGen (Edge parents) e e
  | [], s, _, hs, _ => by
    refine ⟨fun t ht => ?_, fun e he => by cases he⟩
    cases ht
    exact ⟨hs, .refl s, by simp⟩
  | c :: cs, s, hcs, hs, hidle => by
    obtain ⟨hc, hcs⟩ := forall_mem_cons.1 hcs
    have hvisit := visits_visit hparents depth s c (ready_of_idle hdepth hs hidle hc)
    rw [foldlM_cons]
    cases hr : visit parents depth c s with
    | error e =>
      refine ⟨fun t ht => (by cases ht), fun e' he => ?_⟩
      cases he
      exact hvisit.cycle e hr
    | ok t =>
      obtain ⟨ht, hadvances, hblack⟩ := hvisit.done t hr
      have hidle' : ∀ d, t.markOf d ≠ .grey := fun d hd => hidle d ((hadvances.grey d).1 hd)
      obtain ⟨hdone, hcycle⟩ := visits_all hdepth cs t hcs ht hidle'
      refine ⟨fun u hu => ?_, hcycle⟩
      obtain ⟨hu, hadvances', hblacks⟩ := hdone u hu
      exact ⟨hu, hadvances.trans hadvances', forall_mem_cons.2 ⟨hadvances'.black c hblack, hblacks⟩⟩

/-- The search finds the ancestors of every class, and there is no cycle; or it meets a class on a cycle. -/
theorem search_spec (hdepth : parents.length < depth) :
    (∀ t, search depth parents = .ok t → t.Sound parents ∧ ∀ c : ClassId, c.index < parents.length → t.markOf c = .black) ∧
      ∀ e, search depth parents = .error e → TransGen (Edge parents) e e := by
  have hidle : ∀ d, (start parents.length).markOf d ≠ .grey := by
    intro d
    rw [markOf_start]
    exact Mark.noConfusion
  obtain ⟨hdone, hcycle⟩ := visits_all hparents hdepth (idsUpTo parents.length) _ (fun c => mem_idsUpTo.1)
    (sound_start parents) hidle
  refine ⟨fun t ht => ?_, hcycle⟩
  obtain ⟨hsound, -, hblack⟩ := hdone t ht
  exact ⟨hsound, fun c hc => hblack c (mem_idsUpTo.2 hc)⟩

/-- A search that succeeds has found the ancestors of every class. -/
theorem mem_ancestorsOf_search (hdepth : parents.length < depth) (h : search depth parents = .ok t) :
    d ∈ t.ancestorsOf c ↔ TransGen (Edge parents) c d := by
  obtain ⟨hsound, hblack⟩ := (search_spec hparents hdepth).1 t h
  rcases Nat.lt_or_ge c.index parents.length with hlt | hge
  · exact hsound.found c (hblack c hlt) d
  · rw [ancestorsOf, getD_eq_default _ _ (by rw [hsound.lists]; exact hge)]
    constructor
    · intro hd
      cases hd
    · intro hcd
      obtain ⟨p, hedge, -⟩ := TransGen.head'_iff.1 hcd
      exact absurd hedge.lt (Nat.not_lt.2 hge)

/-- The search succeeds exactly if there is no cycle. -/
theorem search_ok_iff (hdepth : parents.length < depth) :
    (∃ t, search depth parents = .ok t) ↔ ∀ c, ¬ TransGen (Edge parents) c c := by
  obtain ⟨hdone, hcycle⟩ := search_spec hparents hdepth
  constructor
  · rintro ⟨t, ht⟩ c hc
    obtain ⟨hsound, hblack⟩ := hdone t ht
    exact hsound.acyclic c (hblack c (lt_of_transGen hparents hc)) hc
  · intro hacyclic
    cases hr : search depth parents with
    | ok t => exact ⟨t, rfl⟩
    | error e => exact absurd (hcycle e hr) (hacyclic e)

/-- No more classes are ever on the way than there are: any depth above their number gives the same. -/
theorem search_depth {depth : Nat} (hdepth : parents.length < depth) :
    search depth parents = search (parents.length + 1) parents := by
  induction depth, hdepth using Nat.le_induction with
  | base => rfl
  | succ depth hdepth ih =>
    rw [← ih]
    refine exceptFoldlM_congr (P := fun s => s.Sound parents ∧ ∀ d, s.markOf d ≠ .grey) (fun c hc s hs => ?_) ?_
    · have hready := ready_of_idle hdepth hs.1 hs.2 (mem_idsUpTo.1 hc)
      refine ⟨visit_deeper hparents depth s c hready, fun t ht => ?_⟩
      obtain ⟨hsound, hadvances, -⟩ := (visits_visit hparents depth s c hready).done t ht
      exact ⟨hsound, fun d hd => hs.2 d ((hadvances.grey d).1 hd)⟩
    · refine ⟨sound_start parents, fun d => ?_⟩
      rw [markOf_start]
      exact Mark.noConfusion

end Search

end StoreCheck.ClassGraph
