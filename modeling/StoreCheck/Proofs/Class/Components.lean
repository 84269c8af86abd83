import StoreCheck.Proofs.Class.Inheritance

/-!
# Components: classes that inheritance connects

Links lead from every class to the root of its component. They never lead to a later class (`Descends`), so every search for a root
ends, and halving the paths on the way leaves all roots as they are (`find_spec`). Uniting two classes makes the earlier of their
roots the root of both (`unite_spec`); so after all parent edges the root of a class is the first class that it is connected to
(`Linked`). The roots are numbered as they come up (`componentsOf_eq`).
-/

namespace StoreCheck

open List Relation ClassGraph

variable {p : ClassId} {i k : Nat}

namespace ClassGraph

variable {n steps x : Nat} {links links' : List Nat} {c d : ClassId} {E : ClassId → ClassId → Prop}

/-! ## Links -/

theorem linkOf_set {v : Nat} (h : x < links.length) (y : Nat) :
    linkOf (links.set x v) y = if y = x then v else linkOf links y := by
  by_cases hy : y = x
  · subst hy
    simp [linkOf, h]
  · simp [linkOf, getD_eq_getElem?_getD, hy, Ne.symm hy]

/-- A class with a link to another one is in the table. -/
theorem lt_of_linkOf_ne (h : linkOf links x ≠ x) : x < links.length := by
  by_contra hge
  exact h (getD_eq_default _ _ (Nat.not_lt.1 hge))

/-- No link leads to a later class. -/
def Descends (links : List Nat) : Prop := ∀ x, linkOf links x ≤ x

/-- The root of a class: where its links end. Each step leads to an earlier class, so there are no more steps than classes before
it. -/
def rootOf (links : List Nat) (x : Nat) : Nat := (linkOf links)^[x] x

theorem rootOf_of_root (h : linkOf links x = x) : rootOf links x = x := Function.iterate_fixed h x

namespace Descends

/-- As many steps as a class has classes before it lead to a root. -/
theorem linkOf_iterate (h : Descends links) : ∀ {k x : Nat}, x ≤ k → linkOf links ((linkOf links)^[k] x) = (linkOf links)^[k] x
  | 0, x, hx => by
    obtain rfl := Nat.le_zero.1 hx
    exact Nat.le_zero.1 (h 0)
  | k + 1, x, hx => by
    rw [Function.iterate_succ_apply]
    by_cases hroot : linkOf links x = x
    · rw [hroot, Function.iterate_fixed hroot, hroot]
    · have hlt : linkOf links x < x := Nat.lt_of_le_of_ne (h x) hroot
      exact linkOf_iterate h (Nat.le_of_lt_succ (Nat.lt_of_lt_of_le hlt hx))

/-- A root is linked to itself. -/
theorem linkOf_rootOf (h : Descends links) (x : Nat) : linkOf links (rootOf links x) = rootOf links x := h.linkOf_iterate le_rfl

/-- What every step keeps, the way to the root keeps. -/
theorem rootOf_induction {P : Nat → Prop} (hstep : ∀ y, P y → P (linkOf links y)) (hx : P x) : P (rootOf links x) := by
  have hall : ∀ k, P ((linkOf links)^[k] x) := by
    intro k
    induction k with
    | zero => exact hx
    | succ k ih =>
      rw [Function.iterate_succ_apply']
      exact hstep _ ih
  exact hall x

theorem rootOf_le (h : Descends links) (x : Nat) : rootOf links x ≤ x :=
  rootOf_induction (P := (· ≤ x)) (fun y hy => (h y).trans hy) le_rfl

/-- A function that names roots, and does not change along links, gives the roots. -/
theorem rootOf_eq (h : Descends links) {f : Nat → Nat} (hroot : ∀ y, linkOf links y = y → f y = y)
    (hstep : ∀ y, f (linkOf links y) = f y) (x : Nat) : rootOf links x = f x := by
  have hkept : f (rootOf links x) = f x := rootOf_induction (P := fun y => f y = f x) (fun y hy => (hstep y).trans hy) rfl
  rw [← hkept, hroot _ (h.linkOf_rootOf x)]

/-- A class has the root of what it is linked to. -/
theorem rootOf_linkOf (h : Descends links) (x : Nat) : rootOf links (linkOf links x) = rootOf links x := by
  by_cases hroot : linkOf links x = x
  · rw [hroot]
  · have hlt : linkOf links x < x := Nat.lt_of_le_of_ne (h x) hroot
    have hsteps : (linkOf links)^[x] x = (linkOf links)^[x - 1 - linkOf links x] (rootOf links (linkOf links x)) := by
      rw [rootOf, ← Function.iterate_add_apply, ← Function.iterate_succ_apply]
      congr 1
      omega
    rw [rootOf.eq_def links x, hsteps, Function.iterate_fixed (h.linkOf_rootOf _)]

theorem rootOf_rootOf (h : Descends links) (x : Nat) : rootOf links (rootOf links x) = rootOf links x :=
  rootOf_of_root (h.linkOf_rootOf x)

/-! ## Searching for a root -/

/-- Halving leads to earlier classes only. -/
theorem halve (h : Descends links) (hx : x < links.length) : Descends (halve links x) := by
  intro y
  rw [ClassGraph.halve, linkOf_set hx]
  split
  · rename_i hy
    rw [hy]
    exact (h _).trans (h x)
  · exact h y

/-- Halving leaves all roots as they are. -/
theorem rootOf_halve (h : Descends links) (hx : x < links.length) (y : Nat) :
    rootOf (ClassGraph.halve links x) y = rootOf links y := by
  have hlink : ∀ z, linkOf (ClassGraph.halve links x) z = if z = x then linkOf links (linkOf links x) else linkOf links z :=
    linkOf_set hx
  refine (h.halve hx).rootOf_eq (fun z hz => ?_) (fun z => ?_) y
  · rw [hlink] at hz
    split at hz
    · rename_i hzx
      subst hzx
      have hback : z ≤ linkOf links z := by
        calc z = linkOf links (linkOf links z) := hz.symm
          _ ≤ linkOf links z := h _
      exact rootOf_of_root (Nat.le_antisymm (h z) hback)
    · exact rootOf_of_root hz
  · rw [hlink]
    split
    · rename_i hzx
      rw [hzx, h.rootOf_linkOf, h.rootOf_linkOf]
    · exact h.rootOf_linkOf z

end Descends

/-- A search with enough steps comes to the root, and changes no roots. -/
theorem find_spec (h : Descends links) (hx : x ≤ steps) :
    (find steps links x).2 = rootOf links x ∧ Descends (find steps links x).1 ∧
      (find steps links x).1.length = links.length ∧ ∀ y, rootOf (find steps links x).1 y = rootOf links y := by
  induction steps generalizing links x with
  | zero =>
    obtain rfl := Nat.le_zero.1 hx
    exact ⟨rfl, h, rfl, fun _ => rfl⟩
  | succ steps ih =>
    rw [find]
    split
    · rename_i hroot
      exact ⟨(rootOf_of_root hroot).symm, h, rfl, fun _ => rfl⟩
    · rename_i hlink
      have hlt := lt_of_linkOf_ne hlink
      have hnext : linkOf (halve links x) x = linkOf links (linkOf links x) := by rw [halve, linkOf_set hlt, if_pos rfl]
      have hearlier : linkOf links (linkOf links x) < x := Nat.lt_of_le_of_lt (h _) (Nat.lt_of_le_of_ne (h x) hlink)
      rw [hnext]
      obtain ⟨hroot, hdescends, hlength, hroots⟩ := ih (h.halve hlt) (Nat.le_of_lt_succ (Nat.lt_of_lt_of_le hearlier hx))
      refine ⟨?_, hdescends, by simpa [halve] using hlength, fun y => (hroots y).trans (h.rootOf_halve hlt y)⟩
      rw [hroot, h.rootOf_halve hlt, h.rootOf_linkOf, h.rootOf_linkOf]

/-! ## Uniting classes -/

/-- Linking one root to an earlier one gives its classes the earlier root. -/
theorem rootOf_set {a b : Nat} (h : Descends links) (ha : linkOf links a = a) (hb : linkOf links b = b) (hab : b < a)
    (hlt : a < links.length) : Descends (links.set a b) ∧
      ∀ y, rootOf (links.set a b) y = if rootOf links y = a then b else rootOf links y := by
  have hlink : ∀ y, linkOf (links.set a b) y = if y = a then b else linkOf links y := linkOf_set hlt
  have hdescends : Descends (links.set a b) := by
    intro y
    rw [hlink]
    split
    · omega
    · exact h y
  have hroot := rootOf_of_root ha
  have hroot' := rootOf_of_root hb
  refine ⟨hdescends, hdescends.rootOf_eq (fun y hy => ?_) (fun y => ?_)⟩
  · rw [hlink] at hy
    split at hy
    · omega
    · rename_i hya
      rw [rootOf_of_root hy, if_neg hya]
  · rw [hlink]
    split
    · rename_i hya
      rw [hya, hroot, hroot', if_pos rfl, if_neg (Nat.ne_of_lt hab)]
    · rw [h.rootOf_linkOf]

/-- After two classes are united, the classes of the later of their roots have the earlier one. -/
theorem unite_spec (h : Descends links) (hc : c.index < links.length) (hp : p.index < links.length) (hsteps : links.length ≤ steps)
    : Descends (unite steps links c p) ∧ (unite steps links c p).length = links.length ∧
      ∀ y, rootOf (unite steps links c p) y =
        if rootOf links y = max (rootOf links c.index) (rootOf links p.index) then
          min (rootOf links c.index) (rootOf links p.index)
        else rootOf links y := by
  unfold unite
  obtain ⟨ha, h1, hlength1, hroots1⟩ := find_spec h (hc.le.trans hsteps)
  generalize find steps links c.index = r1 at ha h1 hlength1 hroots1 ⊢
  obtain ⟨links1, a⟩ := r1
  dsimp only at ha h1 hlength1 hroots1 ⊢
  obtain ⟨hb, h2, hlength2, hroots2⟩ := find_spec h1 (hp.le.trans hsteps)
  generalize find steps links1 p.index = r2 at hb h2 hlength2 hroots2 ⊢
  obtain ⟨links2, b⟩ := r2
  dsimp only at hb h2 hlength2 hroots2 ⊢
  have hroots : ∀ y, rootOf links2 y = rootOf links y := fun y => (hroots2 y).trans (hroots1 y)
  have hlength := hlength2.trans hlength1
  rw [hroots1] at hb
  rw [← ha, ← hb]
  have hfixed : linkOf links2 a = a ∧ linkOf links2 b = b := by
    rw [ha, hb, ← hroots, ← hroots]
    exact ⟨h2.linkOf_rootOf _, h2.linkOf_rootOf _⟩
  have hbelow : a < links.length ∧ b < links.length := by
    rw [ha, hb]
    exact ⟨(h.rootOf_le _).trans_lt hc, (h.rootOf_le _).trans_lt hp⟩
  split
  · rename_i heq
    subst heq
    refine ⟨h2, hlength, fun y => ?_⟩
    rw [hroots, max_self, min_self]
    split
    · assumption
    · rfl
  · rename_i hne
    have hlt : min a b < max a b := by omega
    have hmax : linkOf links2 (max a b) = max a b := by
      rcases max_choice a b with hm | hm <;> rw [hm]
      exacts [hfixed.1, hfixed.2]
    have hmin : linkOf links2 (min a b) = min a b := by
      rcases min_choice a b with hm | hm <;> rw [hm]
      exacts [hfixed.1, hfixed.2]
    obtain ⟨hdescends, hset⟩ := rootOf_set h2 hmax hmin hlt (hlength ▸ max_lt hbelow.1 hbelow.2)
    refine ⟨hdescends, by rw [length_set, hlength], fun y => ?_⟩
    rw [hset, hroots]

/-- The edges lead between classes of one root, and every class is connected to its root. -/
structure Linked (n : Nat) (E : ClassId → ClassId → Prop) (links : List Nat) : Prop where
  length : links.length = n
  descends : Descends links
  edge : ∀ c p, E c p → c.index < n ∧ p.index < n ∧ rootOf links c.index = rootOf links p.index
  connected : ∀ x, x < n → EqvGen E ⟨x⟩ ⟨rootOf links x⟩

/-- At first every class is its own root. -/
theorem linked_range (n : Nat) : Linked n (fun _ _ => False) (List.range n) := by
  have hlink : ∀ x, linkOf (List.range n) x = x := by
    intro x
    rcases Nat.lt_or_ge x n with hlt | hge
    · simp [linkOf, hlt]
    · exact getD_eq_default _ _ (by simpa using hge)
  refine ⟨length_range, fun x => (hlink x).le, fun _ _ h => h.elim, fun x _ => ?_⟩
  rw [rootOf_of_root (hlink x)]
  exact .refl _

/-- Uniting the ends of one more edge. -/
theorem Linked.unite (h : Linked n E links) (hc : c.index < n) (hp : p.index < n) (hsteps : n ≤ steps) :
    Linked n (fun a b => E a b ∨ (a, b) = (c, p)) (ClassGraph.unite steps links c p) := by
  obtain ⟨hdescends, hlength, hroot⟩ :=
    unite_spec h.descends (h.length ▸ hc) (h.length ▸ hp) (h.length ▸ hsteps)
  have hold : ∀ {a b}, EqvGen E a b → EqvGen (fun a b => E a b ∨ (a, b) = (c, p)) a b :=
    fun hab => hab.mono fun _ _ => .inl
  have hedge : EqvGen (fun a b => E a b ∨ (a, b) = (c, p)) ⟨rootOf links c.index⟩ ⟨rootOf links p.index⟩ :=
    ((hold (h.connected _ hc)).symm.trans _ _ _ (.rel _ _ (.inr rfl))).trans _ _ _ (hold (h.connected _ hp))
  refine ⟨hlength.trans h.length, hdescends, fun a b hab => ?_, fun x hx => ?_⟩
  · rcases hab with hab | hab
    · obtain ⟨ha, hb, heq⟩ := h.edge a b hab
      exact ⟨ha, hb, by rw [hroot, hroot, heq]⟩
    · cases hab
      refine ⟨hc, hp, ?_⟩
      rw [hroot, hroot]
      split <;> split <;> omega
  · rw [hroot]
    split
    · rename_i heq
      refine (hold (h.connected x hx)).trans _ _ _ ?_
      rw [heq]
      rcases Nat.le_total (rootOf links c.index) (rootOf links p.index) with hle | hle
      · rw [Nat.max_eq_right hle, Nat.min_eq_left hle]
        exact hedge.symm
      · rw [Nat.max_eq_left hle, Nat.min_eq_right hle]
        exact hedge
    · exact hold (h.connected x hx)

/-- Uniting the ends of all edges of a list. -/
theorem Linked.uniteEdges (edges : List (ClassId × ClassId)) (h : Linked n E links)
    (hedges : ∀ e ∈ edges, e.1.index < n ∧ e.2.index < n) (hsteps : n ≤ steps) :
    Linked n (fun a b => E a b ∨ (a, b) ∈ edges) (edges.foldl (fun ls e => ClassGraph.unite steps ls e.1 e.2) links) := by
  induction edges generalizing E links with
  | nil => simpa using h
  | cons e rest ih =>
    obtain ⟨hc, hp⟩ := hedges e (by simp)
    have hrest := ih (h.unite hc hp hsteps) fun e' he' => hedges e' (by simp [he'])
    simpa only [foldl_cons, mem_cons, or_assoc] using hrest

/-- Classes have one root exactly if they are connected. -/
theorem Linked.rootOf_eq_iff (h : Linked n E links) (hc : c.index < n) (hd : d.index < n) :
    rootOf links c.index = rootOf links d.index ↔ EqvGen E c d := by
  constructor
  · intro heq
    refine (h.connected c.index hc).trans _ _ _ ?_
    rw [heq]
    exact (h.connected d.index hd).symm
  · intro hcd
    clear hc hd
    induction hcd with
    | rel a b hab => exact (h.edge a b hab).2.2
    | refl => rfl
    | symm a b _ ih => exact ih.symm
    | trans a b e _ _ ih ih' => exact ih.trans ih'

/-- The root of a class is the first class that it is connected to, whichever way the links go. -/
theorem Linked.rootOf_unique (h : Linked n E links) (h' : Linked n E links') (hx : x < n) : rootOf links x = rootOf links' x := by
  have hle : ∀ {ls ls' : List Nat}, Linked n E ls → Linked n E ls' → rootOf ls x ≤ rootOf ls' x := by
    intro ls ls' hls hls'
    have hlt : rootOf ls' x < n := Nat.lt_of_le_of_lt (hls'.descends.rootOf_le x) hx
    have heq := (hls.rootOf_eq_iff (c := ⟨x⟩) (d := ⟨rootOf ls' x⟩) hx hlt).2 (hls'.connected x hx)
    rw [heq]
    exact hls.descends.rootOf_le _
  exact Nat.le_antisymm (hle h h') (hle h' h)

/-- After all parent edges the links connect the classes that inheritance connects. -/
theorem linked_uniteAll {parents : List (List ClassId)} (hparents : ∀ c p, Edge parents c p → p.index < parents.length)
    (hsteps : parents.length ≤ steps) : Linked parents.length (Edge parents) (uniteAll steps parents) := by
  have hedges : ∀ e : ClassId × ClassId, e ∈ (idsUpTo parents.length).flatMap (fun c => (parentsIn parents c).map (c, ·)) ↔
      Edge parents e.1 e.2 := by
    rintro ⟨c, p⟩
    simp only [mem_flatMap, mem_idsUpTo, mem_map, Prod.mk.injEq]
    constructor
    · rintro ⟨d, -, q, hq, rfl, rfl⟩
      exact hq
    · intro h
      exact ⟨c, h.lt, p, h, rfl, rfl⟩
  have h := (linked_range parents.length).uniteEdges _ (fun e he =>
    ⟨((hedges e).1 he).lt, hparents _ _ ((hedges e).1 he)⟩) hsteps
  simp only [foldl_flatMap, foldl_map, hedges, false_or] at h
  exact h

/-! ## Numbers -/

/-- The roots among the first classes. -/
def rootsBelow (links : List Nat) (k : Nat) : List Nat := (List.range k).filter fun i => rootOf links i == i

theorem mem_rootsBelow : i ∈ rootsBelow links k ↔ i < k ∧ rootOf links i = i := by simp [rootsBelow]

/-- One more class adds itself, if it is a root. -/
theorem rootsBelow_succ (links : List Nat) (k : Nat) :
    rootsBelow links (k + 1) = rootsBelow links k ++ if rootOf links k = k then [k] else [] := by
  rw [rootsBelow, range_succ, filter_append]
  congr 1
  split <;> simp_all

/-- The root of a class comes up no later than the class. -/
theorem rootOf_mem_rootsBelow (h : Descends links) (hx : x < k) : rootOf links x ∈ rootsBelow links k :=
  mem_rootsBelow.2 ⟨(h.rootOf_le x).trans_lt hx, h.rootOf_rootOf x⟩

/-- The first `k` classes are numbered by the places of their roots. -/
structure Numbered (links : List Nat) (k : Nat) (s : Numbering) : Prop where
  descends : Descends s.links
  same : ∀ y, rootOf s.links y = rootOf links y
  roots : s.roots = rootsBelow links k
  numbers : s.numbers = (List.range k).map fun i => (rootsBelow links k).idxOf (rootOf links i)

/-- One more class is numbered: it is a root, and new, or its root has come up before. -/
theorem Numbered.next {s : Numbering} (h : Descends links) (hs : Numbered links k s) (hk : k ≤ steps) :
    Numbered links (k + 1) (s.next steps k) := by
  obtain ⟨hroot, hdescends, -, hsame⟩ := find_spec hs.descends hk
  rw [hs.same] at hroot
  have hroots : (if rootOf links k ∈ s.roots then s.roots else s.roots ++ [rootOf links k]) = rootsBelow links (k + 1) := by
    rw [hs.roots, rootsBelow_succ]
    by_cases hnew : rootOf links k = k
    · have hlate : k ∉ rootsBelow links k := fun hmem => Nat.lt_irrefl k (mem_rootsBelow.1 hmem).1
      rw [hnew, if_neg hlate, if_pos rfl]
    · have hold : rootOf links k ∈ rootsBelow links k :=
        mem_rootsBelow.2 ⟨Nat.lt_of_le_of_ne (h.rootOf_le k) hnew, h.rootOf_rootOf k⟩
      rw [if_pos hold, if_neg hnew, append_nil]
  have hnext : s.next steps k = ⟨(find steps s.links k).1, rootsBelow links (k + 1),
      s.numbers ++ [(rootsBelow links (k + 1)).idxOf (rootOf links k)]⟩ := by
    simp only [Numbering.next, hroot, hroots]
  rw [hnext]
  refine ⟨hdescends, fun y => (hsame y).trans (hs.same y), rfl, ?_⟩
  dsimp only
  rw [range_succ, map_append, hs.numbers, map_cons, map_nil]
  congr 1
  refine map_congr_left fun i hi => ?_
  rw [rootsBelow_succ, idxOf_append_of_mem (rootOf_mem_rootsBelow h (mem_range.1 hi))]

/-- The components are numbered by the places of the roots. -/
theorem componentsOf_eq {parents : List (List ClassId)} (h : Descends (uniteAll steps parents)) (hsteps : parents.length ≤ steps) :
    componentsOf steps parents =
      ((List.range parents.length).map fun i =>
          (rootsBelow (uniteAll steps parents) parents.length).idxOf (rootOf (uniteAll steps parents) i),
        (rootsBelow (uniteAll steps parents) parents.length).length) := by
  have hall : ∀ k, k ≤ steps →
      Numbered (uniteAll steps parents) k ((List.range k).foldl (Numbering.next steps) ⟨uniteAll steps parents, [], []⟩) := by
    intro k hk
    induction k with
    | zero => exact ⟨h, fun _ => rfl, rfl, rfl⟩
    | succ k ih =>
      rw [range_succ, foldl_append, foldl_cons, foldl_nil]
      exact (ih (Nat.le_of_succ_le hk)).next h (Nat.le_of_succ_le hk)
  have hdone := hall parents.length hsteps
  rw [componentsOf, hdone.roots, hdone.numbers]

/-- Roots are numbered in their order. -/
theorem idxOf_rootsBelow_lt_iff {j : Nat} (hi : i ∈ rootsBelow links k) (hj : j ∈ rootsBelow links k) :
    (rootsBelow links k).idxOf i < (rootsBelow links k).idxOf j ↔ i < j := by
  have hsorted : (rootsBelow links k).Pairwise (· < ·) := pairwise_lt_range.filter _
  have hmono : ∀ {i j}, i ∈ rootsBelow links k → j ∈ rootsBelow links k →
      (rootsBelow links k).idxOf i < (rootsBelow links k).idxOf j → i < j := by
    intro i j hi hj hlt
    have := pairwise_iff_getElem.1 hsorted _ _ (idxOf_lt_length_of_mem hi) (idxOf_lt_length_of_mem hj) hlt
    rwa [getElem_idxOf, getElem_idxOf] at this
  refine ⟨hmono hi hj, fun hlt => ?_⟩
  rcases Nat.lt_trichotomy ((rootsBelow links k).idxOf i) ((rootsBelow links k).idxOf j) with h | h | h
  · exact h
  · exact absurd ((idxOf_inj hi).1 h) (Nat.ne_of_lt hlt)
  · exact absurd (hmono hj hi h) (Nat.lt_asymm hlt)

section Numbers

variable {parents : List (List ClassId)} (hparents : ∀ c p, Edge parents c p → p.index < parents.length)

include hparents

/-- Every search for a root ends within as many steps as there are classes, so more steps change nothing. -/
theorem componentsOf_steps (hsteps : parents.length ≤ steps) :
    componentsOf steps parents = componentsOf parents.length parents := by
  have h := linked_uniteAll hparents hsteps
  have h' := linked_uniteAll hparents le_rfl
  have hroots : rootsBelow (uniteAll steps parents) parents.length = rootsBelow (uniteAll parents.length parents) parents.length :=
    filter_congr fun i hi => by rw [h.rootOf_unique h' (mem_range.1 hi)]
  rw [componentsOf_eq h.descends hsteps, componentsOf_eq h'.descends le_rfl, hroots]
  congr 1
  exact map_congr_left fun i hi => by rw [h.rootOf_unique h' (mem_range.1 hi)]

end Numbers

/-! ## The components of a graph -/

/-- The links of a graph once all classes are united. -/
def linksOf (g : ClassGraph) : List Nat := uniteAll g.size g.parents

variable {g : ClassGraph} {decls : List ClassDecl}

theorem size_ofDecls (h : ofDecls decls = .ok g) : g.parents.length = g.size := by
  obtain ⟨-, hparents, found, -, hg⟩ := ofDecls_ok h
  rw [hg]
  simpa [size, ofParents] using (exceptMapM_ok.1 hparents).length_eq.symm

/-- The links of a graph connect the classes that inheritance connects. -/
theorem linked_linksOf (h : ofDecls decls = .ok g) : Linked g.size (ClassDecl.Inherits decls) g.linksOf := by
  obtain ⟨hnames, hparents, -⟩ := ofDecls_ok h
  have hlinked := linked_uniteAll (edge_lt hparents) le_rfl
  rw [edge_eq hnames hparents, size_ofDecls h] at hlinked
  exact hlinked

/-- The components of a graph are the places of the roots. -/
theorem components_ofDecls (h : ofDecls decls = .ok g) :
    g.components = ((List.range g.size).map fun i => (rootsBelow g.linksOf g.size).idxOf (rootOf g.linksOf i)) ∧
      g.componentCount = (rootsBelow g.linksOf g.size).length := by
  obtain ⟨-, -, found, -, hg⟩ := ofDecls_ok h
  have hpair : (g.components, g.componentCount) = componentsOf g.parents.length g.parents := by
    rw [hg]
    rfl
  have hsize := size_ofDecls h
  rw [hsize, componentsOf_eq (linked_linksOf h).descends hsize.le, Prod.mk.injEq, hsize] at hpair
  exact hpair

/-- The component of a class is the place of its root. -/
theorem componentOf_eq (h : ofDecls decls = .ok g) (hc : c.index < g.size) :
    g.componentOf c = (rootsBelow g.linksOf g.size).idxOf (rootOf g.linksOf c.index) := by
  rw [componentOf, (components_ofDecls h).1]
  simp [hc]

theorem componentOf_eq_iff (h : ofDecls decls = .ok g) (hc : c.index < g.size) (hd : d.index < g.size) :
    g.componentOf c = g.componentOf d ↔ EqvGen (ClassDecl.Inherits decls) c d := by
  have hlinked := linked_linksOf h
  rw [componentOf_eq h hc, componentOf_eq h hd, idxOf_inj (rootOf_mem_rootsBelow hlinked.descends hc),
    hlinked.rootOf_eq_iff hc hd]

theorem componentOf_lt (h : ofDecls decls = .ok g) (hc : c.index < g.size) : g.componentOf c < g.componentCount := by
  rw [componentOf_eq h hc, (components_ofDecls h).2]
  exact idxOf_lt_length_of_mem (rootOf_mem_rootsBelow (linked_linksOf h).descends hc)

/-- The class is the first one of its component. -/
def Leads (g : ClassGraph) (c : ClassId) : Prop :=
  c.index < g.size ∧ ∀ d : ClassId, d.index < g.size → g.componentOf d = g.componentOf c → c.index ≤ d.index

/-- The first classes of the components are the roots. -/
theorem leads_iff (h : ofDecls decls = .ok g) : g.Leads c ↔ c.index ∈ rootsBelow g.linksOf g.size := by
  have hlinked := linked_linksOf h
  rw [mem_rootsBelow]
  refine and_congr_right fun hc => ?_
  have hle := hlinked.descends.rootOf_le c.index
  constructor
  · intro hfirst
    refine Nat.le_antisymm hle (hfirst ⟨_⟩ (hle.trans_lt hc) ?_)
    rw [componentOf_eq_iff h (hle.trans_lt hc) hc]
    exact (hlinked.connected _ hc).symm
  · intro hroot d hd heq
    rw [componentOf_eq_iff h hd hc, ← hlinked.rootOf_eq_iff hd hc, hroot] at heq
    exact heq ▸ hlinked.descends.rootOf_le d.index

/-- A component has the place of its first class among the roots. -/
theorem Leads.componentOf (hc : g.Leads c) (h : ofDecls decls = .ok g) :
    g.componentOf c = (rootsBelow g.linksOf g.size).idxOf c.index := by
  rw [componentOf_eq h hc.1, (mem_rootsBelow.1 ((leads_iff h).1 hc)).2]

/-- What holds of a graph that was built from declarations. -/
structure Coherent (g : ClassGraph) : Prop where
  /-- A class and its ancestors lie in one component. -/
  component : ∀ c d, d ∈ g.ancestorsOf c → g.componentOf d = g.componentOf c
  /-- Components are numbered. -/
  lt : ∀ c : ClassId, c.index < g.size → g.componentOf c < g.componentCount
  /-- Parents are classes of the same component. -/
  parents : ∀ c, ∀ p ∈ g.parentsOf c, p.index < g.size ∧ g.componentOf p = g.componentOf c
  /-- What is no class counts as one of the first component. -/
  unknown : ∀ c : ClassId, g.size ≤ c.index → g.componentOf c = 0

theorem coherent_ofDecls (h : ofDecls decls = .ok g) : g.Coherent := by
  obtain ⟨hnames, hparents, -⟩ := ofDecls_ok h
  have hsize := size_ofDecls h
  have hedge : ∀ {c p}, ClassDecl.Inherits decls c p → c.index < g.size ∧ p.index < g.size ∧ g.componentOf p = g.componentOf c := by
    intro c p hcp
    rw [← edge_eq hnames hparents] at hcp
    have hc : c.index < g.size := hsize ▸ hcp.lt
    have hp : p.index < g.size := hsize ▸ edge_lt hparents c p hcp
    rw [edge_eq hnames hparents] at hcp
    exact ⟨hc, hp, (componentOf_eq_iff h hp hc).2 (.symm _ _ (.rel _ _ hcp))⟩
  refine ⟨fun c d hd => ?_, fun c => componentOf_lt h, fun c p hp => ?_, fun c hc => ?_⟩
  · induction (mem_ancestorsOf h).1 hd with
    | single hcp => exact (hedge hcp).2.2
    | tail hcm hmp ih => exact (hedge hmp).2.2.trans (ih ((mem_ancestorsOf h).2 hcm))
  · exact (hedge (edge_eq hnames hparents ▸ hp)).2
  · refine getD_eq_default _ _ ?_
    simpa [(components_ofDecls h).1] using hc

end ClassGraph

/-- For every class graph that is built from declarations: every search for a root ends within as many steps as there are classes,
so that more steps give the same components; classes have one component exactly if parent edges, taken in either direction,
connect them; the numbers of the components are those below the number of components; and the components are numbered in the order
in which their first classes are declared. -/
theorem components_connected (decls : List ClassDecl) (g : ClassGraph) (h : ClassGraph.ofDecls decls = .ok g) :
    (∀ steps, g.size ≤ steps → ClassGraph.componentsOf steps g.parents = (g.components, g.componentCount)) ∧
      (∀ a b : ClassId, a.index < g.size → b.index < g.size →
        (g.componentOf a = g.componentOf b ↔ EqvGen (ClassDecl.Inherits decls) a b)) ∧
      (∀ k, (∃ c : ClassId, c.index < g.size ∧ g.componentOf c = k) ↔ k < g.componentCount) ∧
      ∀ a b, g.Leads a → g.Leads b → (a.index < b.index ↔ g.componentOf a < g.componentOf b) := by
  obtain ⟨hcomponents, hcount⟩ := components_ofDecls h
  refine ⟨fun steps hsteps => ?_, fun a b ha hb => componentOf_eq_iff h ha hb, fun k => ⟨?_, fun hk => ?_⟩, fun a b ha hb => ?_⟩
  · obtain ⟨-, hparents, found, -, hg⟩ := ofDecls_ok h
    rw [componentsOf_steps (edge_lt hparents) ((size_ofDecls h).le.trans hsteps), hg]
    rfl
  · rintro ⟨c, hc, rfl⟩
    exact componentOf_lt h hc
  · rw [hcount] at hk
    have hleads := (leads_iff h (c := ⟨_⟩)).mpr (List.getElem_mem hk)
    refine ⟨_, hleads.1, ?_⟩
    rw [hleads.componentOf h]
    exact (List.nodup_range.filter _).idxOf_getElem _ hk
  · rw [ha.componentOf h, hb.componentOf h]
    exact (idxOf_rootsBelow_lt_iff ((leads_iff h).mp ha) ((leads_iff h).mp hb)).symm

/-- Rocks are no relatives of animals and pets, which are joined by dogs. -/
theorem components_connected_kennel : ∃ g, ClassGraph.ofDecls Kennel.classes = .ok g ∧ g.componentCount = 2 ∧
    (∀ steps, g.size ≤ steps → ClassGraph.componentsOf steps g.parents = (g.components, g.componentCount)) ∧
    (∀ a b : ClassId, a.index < g.size → b.index < g.size →
      (g.componentOf a = g.componentOf b ↔ EqvGen (ClassDecl.Inherits Kennel.classes) a b)) ∧
    (∀ k, (∃ c : ClassId, c.index < g.size ∧ g.componentOf c = k) ↔ k < g.componentCount) ∧
    ∀ a b, g.Leads a → g.Leads b → (a.index < b.index ↔ g.componentOf a < g.componentOf b) := by
  obtain ⟨g, hg, hcount⟩ := exists_ok_of_any (x := ofDecls Kennel.classes) (p := fun g => g.componentCount == 2)
    (by decide +kernel)
  exact ⟨g, hg, beq_iff_eq.mp hcount, components_connected _ g hg⟩

end StoreCheck
