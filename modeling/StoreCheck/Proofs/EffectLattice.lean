import Mathlib.Data.List.Perm.Basic
import StoreCheck.Proofs.Effects

/-!
# Effect maps as a semilattice

Maps that are built by adding effects and merging maps are canonical: they hold one entry for each domain that has effects, in
order, and the effects of an entry in one order. Such a map is known by its effects (`Canonical.ext`), so laws of merging and
normalizing are laws of the effects that they keep.
-/

namespace StoreCheck

open List EffectMap EffectSet

variable {d : Domain} {e : Effect}

/-! ## Canonical sets -/

namespace EffectSet

/-- The effects stand in the order of all effects, each once. -/
def Canonical (s : EffectSet) : Prop := Effect.all.filter s.contains = s

theorem canonical_filter (test : Effect → Bool) : Canonical (Effect.all.filter test) := by
  refine filter_congr fun e he => ?_
  rw [Bool.eq_iff_iff, contains_iff_mem, mem_filter]
  exact and_iff_right he

variable {s t : EffectSet}

theorem canonical_union (s t : EffectSet) : (union s t).Canonical := canonical_filter _

theorem Canonical.normalize (h : s.Canonical) : s.normalize.Canonical := by
  unfold EffectSet.normalize
  generalize (fun e : Effect => !(e.isLocal && s.contains ⟨e.operation, false⟩)) = test
  rw [← h, filter_filter]
  exact canonical_filter _

theorem Canonical.ext (hs : s.Canonical) (ht : t.Canonical) (h : ∀ e, e ∈ s ↔ e ∈ t) : s = t := by
  rw [← hs, ← ht]
  refine filter_congr fun e _ => ?_
  rw [Bool.eq_iff_iff, contains_iff_mem, contains_iff_mem]
  exact h e

theorem mem_normalize (e : Effect) : e ∈ s.normalize ↔ e ∈ s ∧ ¬ (e.isLocal = true ∧ ⟨e.operation, false⟩ ∈ s) := by
  obtain ⟨operation, isLocal⟩ := e
  cases isLocal <;> simp [EffectSet.normalize]

end EffectSet

namespace EffectMap

/-- The map was built by adding effects and merging maps. -/
inductive Built : EffectMap → Prop where
  | empty : Built .empty
  | add {m : EffectMap} (h : Built m) (d : Domain) (operation : Operation) (isLocal : Bool) : Built (m.add d operation isLocal)
  | merge {m other : EffectMap} (h : Built m) (hother : Built other) : Built (m.merge other)

/-- There is one entry for each domain that has effects, in order, with a canonical set. -/
structure Canonical (m : EffectMap) : Prop where
  ordered : m.Ordered
  sets : ∀ p ∈ m.entries, p.2 ≠ [] ∧ EffectSet.Canonical p.2

variable {m other : EffectMap}

/-! ## Effects of a map -/

theorem Ordered.notes_iff (h : m.Ordered) (hs : (d, s) ∈ m.entries) : m.Notes d e ↔ e ∈ s := by
  refine ⟨?_, fun he => ⟨s, hs, he⟩⟩
  rintro ⟨s', hs', he⟩
  have hsame : some s' = some s := (lookup_of_mem h hs').symm.trans (lookup_of_mem h hs)
  exact Option.some.inj hsame ▸ he

theorem Ordered.contains_iff (h : m.Ordered) (operation : Operation) (isLocal : Bool) :
    m.contains d operation isLocal = true ↔ m.Notes d ⟨operation, isLocal⟩ := by
  refine ⟨fun hcontains => ?_, h.contains⟩
  unfold EffectMap.contains effectsOn at hcontains
  cases hlookup : List.lookup d m.entries with
  | none => simp [hlookup] at hcontains
  | some s =>
    rw [hlookup] at hcontains
    obtain ⟨before, after, hentries, -⟩ := lookup_eq_some_iff.1 hlookup
    exact ⟨s, by simp [hentries], contains_iff_mem.1 hcontains⟩

theorem notes_merge : (m.merge other).Notes d e ↔ m.Notes d e ∨ other.Notes d e := by
  unfold merge Notes
  generalize m.entries = entries
  induction other.entries generalizing entries with
  | nil => simp [NotedIn]
  | cons p rest ih =>
    rw [foldl_cons, ih, notedIn_addTo, notedIn_cons]
    tauto

theorem Ordered.notes_normalize (h : m.Ordered) :
    m.normalize.Notes d e ↔ m.Notes d e ∧ ¬ (e.isLocal = true ∧ m.Notes d ⟨e.operation, false⟩) := by
  rw [EffectMap.notes_normalize]
  constructor
  · rintro ⟨s, hs, he⟩
    rw [h.notes_iff hs, h.notes_iff hs]
    exact (EffectSet.mem_normalize e).1 he
  · rintro ⟨⟨s, hs, he⟩, hshadow⟩
    rw [h.notes_iff hs] at hshadow
    exact ⟨s, hs, (EffectSet.mem_normalize e).2 ⟨he, hshadow⟩⟩

/-! ## Canonical maps -/

/-- A canonical map is known by its effects. -/
theorem Canonical.ext (hm : m.Canonical) (hother : other.Canonical) (h : ∀ d e, m.Notes d e ↔ other.Notes d e) : m = other := by
  have hsub : ∀ {m other : EffectMap}, m.Canonical → other.Canonical → (∀ d e, m.Notes d e ↔ other.Notes d e) →
      ∀ p ∈ m.entries, p ∈ other.entries := by
    rintro m other hm hother h ⟨d, s⟩ hs
    obtain ⟨e, he⟩ := exists_mem_of_ne_nil s (hm.sets _ hs).1
    obtain ⟨s', hs', -⟩ := (h d e).1 ⟨s, hs, he⟩
    have hsame : s = s' := (hm.sets _ hs).2.ext (hother.sets _ hs').2 fun e => by
      rw [← hm.ordered.notes_iff hs, h, hother.ordered.notes_iff hs']
    exact hsame ▸ hs'
  have hnodup : ∀ {m : EffectMap}, m.Canonical → m.entries.Nodup := fun hm => hm.ordered.imp fun hbefore heq => by
    rw [heq, Domain.before_irrefl] at hbefore
    cases hbefore
  have hperm : m.entries.Perm other.entries := (perm_ext_iff_of_nodup (hnodup hm) (hnodup hother)).2 fun p =>
    ⟨hsub hm hother h p, hsub hother hm (fun d e => (h d e).symm) p⟩
  have hentries : m.entries = other.entries := hperm.eq_of_pairwise (fun p q _ _ hpq hqp => by
    have hself := Domain.before_trans hpq hqp
    rw [Domain.before_irrefl] at hself
    cases hself) hm.ordered hother.ordered
  cases m
  cases other
  exact congrArg EffectMap.mk hentries

theorem Canonical.addTo (hm : m.Canonical) (d : Domain) (hs : s ≠ []) : Canonical ⟨addTo d s m.entries⟩ where
  ordered := pairwise_addTo d s hm.ordered
  sets := fun p hp => by
    rcases mem_addTo hp with hp | ⟨s', rfl⟩
    · exact hm.sets p hp
    · obtain ⟨e, he⟩ := exists_mem_of_ne_nil s hs
      exact ⟨ne_nil_of_mem ((mem_union s' s e).2 (.inr he)), canonical_union s' s⟩

theorem Canonical.merge (hm : m.Canonical) (hother : other.Canonical) : (m.merge other).Canonical := by
  have hfold : ∀ (new : List (Domain × EffectSet)) (m : EffectMap), m.Canonical → (∀ p ∈ new, p.2 ≠ []) →
      Canonical ⟨new.foldl (fun entries p => EffectMap.addTo p.1 p.2 entries) m.entries⟩ := by
    intro new
    induction new with
    | nil => exact fun m hm _ => hm
    | cons p rest ih =>
      intro m hm hnew
      exact ih _ (hm.addTo p.1 (hnew p mem_cons_self)) fun q hq => hnew q (mem_cons_of_mem _ hq)
  exact hfold other.entries m hm fun p hp => (hother.sets p hp).1

theorem Canonical.normalize (hm : m.Canonical) : m.normalize.Canonical where
  ordered := hm.ordered.normalize
  sets := fun p hp => by
    obtain ⟨q, hq, rfl⟩ := mem_map.1 hp
    obtain ⟨e, he⟩ := exists_mem_of_ne_nil _ (hm.sets q hq).1
    obtain ⟨e', he', -⟩ := exists_mem_normalize he
    exact ⟨ne_nil_of_mem he', (hm.sets q hq).2.normalize⟩

theorem Built.canonical (h : m.Built) : m.Canonical := by
  induction h with
  | empty => exact ⟨List.Pairwise.nil, by simp [EffectMap.empty]⟩
  | add h d operation isLocal ih => exact ih.addTo d (by simp)
  | merge h hother ih ihother => exact ih.merge ihother

end EffectMap

/-- Merging effect maps is associative, commutative and idempotent. Normalizing is idempotent, keeps the domains that are read or
written and the non-local effects, and drops a local effect exactly if the map holds its non-local twin; it makes no difference
whether maps are normalized before they are merged. -/
theorem effect_maps_semilattice {a b c : EffectMap} (ha : a.Built) (hb : b.Built) (hc : c.Built) :
    (a.merge b).merge c = a.merge (b.merge c) ∧ a.merge b = b.merge a ∧ a.merge a = a ∧
    a.normalize.normalize = a.normalize ∧ a.normalize.reads = a.reads ∧ a.normalize.writes = a.writes ∧
    (∀ d operation, a.normalize.contains d operation false = a.contains d operation false ∧
      a.normalize.contains d operation true = (a.contains d operation true && !a.contains d operation false) ∧
      ¬ (a.normalize.contains d operation true = true ∧ a.normalize.contains d operation false = true)) ∧
    (a.normalize.merge b.normalize).normalize = (a.merge b).normalize := by
  have ha := ha.canonical
  have hb := hb.canonical
  have hc := hc.canonical
  have hab := ha.merge hb
  have hnormal := ha.normalize.merge hb.normalize
  refine ⟨?_, ?_, ?_, ?_, domainsWith_normalize a _, domainsWith_normalize a _, fun d operation => ?_, ?_⟩
  · refine (hab.merge hc).ext (ha.merge (hb.merge hc)) fun d e => ?_
    simp only [notes_merge, or_assoc]
  · refine hab.ext (hb.merge ha) fun d e => ?_
    rw [notes_merge, notes_merge, or_comm]
  · refine (ha.merge ha).ext ha fun d e => ?_
    rw [notes_merge, or_self]
  · refine ha.normalize.normalize.ext ha.normalize fun d e => ?_
    rw [ha.normalize.ordered.notes_normalize, ha.ordered.notes_normalize, ha.ordered.notes_normalize]
    tauto
  · have hlocal : a.normalize.contains d operation true = (a.contains d operation true && !a.contains d operation false) := by
      rw [Bool.eq_iff_iff, Bool.and_eq_true, Bool.not_eq_true', ← Bool.not_eq_true, ha.normalize.ordered.contains_iff,
        ha.ordered.contains_iff, ha.ordered.contains_iff, ha.ordered.notes_normalize]
      simp
    have hglobal : a.normalize.contains d operation false = a.contains d operation false := by
      rw [Bool.eq_iff_iff, ha.normalize.ordered.contains_iff, ha.ordered.contains_iff, notes_normalize_nonlocal]
    refine ⟨hglobal, hlocal, ?_⟩
    rw [hglobal, hlocal]
    simp
  · refine hnormal.normalize.ext hab.normalize fun d e => ?_
    simp only [hnormal.ordered.notes_normalize, hab.ordered.notes_normalize, notes_merge,
      ha.ordered.notes_normalize, hb.ordered.notes_normalize]
    tauto

/-- A class whose objects are created and then read, one that is read everywhere, and both, deleted. -/
theorem effect_maps_semilattice_twins :
    let fresh := (EffectMap.empty.add (.ofClass ⟨0⟩) .create true).add (.ofClass ⟨0⟩) .read true
    let known := EffectMap.empty.add (.ofClass ⟨0⟩) .read false
    let gone := (fresh.merge known).add (.ofRelation ⟨0⟩) .delete false
    fresh.Built ∧ known.Built ∧ gone.Built ∧ (fresh.merge known).merge gone = fresh.merge (known.merge gone) ∧
      (gone.normalize.contains (.ofClass ⟨0⟩) .read true = false ∧ gone.normalize.contains (.ofClass ⟨0⟩) .create true = true) := by
  have hfresh := (Built.empty.add (.ofClass ⟨0⟩) .create true).add (.ofClass ⟨0⟩) .read true
  have hknown := Built.empty.add (.ofClass ⟨0⟩) .read false
  have hgone := (hfresh.merge hknown).add (.ofRelation ⟨0⟩) .delete false
  exact ⟨hfresh, hknown, hgone, (effect_maps_semilattice hfresh hknown hgone).1, by decide⟩

end StoreCheck
