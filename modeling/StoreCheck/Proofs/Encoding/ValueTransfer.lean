import StoreCheck.Proofs.Encoding.SortedSession
import StoreCheck.Proofs.Logic.Transfer

/-!
# What a value holds of does not change

A value, a slot and a context refer to predicates and parameters that are there where they were made. Predicates and contexts
that are added later, and the parameters of deeper loops, do not change what they hold of: `ObjValue.holds_transfer` says so for
values, and the lemmas before it for what values are made of.
-/

namespace StoreCheck

open List Structure

variable {n : Nat} {k : SortId → SortId} {ps : List SortId} {sort : SortId}

variable {M : Structure} {L : Layout} {symbols : Symbols} {cs cs' : Contexts}

theorem take_of_extend {α : Type} {as as' : List α} (h : as <+: as') (hn : n ≤ as.length) :
    as'.take n = as.take n := by
  obtain ⟨more, rfl⟩ := h
  exact take_append_of_le_length hn

theorem getD_of_extend {α : Type} {as as' : List α} (h : as <+: as') (hn : n < as.length) (d d' : α) :
    as'.getD n d' = as.getD n d := by
  obtain ⟨more, rfl⟩ := h
  rw [getD_eq_getElem?_getD, getD_eq_getElem?_getD, getElem?_append_left hn, getElem?_eq_getElem hn]
  rfl

theorem Structure.AgreeBelow.declared {P Q : M.Interpretation} (h : AgreeBelow symbols.predicates.length P Q)
    {p : PredId} {sorts : List SortId}
    (hp : symbols.Declares k p sorts) : Q p = P p := by
  obtain ⟨symbol, hsymbol, -⟩ := hp
  exact h p (List.getElem?_eq_some_iff.1 hsymbol).1

/-! ## Slots -/

theorem Slot.at_transfer (hPQ : AgreeBelow symbols.predicates.length P Q) {slot : Slot} (hslot : slot.Sorted k symbols ps sort)
    {as as' : List M.Elem} (hps : ps.length ≤ as.length) (has : as <+: as') (e : M.Elem) :
    slot.At (M.withPreds Q) as' e ↔ slot.At (M.withPreds P) as e := by
  have hdepth := Nat.le_trans hslot.depth hps
  show Q slot.pred (as'.take slot.depth ++ [e]) ↔ P slot.pred (as.take slot.depth ++ [e])
  rw [hPQ.declared hslot.declared, take_of_extend has hdepth]

/-! ## Contexts -/

namespace Contexts

variable {id : ContextId}

theorem Sorted.parent_lt (h : cs.Sorted k symbols) (hp : (cs.get id).parent = some parent) :
    parent.index < id.index := ((h.get id).parent parent hp).1

/-- The way up from a context does not depend on contexts that are added later. -/
theorem pathUp_extend (h : cs.Sorted k symbols) (htable : cs.table <+: cs'.table) : ∀ (m n : Nat) (id : ContextId),
    id.index < cs.table.length → id.index ≤ m → id.index ≤ n → cs'.pathUp n id = cs.pathUp m id
  | m, n, id, hid, _, _ => by
    have hget := get_extend htable hid
    cases hp : (cs.get id).parent with
    | none =>
      have hp' : (cs'.get id).parent = none := by rw [hget, hp]
      cases m <;> cases n <;> simp [pathUp, hp, hp']
    | some parent =>
      have hlt := h.parent_lt hp
      have hp' : (cs'.get id).parent = some parent := by rw [hget, hp]
      cases m with
      | zero => omega
      | succ m =>
        cases n with
        | zero => omega
        | succ n =>
          rw [pathUp, pathUp, hp, hp']
          exact congrArg (id :: ·) (pathUp_extend h htable m n parent (by omega) (by omega) (by omega))

theorem path_extend (h : cs.Sorted k symbols) (htable : cs.table <+: cs'.table)
    (hid : id.index < cs.table.length) : cs'.path id = cs.path id :=
  pathUp_extend h htable _ _ id hid (Nat.le_of_lt hid) (Nat.le_trans (Nat.le_of_lt hid) htable.length_le)

theorem Sorted.index_le_of_mem_pathUp (h : cs.Sorted k symbols) : ∀ (n : Nat) (id : ContextId), ∀ a ∈ cs.pathUp n id,
    a.index ≤ id.index :=
  forall_mem_pathUp (fun _ => Nat.le_refl _) fun _ _ _ hp ha => Nat.le_trans ha (Nat.le_of_lt (h.parent_lt hp))

theorem level_extend (htable : cs.table <+: cs'.table) (hid : id.index < cs.table.length) : cs'.level id = cs.level id := by
  unfold level
  rw [get_extend htable hid]

theorem Sorted.beforeStep_transfer (h : cs.Sorted k symbols) (htable : cs.table <+: cs'.table)
    (hPQ : AgreeBelow symbols.predicates.length P Q) (hid : id.index < cs.table.length)
    {as as' bs bs' : List M.Elem} (hlevel : cs.level id ≤ as.length) (has : as <+: as') (hlevel' : cs.level id ≤ bs.length)
    (hbs : bs <+: bs') (d d' : M.Elem) {deeper deeper' : Prop} (hdeeper : deeper' ↔ deeper) :
    cs'.BeforeStep (M.withPreds Q) d' as' bs' deeper' id ↔ cs.BeforeStep (M.withPreds P) d as bs deeper id := by
  unfold BeforeStep
  simp only [get_extend htable hid, level_extend htable hid]
  have hlast : 0 < cs.level id → as'.getD (cs.level id - 1) d' = as.getD (cs.level id - 1) d ∧
      bs'.getD (cs.level id - 1) d' = bs.getD (cs.level id - 1) d :=
    fun hpos => ⟨getD_of_extend has (by omega) d d', getD_of_extend hbs (by omega) d d'⟩
  cases hkind : (cs.get id).kind with
  | root => exact hdeeper
  | flat =>
    obtain ⟨hx, hy⟩ := hlast ((h.get id).flat hkind)
    simp only [hx, hy, hdeeper]
  | chained order =>
    obtain ⟨outer, sort, hsorts, horder⟩ := (h.get id).order order hkind
    have hpos : 0 < cs.level id := by
      rw [h.level_eq, hsorts]
      simp
    obtain ⟨hx, hy⟩ := hlast hpos
    have htake : as'.take (cs.level id - 1) = as.take (cs.level id - 1) := take_of_extend has (by omega)
    have hbefore : Q order.before = P order.before := hPQ.declared horder.before
    simp only [hx, hy, hdeeper, htake, hbefore]

/-- The order of positions does not depend on what is added later. -/
theorem Sorted.before_transfer (h : cs.Sorted k symbols) (htable : cs.table <+: cs'.table)
    (hPQ : AgreeBelow symbols.predicates.length P Q) (hid : id.index < cs.table.length)
    {as as' bs bs' : List M.Elem} (hlevel : cs.level id ≤ as.length) (has : as <+: as') (hlevel' : cs.level id ≤ bs.length)
    (hbs : bs <+: bs') (d d' : M.Elem) :
    cs'.Before (M.withPreds Q) d' id id as' bs' False ↔ cs.Before (M.withPreds P) d id id as bs False := by
  unfold Before
  rw [commonAncestor_self, commonAncestor_self, path_extend h htable hid]
  have hpath : ∀ a ∈ cs.path id, a.index < cs.table.length ∧ cs.level a ≤ cs.level id := by
    intro a ha
    have hindex := h.index_le_of_mem_pathUp _ id a ha
    have hparams := (h.pathUp _ id a ha).length_le
    rw [← h.level_eq, ← h.level_eq] at hparams
    exact ⟨by omega, hparams⟩
  have hfold : ∀ (path : List ContextId) (f f' : Prop), (∀ a ∈ path, a.index < cs.table.length ∧ cs.level a ≤ cs.level id) →
      (f' ↔ f) → (path.foldl (cs'.BeforeStep (M.withPreds Q) d' as' bs') f' ↔
        path.foldl (cs.BeforeStep (M.withPreds P) d as bs) f) := by
    intro path
    induction path with
    | nil => exact fun f f' _ hf => hf
    | cons a rest ih =>
      intro f f' hall hf
      obtain ⟨hindex, hle⟩ := hall a (by simp)
      refine ih _ _ (fun b hb => hall b (by simp [hb])) ?_
      exact h.beforeStep_transfer htable hPQ hindex (by omega) has (by omega) hbs d d' hf
  exact hfold _ _ _ hpath Iff.rfl

end Contexts

/-! ## Values -/

namespace ObjValue

/-- What is added later does not change what a value holds of. -/
theorem holds_transfer (hcs : cs.Sorted k symbols) (htable : cs.table <+: cs'.table)
    (hPQ : AgreeBelow symbols.predicates.length P Q) (hL : L.Declared k symbols) {v : ObjValue} {ps : List SortId} {sort : SortId}
    (hv : v.Sorted k L symbols cs .empty ps sort) {as as' : List M.Elem} (hps : ps.length ≤ as.length) (has : as <+: as')
    (ρ ρ' : M.Env) (e : M.Elem) :
    v.Holds L (M.withPreds Q) cs' ρ' as' e ↔ v.Holds L (M.withPreds P) cs ρ as e := by
  induction v generalizing ps sort as as' e with
  | empty => rw [Holds, Holds]
  | ofClass c slot =>
    obtain ⟨hc, -, hslot⟩ := hv
    rw [Holds, Holds, Slot.at_transfer hPQ hslot hps has]
    refine and_congr_right fun _ => ?_
    exact iff_of_eq (congrFun (hPQ.declared (hL.classes c hc)) _)
  | pred p depth =>
    have hslot : (Slot.mk p depth).Sorted k symbols ps sort := hv
    exact Slot.at_transfer hPQ hslot hps has e
  | param level =>
    obtain ⟨hpos, a, ha, -⟩ := hv
    have hlt := (List.getElem?_eq_some_iff.1 ha).1
    rw [Holds, Holds, getD_of_extend has (by omega) (ρ "") ( ρ' "")]
  | bound t =>
    rw [Holds, Holds, Term.eval_transfer Q (agreeOn_empty ρ ρ') hv, Term.eval_transfer P (agreeOn_empty ρ ρ) hv]
  | union parts ih => exact holdsSome_congr fun v hmem => ih v hmem (AllSorted.of_mem hv hmem) hps has e
  | deref source relation flipped slot ih =>
    obtain ⟨ts, hts, hslot, -, hsource⟩ := hv
    rw [Holds, Holds]
    simp only [hts, Option.some.injEq, exists_eq_left']
    refine exists_congr fun t => and_congr_right fun _ => ?_
    rw [Slot.at_transfer hPQ hslot hps has]
    exact and_congr_right fun _ => and_congr_right fun _ => ih hsource hps has _
  | merge depth indicators values ih =>
    refine holdsTaken_congr (fun p hp => ?_) fun v hmem => ih v hmem (hv.2.of_mem hmem) hps has e
    have htakes := hv.1 p hp
    exact iff_of_eq (congr (hPQ.declared htakes.declared) (take_of_extend has (Nat.le_trans htakes.depth hps)))
  | boundary context before inside ihb ihi =>
    obtain ⟨⟨order, hkind⟩, hparams, hbefore, hinside⟩ := hv
    have hid := Contexts.lt_of_kind hkind
    have hlevel : cs.level context ≤ as.length := by
      rw [hcs.level_eq]
      exact Nat.le_trans hparams.length_le hps
    obtain ⟨outer, last, hsorts, horder⟩ := (hcs.get context).order order hkind
    have hpos : 0 < (cs.get context).level := by
      rw [(hcs.get context).level, hsorts]
      simp
    have hlevel' : (cs.get context).level ≤ as.length := hlevel
    have htake : as'.take ((cs.get context).level - 1) = as.take ((cs.get context).level - 1) := take_of_extend has (by omega)
    have hlength : ∀ q : M.Elem, (as.take ((cs.get context).level - 1) ++ [q]).length = (cs.get context).level := by
      intro q
      simp only [length_append, length_take, length_singleton]
      omega
    have hget : as'.getD ((cs.get context).level - 1) ( ρ' "") = as.getD ((cs.get context).level - 1) (ρ "") :=
      getD_of_extend has (by omega) _ _
    have hnext : Q order.justBefore = P order.justBefore := hPQ.declared horder.justBefore
    rw [Holds, Holds]
    simp only [Contexts.get_extend htable hid, hkind, ContextKind.chained.injEq, exists_eq_left', htake, hget, hnext]
    refine or_congr (and_congr (not_congr (exists_congr fun p => and_congr_right fun _ => ?_)) ?_)
      (exists_congr fun q => and_congr_right fun _ => and_congr_right fun _ => ?_)
    · exact hcs.before_transfer htable hPQ hid (Nat.le_of_eq (hlength p).symm) (prefix_refl _) hlevel has _ _
    · exact ihb hbefore hps has e
    · refine ihi hinside (Nat.le_of_eq ?_) (prefix_refl _) e
      rw [hlength q, (hcs.get context).level]

end ObjValue

end StoreCheck
