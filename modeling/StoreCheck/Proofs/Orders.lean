import Mathlib.Data.Set.Finite.Basic
import Mathlib.Logic.Relation
import Mathlib.Order.RelClasses
import Mathlib.Order.WellFounded
import StoreCheck.Proofs.Encoding.Carrying

/-!
# The order of iterations

The order axioms of a chained loop say that its iterations are a finite chain, no less and no more, wherever there are finitely
many of them (`order_axioms_iff_chain`).
-/

namespace StoreCheck

variable {sort : SortId}

variable {M : Structure}

/-! ## Tables of contexts -/

namespace Contexts

/-- The table is made by adding contexts to the root one by one; the symbols may grow in between. -/
inductive Built : Contexts → Symbols → Prop where
  | initial (symbols : Symbols) : Built .initial symbols
  | add {cs : Contexts} {symbols : Symbols} (h : Built cs symbols) {parent : ContextId} (hparent : parent.index < cs.table.length)
      (sort : SortId) (order : LoopKind) (hint : String) :
      Built (cs.add symbols parent sort order hint).2.1 (cs.add symbols parent sort order hint).2.2
  | grow {cs : Contexts} {symbols symbols' : Symbols} (h : Built cs symbols) (hg : symbols.Grows symbols') : Built cs symbols'

/-- The context is that of a loop in the parent. -/
structure IsLoopIn (cs : Contexts) (id parent : ContextId) : Prop where
  up : (cs.get id).parent = some parent
  lt : parent.index < id.index
  level : cs.level id = cs.level parent + 1
  sorts : ∃ sort, (cs.get id).paramSorts = (cs.get parent).paramSorts ++ [sort]
  live : ∃ live, (cs.get id).live = some live
  kind : (cs.get id).kind ≠ .root

variable {cs : Contexts} {symbols : Symbols} {id parent : ContextId}

theorem Built.sorted (h : cs.Built symbols) : cs.Sorted (·) symbols := by
  induction h with
  | initial symbols => exact sorted_initial symbols
  | add _ hparent sort order hint ih => exact ih.add hparent sort order hint
  | grow _ hg ih => exact ih.mono hg

theorem IsLoopIn.extend {cs' : Contexts} (h : cs.IsLoopIn id parent) (htable : cs.table <+: cs'.table)
    (hid : id.index < cs.table.length) : cs'.IsLoopIn id parent := by
  have hget := get_extend htable hid
  have hparent := get_extend htable (h.lt.trans hid)
  obtain ⟨hup, hlt, hlevel, hsorts, hlive, hkind⟩ := h
  constructor <;> simp_all [Contexts.level]

/-- All contexts but the root are those of loops. -/
theorem Built.cases (h : cs.Built symbols) (hid : id.index < cs.table.length) :
    id = rootId ∧ cs.get id = .root ∨ ∃ parent, cs.IsLoopIn id parent := by
  induction h with
  | initial symbols =>
    obtain ⟨i⟩ := id
    obtain rfl : i = 0 := Nat.lt_one_iff.mp hid
    exact .inl ⟨rfl, rfl⟩
  | @add cs symbols h parent hparent sort order hint ih =>
    have htable : cs.table <+: (cs.add symbols parent sort order hint).2.1.table := List.prefix_append _ _
    have hlast : id.index < cs.table.length ∨ id.index = cs.table.length := by
      simp only [Contexts.add, List.length_append, List.length_singleton] at hid
      omega
    rcases hlast with hlt | hlast
    · rw [get_extend htable hlt]
      exact (ih hlt).imp_right fun hloop => hloop.imp fun _ hp => hp.extend htable hlt
    · obtain ⟨i⟩ := id
      obtain rfl : i = cs.table.length := hlast
      have hget := get_extend htable hparent
      refine .inr ⟨parent, ?_⟩
      cases order <;> constructor <;> simp_all [level, get, Contexts.add]
  | grow _ _ ih => exact ih hid

/-- A chained context is that of a loop. -/
theorem Built.exists_isLoopIn (h : cs.Built symbols) {order : ChainOrder} (hkind : (cs.get id).kind = .chained order) :
    ∃ parent, cs.IsLoopIn id parent := by
  refine (h.cases (lt_of_kind hkind)).resolve_left ?_
  rintro ⟨-, hroot⟩
  rw [hroot] at hkind
  cases hkind

end Contexts

/-! ## Chains of iterations -/

/-- The live objects of a sort are a chain: `before` relates no others and is a strict total order on them, `first` and `last` hold
of the least and of the greatest one, and `justBefore` relates those that have none between them. -/
structure ChainOrder.IsChain (order : ChainOrder) (M : Structure) (sort : SortId) (outer : List M.Elem)
    (live : M.Elem → Prop) : Prop where
  ordered : ∀ x, M.sort x = sort → ∀ y, M.sort y = sort → M.pred order.before (outer ++ [x, y]) → live x ∧ live y
  total : IsStrictTotalOrder {x // M.sort x = sort ∧ live x} fun x y => M.pred order.before (outer ++ [x.1, y.1])
  first : ∀ x, M.sort x = sort → (M.pred order.first (outer ++ [x]) ↔
    live x ∧ ∀ y, M.sort y = sort → live y → y ≠ x → M.pred order.before (outer ++ [x, y]))
  last : ∀ x, M.sort x = sort → (M.pred order.last (outer ++ [x]) ↔
    live x ∧ ∀ y, M.sort y = sort → live y → y ≠ x → M.pred order.before (outer ++ [y, x]))
  next : ∀ x, M.sort x = sort → ∀ y, M.sort y = sort → (M.pred order.justBefore (outer ++ [x, y]) ↔
    M.pred order.before (outer ++ [x, y]) ∧
      ∀ z, M.sort z = sort → ¬ (M.pred order.before (outer ++ [x, z]) ∧ M.pred order.before (outer ++ [z, y])))

namespace ChainOrder

variable {order : ChainOrder}

theorem Orders.isChain (h : order.Orders M sort outer live) : order.IsChain M sort outer live := by
  obtain ⟨hordered, hirrefl, htrans, htotal, hasymm, hnext, hfirst, hlast, -, -, -⟩ := h
  refine ⟨hordered, { trichotomous := ?_, irrefl := ?_, trans := ?_ }, ?_, ?_, ?_⟩ <;> grind

/-- One of finitely many objects with a property has none before it. -/
theorem exists_end {α : Type} [Finite α] (R : α → α → Prop) [IsStrictOrder α R] (P : α → Prop) (h : ∃ x, P x) :
    ∃ x, P x ∧ ∀ y, P y → ¬ R y x :=
  (Finite.wellFounded_of_trans_of_irrefl R).has_min {x | P x} h

/-- A finite chain has a first and a last element, predecessors and successors. -/
theorem IsChain.orders (h : order.IsChain M sort outer live) (hfinite : {x | M.sort x = sort ∧ live x}.Finite) :
    order.Orders M sort outer live := by
  obtain ⟨hordered, hstrict, hfirst, hlast, hnext⟩ := h
  have : Finite {x // M.sort x = sort ∧ live x} := hfinite.to_subtype
  have hirrefl : ∀ x, M.sort x = sort → ¬ M.pred order.before (outer ++ [x, x]) := fun x hx hxx =>
    hstrict.irrefl ⟨x, hx, (hordered x hx x hx hxx).1⟩ hxx
  have htrans : ∀ x, M.sort x = sort → ∀ y, M.sort y = sort → ∀ z, M.sort z = sort → M.pred order.before (outer ++ [x, y]) →
      M.pred order.before (outer ++ [y, z]) → M.pred order.before (outer ++ [x, z]) := fun x hx y hy z hz hxy hyz =>
    hstrict.trans ⟨x, hx, (hordered x hx y hy hxy).1⟩ ⟨y, hy, (hordered x hx y hy hxy).2⟩ ⟨z, hz, (hordered y hy z hz hyz).2⟩ hxy hyz
  have htotal : ∀ x, M.sort x = sort → ∀ y, M.sort y = sort → live x → live y → x ≠ y →
      M.pred order.before (outer ++ [x, y]) ∨ M.pred order.before (outer ++ [y, x]) := by
    intro x hx y hy hlx hly hne
    by_contra hnot
    rw [not_or] at hnot
    exact hne (congrArg Subtype.val (hstrict.trichotomous ⟨x, hx, hlx⟩ ⟨y, hy, hly⟩ hnot.1 hnot.2))
  have hleast := exists_end fun x y : {x // M.sort x = sort ∧ live x} => M.pred order.before (outer ++ [x.1, y.1])
  have hgreatest := exists_end (Function.swap fun x y : {x // M.sort x = sort ∧ live x} => M.pred order.before (outer ++ [x.1, y.1]))
  have hfirst' : ∀ x, M.sort x = sort → (M.pred order.first (outer ++ [x]) ↔
      live x ∧ ¬ ∃ y, M.sort y = sort ∧ M.pred order.before (outer ++ [y, x])) := by grind
  have hlast' : ∀ x, M.sort x = sort → (M.pred order.last (outer ++ [x]) ↔
      live x ∧ ¬ ∃ y, M.sort y = sort ∧ M.pred order.before (outer ++ [x, y])) := by grind
  refine ⟨hordered, hirrefl, htrans, htotal, by grind, by grind, hfirst', hlast', ?_, ?_, ?_⟩
  · intro x hx hlx
    obtain ⟨y, -, hy⟩ := hleast (fun _ => True) ⟨⟨x, hx, hlx⟩, trivial⟩
    obtain ⟨z, -, hz⟩ := hgreatest (fun _ => True) ⟨⟨x, hx, hlx⟩, trivial⟩
    refine ⟨⟨y, y.2.1, (hfirst' y y.2.1).mpr ⟨y.2.2, ?_⟩⟩, z, z.2.1, (hlast' z z.2.1).mpr ⟨z.2.2, ?_⟩⟩
    · rintro ⟨w, hw, hwy⟩
      exact hy ⟨w, hw, (hordered w hw y y.2.1 hwy).1⟩ trivial hwy
    · rintro ⟨w, hw, hzw⟩
      exact hz ⟨w, hw, (hordered z z.2.1 w hw hzw).2⟩ trivial hzw
  · intro x hx hlx hnot
    obtain ⟨y, hy, hyx⟩ := not_not.mp fun hnone => hnot ((hfirst' x hx).mpr ⟨hlx, hnone⟩)
    obtain ⟨z, hzx, hz⟩ := hgreatest (fun y => M.pred order.before (outer ++ [y.1, x])) ⟨⟨y, hy, (hordered y hy x hx hyx).1⟩, hyx⟩
    exact ⟨z, z.2.1, (hnext z z.2.1 x hx).mpr ⟨hzx, fun w hw hwz => hz ⟨w, hw, (hordered z z.2.1 w hw hwz.1).2⟩ hwz.2 hwz.1⟩⟩
  · intro x hx hlx hnot
    obtain ⟨y, hy, hxy⟩ := not_not.mp fun hnone => hnot ((hlast' x hx).mpr ⟨hlx, hnone⟩)
    obtain ⟨z, hxz, hz⟩ := hleast (fun y => M.pred order.before (outer ++ [x, y.1])) ⟨⟨y, hy, (hordered x hx y hy hxy).2⟩, hxy⟩
    exact ⟨z, z.2.1, (hnext x hx z z.2.1).mpr ⟨hxz, fun w hw hwz => hz ⟨w, hw, (hordered x hx w hw hwz.1).2⟩ hwz.1 hwz.2⟩⟩

end ChainOrder
namespace Contexts

variable {cs : Contexts} {symbols : Symbols} {id parent : ContextId}

theorem Built.ownSort_outerSorts (h : cs.Built symbols) (hsorts : (cs.get id).paramSorts = (cs.get parent).paramSorts ++ [sort]) :
    cs.ownSort id = sort ∧ cs.outerSorts id = (cs.get parent).paramSorts := by
  have hsub : (cs.get id).level - 1 = (cs.get parent).paramSorts.length := by
    rw [(h.sorted.get id).level, hsorts, List.length_append]
    rfl
  rw [ownSort, outerSorts, hsorts, hsub, List.take_left]
  simp

/-- The order axioms of a loop, in terms of the parameters of its parent. -/
theorem Built.satisfies_orderAxioms (h : cs.Built symbols) {order : ChainOrder} (hkind : (cs.get id).kind = .chained order)
    (hsorts : (cs.get id).paramSorts = (cs.get parent).paramSorts ++ [sort]) {live : PredId} (hlive : (cs.get id).live = some live)
    (g : VarGen) :
    (∀ F ∈ (cs.orderAxioms id g).1, M.Satisfies F) ↔ ∀ outer : List M.Elem, outer.map M.sort = (cs.get parent).paramSorts →
      order.Orders M sort outer fun x => M.pred live (outer ++ [x]) := by
  obtain ⟨hown, houter⟩ := h.ownSort_outerSorts hsorts
  have hlive_eq : ∀ outer : List M.Elem, outer.map M.sort = (cs.get parent).paramSorts →
      (fun x => cs.Live M id (outer ++ [x])) = fun x => M.pred live (outer ++ [x]) := by
    intro outer hmap
    funext x
    have hlength : (outer ++ [x]).length ≤ cs.level id := by
      rw [h.sorted.level_eq, hsorts, ← hmap]
      simp
    simp [Live, hlive, List.take_of_length_le hlength]
  have hholds : ∀ ρ : M.Env, (∀ F ∈ (cs.orderAxioms id g).1, F.Holds M ρ) ↔ ∀ outer : List M.Elem,
      outer.map M.sort = (cs.get parent).paramSorts → order.Orders M sort outer fun x => M.pred live (outer ++ [x]) := by
    intro ρ
    rw [cs.holds_orderAxioms id g, hown, houter]
    constructor
    · intro hall outer hmap
      exact hlive_eq outer hmap ▸ hall order hkind outer hmap
    · intro hall order' hkind' outer hmap
      cases hkind.symm.trans hkind'
      exact (hlive_eq outer hmap).symm ▸ hall outer hmap
  obtain ⟨e, -⟩ := M.inhabited ⟨0⟩
  exact ⟨fun hall => (hholds fun _ => e).mp fun F hF => hall F hF _, fun hall F hF ρ => (hholds ρ).mpr hall F hF⟩

end Contexts

/-- Wherever a chained loop has finitely many live iterations of each parent iteration, its order axioms hold exactly when these
are a chain. -/
theorem order_axioms_iff_chain {cs : Contexts} {symbols : Symbols} (h : cs.Built symbols) {id : ContextId} {order : ChainOrder}
    (hkind : (cs.get id).kind = .chained order) :
    ∃ parent sort live, (cs.get id).parent = some parent ∧ (cs.get id).live = some live ∧
      (cs.get id).paramSorts = (cs.get parent).paramSorts ++ [sort] ∧ ∀ (M : Structure) (g : VarGen),
      (∀ outer : List M.Elem, outer.map M.sort = (cs.get parent).paramSorts →
        {x | M.sort x = sort ∧ M.pred live (outer ++ [x])}.Finite) →
      ((∀ F ∈ (cs.orderAxioms id g).1, M.Satisfies F) ↔ ∀ outer : List M.Elem,
        outer.map M.sort = (cs.get parent).paramSorts → order.IsChain M sort outer fun x => M.pred live (outer ++ [x])) := by
  obtain ⟨parent, hparent⟩ := h.exists_isLoopIn hkind
  obtain ⟨sort, hsorts⟩ := hparent.sorts
  obtain ⟨live, hlive⟩ := hparent.live
  refine ⟨parent, sort, live, hparent.up, hlive, hsorts, fun M g hfinite => ?_⟩
  rw [h.satisfies_orderAxioms hkind hsorts hlive g]
  exact forall₂_congr fun outer houter => ⟨fun ho => ho.isChain, fun hc => hc.orders (hfinite outer houter)⟩

/-! ### A relay of two legs -/

namespace Relay

/-- The predicates of the one loop of a relay. -/
def legs : ChainOrder := ⟨⟨1⟩, ⟨2⟩, ⟨3⟩, ⟨4⟩⟩

/-- The root and a chained loop over the legs. -/
def contexts : Contexts := (Contexts.initial.add .empty Contexts.rootId ⟨0⟩ .chained "leg").2.1

theorem built : ∃ symbols, contexts.Built symbols := ⟨_, .add (.initial .empty) (by decide) _ _ _⟩

theorem kind_legs : (contexts.get ⟨1⟩).kind = .chained legs := rfl

theorem exists_leg (s : SortId) : ∃ x : SortId × Bool, x.1 = s := ⟨(s, false), rfl⟩

/-- Two legs of each sort, the first of which is run before the second. -/
def run : Structure where
  Elem := SortId × Bool
  sort := Prod.fst
  func _ _ := (⟨0⟩, false)
  pred
    | ⟨1⟩, [x, y] | ⟨2⟩, [x, y] => x.2 = false ∧ y.2 = true
    | ⟨3⟩, [x] => x.2 = false
    | ⟨4⟩, [x] => x.2 = true
    | _, _ => True
  inhabited := exists_leg

/-- Legs of one sort that differ are the first and the second one, in some order. -/
theorem snd_eq_not {x y : SortId × Bool} (hx : x.1 = ⟨0⟩) (hy : y.1 = ⟨0⟩) (hne : y ≠ x) : y.2 = !x.2 := by
  rw [Ne, Prod.ext_iff, hx, hy] at hne
  cases hb : x.2 <;> cases hc : y.2 <;> simp_all

theorem isChain_run : legs.IsChain run ⟨0⟩ [] fun x => run.pred ⟨0⟩ ([] ++ [x]) where
  ordered _ _ _ _ _ := ⟨trivial, trivial⟩
  total := {
    trichotomous := by
      rintro ⟨x, hx, _⟩ ⟨y, hy, _⟩ hxy hyx
      change ¬ (x.2 = false ∧ y.2 = true) at hxy
      change ¬ (y.2 = false ∧ x.2 = true) at hyx
      refine Subtype.ext (by_contra fun hne => ?_)
      have := snd_eq_not hx hy (Ne.symm hne)
      cases hb : x.2 <;> simp_all
    irrefl := fun x hx => absurd (hx.1.symm.trans hx.2) (by simp)
    trans := fun x y z hxy hyz => ⟨hxy.1, hyz.2⟩ }
  first x hx := by
    change x.2 = false ↔ True ∧ ∀ y : SortId × Bool, y.1 = ⟨0⟩ → True → y ≠ x → x.2 = false ∧ y.2 = true
    refine ⟨fun h => ⟨trivial, fun y hy _ hne => ⟨h, ?_⟩⟩, fun h => (h.2 (⟨0⟩, !x.2) rfl trivial fun heq => ?_).1⟩
    · rw [snd_eq_not hx hy hne, h]
      rfl
    · simpa using congrArg Prod.snd heq
  last x hx := by
    change x.2 = true ↔ True ∧ ∀ y : SortId × Bool, y.1 = ⟨0⟩ → True → y ≠ x → y.2 = false ∧ x.2 = true
    refine ⟨fun h => ⟨trivial, fun y hy _ hne => ⟨?_, h⟩⟩, fun h => (h.2 (⟨0⟩, !x.2) rfl trivial fun heq => ?_).2⟩
    · rw [snd_eq_not hx hy hne, h]
      rfl
    · simpa using congrArg Prod.snd heq
  next x _ y _ := by
    change x.2 = false ∧ y.2 = true ↔ (x.2 = false ∧ y.2 = true) ∧
      ∀ z : SortId × Bool, z.1 = ⟨0⟩ → ¬ ((x.2 = false ∧ z.2 = true) ∧ z.2 = false ∧ y.2 = true)
    refine (and_iff_left fun z _ h => ?_).symm
    exact absurd (h.1.2.symm.trans h.2.1) (by simp)

theorem finite_run : {x : run.Elem | run.sort x = ⟨0⟩ ∧ run.pred ⟨0⟩ ([] ++ [x])}.Finite := by
  refine Set.Finite.subset (Set.toFinite {((⟨0⟩ : SortId), false), (⟨0⟩, true)}) ?_
  rintro ⟨s, b⟩ ⟨hs, -⟩
  cases b <;> simp_all [run]

end Relay

theorem order_axioms_iff_chain_relay : (∃ symbols, Relay.contexts.Built symbols) ∧
    (Relay.contexts.get ⟨1⟩).kind = .chained Relay.legs ∧
      ∀ g, ∀ F ∈ (Relay.contexts.orderAxioms ⟨1⟩ g).1, Relay.run.Satisfies F := by
  refine ⟨Relay.built, Relay.kind_legs, fun g => ?_⟩
  obtain ⟨symbols, hbuilt⟩ := Relay.built
  obtain ⟨parent, sort, live, hparent, hlive, hsorts, hiff⟩ := order_axioms_iff_chain hbuilt Relay.kind_legs
  cases hparent
  cases hlive
  cases hsorts
  refine (hiff Relay.run g fun outer houter => ?_).mpr fun outer houter => ?_
  · cases List.map_eq_nil_iff.mp houter
    exact Relay.finite_run
  · cases List.map_eq_nil_iff.mp houter
    exact Relay.isChain_run

end StoreCheck
