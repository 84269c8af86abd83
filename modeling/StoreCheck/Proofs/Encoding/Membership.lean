import StoreCheck.Proofs.Encoding.Axioms
import StoreCheck.Proofs.Logic.Fresh

/-!
# What membership formulas mean

`ObjValue.Holds` says, in a structure, that an element is in a value at a position: the recipe of the value read as a
definition. The formula that `ObjValue.member` makes is true exactly when this is (`ObjValue.holds_member`), whatever fresh
variables it takes.
-/

namespace StoreCheck

open List Term VarGen Formula

variable {n m : Nat} {v : ObjValue} {vs : List ObjValue} {L : Layout} {M' : Structure} {cs cs' : Contexts} {p : Formula × VarGen}
  {sourceMember : Term → FreshEncode Formula} {ts : TupleSort} {context : ContextId}

variable {M : Structure}

/-! ## Slots, classes and contexts -/

/-- The element exists by the slot, at a position. -/
def Slot.At (M : Structure) (s : Slot) (as : List M.Elem) (e : M.Elem) : Prop := M.pred s.pred (as.take s.depth ++ [e])

@[simp]
theorem Slot.holds_holds (s : Slot) (params : List Term) (object : Term) (ρ : M.Env) :
    (s.holds params object).Holds M ρ ↔ s.At M (params.map (eval M ρ)) (object.eval M ρ) := by
  rw [Slot.holds, holds_atom, Slot.At]
  simp [map_take]

/-- The element satisfies the predicate of the class. -/
def Layout.IsOf (L : Layout) (M : Structure) (c : ClassId) (e : M.Elem) : Prop := M.pred (L.classPreds.getD c.index ⟨0⟩) [e]

@[simp]
theorem Layout.holds_isClass (L : Layout) (c : ClassId) (object : Term) (ρ : M.Env) :
    (L.isClass c object).Holds M ρ ↔ L.IsOf M c (object.eval M ρ) := by
  rfl

namespace TupleSort

/-- The left end of a tuple. -/
def Left (ts : TupleSort) (M : Structure) (t : M.Elem) : M.Elem := M.func ts.left [t]

/-- The right end of a tuple. -/
def Right (ts : TupleSort) (M : Structure) (t : M.Elem) : M.Elem := M.func ts.right [t]

/-- The end that a relation starts from. -/
def Near (ts : TupleSort) (M : Structure) (flipped : Bool) (t : M.Elem) : M.Elem :=
  if flipped then ts.Right M t else ts.Left M t

/-- The end that a relation leads to. -/
def Far (ts : TupleSort) (M : Structure) (flipped : Bool) (t : M.Elem) : M.Elem :=
  if flipped then ts.Left M t else ts.Right M t

@[simp]
theorem eval_leftOf (ts : TupleSort) (t : Term) (ρ : M.Env) : (ts.leftOf t).eval M ρ = ts.Left M (t.eval M ρ) := by
  simp [leftOf, Left, eval, evalAll]

@[simp]
theorem eval_rightOf (ts : TupleSort) (t : Term) (ρ : M.Env) : (ts.rightOf t).eval M ρ = ts.Right M (t.eval M ρ) := by
  simp [rightOf, Right, eval, evalAll]

/-- The end that a relation starts from, as a term. -/
def nearOf (ts : TupleSort) (flipped : Bool) (t : Term) : Term := if flipped then ts.rightOf t else ts.leftOf t

/-- The end that a relation leads to, as a term. -/
def farOf (ts : TupleSort) (flipped : Bool) (t : Term) : Term := if flipped then ts.leftOf t else ts.rightOf t

theorem eval_nearOf (ts : TupleSort) (flipped : Bool) (t : Term) (ρ : M.Env) :
    (ts.nearOf flipped t).eval M ρ = ts.Near M flipped (t.eval M ρ) := by
  cases flipped
  · exact ts.eval_leftOf t ρ
  · exact ts.eval_rightOf t ρ

theorem eval_farOf (ts : TupleSort) (flipped : Bool) (t : Term) (ρ : M.Env) :
    (ts.farOf flipped t).eval M ρ = ts.Far M flipped (t.eval M ρ) := by
  cases flipped
  · exact ts.eval_rightOf t ρ
  · exact ts.eval_leftOf t ρ

theorem settled_nearOf {t : Term} (ts : TupleSort) (flipped : Bool) (h : t.Settled n) : (ts.nearOf flipped t).Settled n := by
  cases flipped
  · exact settled_leftOf ts h
  · exact settled_rightOf ts h

end TupleSort

namespace Contexts

/-- The position is a live iteration of the context. -/
def Live (cs : Contexts) (M : Structure) (id : ContextId) (as : List M.Elem) : Prop :=
  ∀ p, (cs.get id).live = some p → M.pred p (as.take (cs.level id))

@[simp]
theorem holds_membership (cs : Contexts) (id : ContextId) (params : List Term) (ρ : M.Env) :
    (cs.membership id params).Holds M ρ ↔ cs.Live M id (params.map (eval M ρ)) := by
  unfold membership Live
  cases (cs.get id).live with
  | some p => simp [map_take]
  | none => simp [Formula.Holds]

/-- One level of the comparison of positions. -/
def BeforeStep (cs : Contexts) (M : Structure) (d : M.Elem) (as bs : List M.Elem) (deeper : Prop) (id : ContextId) : Prop :=
  let l := cs.level id
  let x := as.getD (l - 1) d
  let y := bs.getD (l - 1) d
  match (cs.get id).kind with
  | .root => deeper
  | .flat => x = y ∧ deeper
  | .chained order => M.pred order.before (as.take (l - 1) ++ [x, y]) ∨ (x = y ∧ deeper)

/-- The first position comes before the second one, compared at the levels of the common ancestor. -/
def Before (cs : Contexts) (M : Structure) (d : M.Elem) (a b : ContextId) (as bs : List M.Elem) (fallback : Prop) : Prop :=
  (cs.path (cs.commonAncestor a b)).foldl (cs.BeforeStep M d as bs) fallback

theorem eval_paramAt (params : List Term) (level : Nat) (ρ : M.Env) :
    (paramAt params level).eval M ρ = (params.map (eval M ρ)).getD (level - 1) (ρ "") := by
  unfold paramAt
  rw [getD_eq_getElem?_getD, getD_eq_getElem?_getD, getElem?_map]
  cases params[level - 1]? with
  | some t => rfl
  | none => simp [eval]

theorem holds_beforeStep (cs : Contexts) (pa pb : List Term) (deeper : Formula) (id : ContextId) (ρ : M.Env) :
    (cs.beforeStep pa pb deeper id).Holds M ρ ↔
      cs.BeforeStep M (ρ "") (pa.map (eval M ρ)) (pb.map (eval M ρ)) (deeper.Holds M ρ) id := by
  unfold beforeStep BeforeStep
  cases (cs.get id).kind with
  | root => exact Iff.rfl
  | flat => simp [eval_paramAt]
  | chained order => simp [eval_paramAt, map_take]

theorem holds_before (cs : Contexts) (a b : ContextId) (pa pb : List Term) (fallback : Formula) (ρ : M.Env) :
    (cs.before a b pa pb fallback).Holds M ρ ↔
      cs.Before M (ρ "") a b (pa.map (eval M ρ)) (pb.map (eval M ρ)) (fallback.Holds M ρ) := by
  unfold before Before
  induction cs.path (cs.commonAncestor a b) generalizing fallback with
  | nil => rfl
  | cons id rest ih =>
    rw [foldl_cons, foldl_cons, ih, propext (holds_beforeStep cs pa pb fallback id ρ)]

end Contexts

/-! ## Values -/

namespace ObjValue

mutual

/-- The element is in the value at the position. -/
def Holds (L : Layout) (M : Structure) (cs : Contexts) (ρ : M.Env) : ObjValue → List M.Elem → M.Elem → Prop
  | .empty, _, _ => False
  | .ofClass c slot, as, e => slot.At M as e ∧ L.IsOf M c e
  | .pred p depth, as, e => M.pred p (as.take depth ++ [e])
  | .param level, as, e => e = as.getD (level - 1) (ρ "")
  | .bound t, _, e => e = t.eval M ρ
  | .union parts, as, e => HoldsSome L M cs ρ parts as e
  | .deref source relation flipped slot, as, e =>
    ∃ ts, List.lookup relation L.tupleSorts = some ts ∧ ∃ t, M.sort t = ts.sort ∧ slot.At M as t ∧ ts.Far M flipped t = e ∧
      Holds L M cs ρ source as (ts.Near M flipped t)
  | .merge depth indicators values, as, e => HoldsTaken L M cs ρ depth indicators values as e
  | .boundary context before inside, as, e =>
    let c := cs.get context
    let outer := as.take (c.level - 1)
    let sort := c.paramSorts.getD (c.level - 1) ⟨0⟩
    ∃ order, c.kind = .chained order ∧
      ((¬ ∃ p, M.sort p = sort ∧ cs.Before M (ρ "") context context (outer ++ [p]) as False) ∧
          Holds L M cs ρ before as e ∨
        ∃ q, M.sort q = sort ∧ M.pred order.justBefore (outer ++ [q, as.getD (c.level - 1) (ρ "")]) ∧
          Holds L M cs ρ inside (outer ++ [q]) e)

/-- The element is in some of the values. -/
def HoldsSome (L : Layout) (M : Structure) (cs : Contexts) (ρ : M.Env) : List ObjValue → List M.Elem → M.Elem → Prop
  | [], _, _ => False
  | v :: rest, as, e => v.Holds L M cs ρ as e ∨ HoldsSome L M cs ρ rest as e

/-- The element is in the value of a branch that was taken. -/
def HoldsTaken (L : Layout) (M : Structure) (cs : Contexts) (ρ : M.Env) (depth : Nat) :
    List PredId → List ObjValue → List M.Elem → M.Elem → Prop
  | p :: ps, v :: vs, as, e =>
    (M.pred p (as.take depth) ∧ v.Holds L M cs ρ as e) ∨ HoldsTaken L M cs ρ depth ps vs as e
  | _, _, _, _ => False

end

mutual

/-- All variables of the value are settled. -/
def Settled (n : Nat) : ObjValue → Prop
  | .bound t => t.Settled n
  | .union parts => AllSettled n parts
  | .deref source _ _ _ => source.Settled n
  | .merge _ _ values => AllSettled n values
  | .boundary _ before inside => before.Settled n ∧ inside.Settled n
  | _ => True

/-- All variables of the values are settled. -/
def AllSettled (n : Nat) : List ObjValue → Prop
  | [] => True
  | v :: rest => v.Settled n ∧ AllSettled n rest

end

theorem allSettled_iff (n : Nat) (vs : List ObjValue) : AllSettled n vs ↔ ∀ v ∈ vs, v.Settled n := by
  induction vs with
  | nil => simp [AllSettled]
  | cons v rest ih => simp [AllSettled, ih]

theorem AllSettled.of_mem (h : AllSettled n vs) (hv : v ∈ vs) : v.Settled n :=
  (allSettled_iff n vs).1 h v hv

theorem settled_unionValue (h : AllSettled n vs) : (Encode.unionValue vs).Settled n := by
  rw [allSettled_iff] at h
  have hfilter : ∀ v ∈ vs.filter (!·.isEmpty), v.Settled n := fun v hv => h v (mem_filter.1 hv).1
  unfold Encode.unionValue
  split
  · simp [Settled]
  · rename_i v heq
    exact hfilter v (by simp [heq])
  · rw [Settled, allSettled_iff]
    exact hfilter

/-- Settled values stay settled. -/
theorem Settled.mono (hle : m ≤ n) {v : ObjValue} (h : v.Settled m) : v.Settled n := by
  induction v with
  | empty | ofClass | pred | param => trivial
  | bound t => exact Term.Settled.mono hle h
  | union parts ih | merge _ _ parts ih => exact (allSettled_iff _ _).2 fun v hv => ih v hv (AllSettled.of_mem h hv)
  | deref source _ _ _ ih => exact ih h
  | boundary _ before inside ihb ihi => exact ⟨ihb h.1, ihi h.2⟩

theorem AllSettled.mono (hle : m ≤ n) (h : AllSettled m vs) : AllSettled n vs :=
  (allSettled_iff _ _).2 fun _ hv => (h.of_mem hv).mono hle

theorem settled_empty_name (n : Nat) : VarGen.Settled n "" := by
  intro k _ heq
  have hlist := congrArg String.toList heq
  simp [nameOf] at hlist

theorem holdsSome_iff (L : Layout) (cs : Contexts) (ρ : M.Env) (vs : List ObjValue) (as : List M.Elem) (e : M.Elem) :
    HoldsSome L M cs ρ vs as e ↔ ∃ v ∈ vs, v.Holds L M cs ρ as e := by
  induction vs with
  | nil => simp [HoldsSome]
  | cons v rest ih => simp [HoldsSome, ih]

/-- Two readings of the same values hold of the same elements if they do so one by one. -/
theorem holdsSome_congr {M : Structure} {ρ : M.Env} {ρ' : M'.Env} {as : List M.Elem} {as' : List M'.Elem} {e : M.Elem}
    {e' : M'.Elem} (h : ∀ v ∈ vs, (v.Holds L M' cs' ρ' as' e' ↔ v.Holds L M cs ρ as e)) :
    HoldsSome L M' cs' ρ' vs as' e' ↔ HoldsSome L M cs ρ vs as e := by
  rw [holdsSome_iff, holdsSome_iff]
  exact exists_congr fun v => and_congr_right (h v)

theorem holdsTaken_congr {M M' : Structure} {ρ : M.Env} {ρ' : M'.Env} {as : List M.Elem} {as' : List M'.Elem} {e : M.Elem}
    {e' : M'.Elem} {L : Layout} {depth : Nat} {ps : List PredId} {vs : List ObjValue}
    (hps : ∀ p ∈ ps, (M'.pred p (as'.take depth) ↔ M.pred p (as.take depth)))
    (h : ∀ v ∈ vs, (v.Holds L M' cs' ρ' as' e' ↔ v.Holds L M cs ρ as e)) :
    HoldsTaken L M' cs' ρ' depth ps vs as' e' ↔ HoldsTaken L M cs ρ depth ps vs as e := by
  induction ps generalizing vs with
  | nil => simp [HoldsTaken]
  | cons p ps ih =>
    cases vs with
    | nil => simp [HoldsTaken]
    | cons v vs =>
      obtain ⟨hp, hps⟩ := forall_mem_cons.1 hps
      obtain ⟨hv, hvs⟩ := forall_mem_cons.1 h
      exact or_congr (and_congr hp hv) (ih hps hvs)

/-- Assignments that agree on the variables of a value give it the same elements. -/
theorem holds_agree {cs : Contexts} {n : Nat} {ρ ρ' : M.Env} (h : Valuation.Agree n ρ ρ') {v : ObjValue} (hv : v.Settled n)
    (as : List M.Elem) (e : M.Elem) : v.Holds L M cs ρ' as e ↔ v.Holds L M cs ρ as e := by
  induction v generalizing as e with
  | empty | ofClass | pred => simp [Holds]
  | param _ => simp [Holds, h "" (settled_empty_name n)]
  | bound t => simp [Holds, eval_agree h hv]
  | union parts ih => exact holdsSome_congr fun v hmem => ih v hmem (AllSettled.of_mem hv hmem) as e
  | deref source _ _ _ ih => simp [Holds, ih hv as]
  | merge depth indicators values ih =>
    exact holdsTaken_congr (fun _ _ => .rfl) fun v hmem => ih v hmem (AllSettled.of_mem hv hmem) as e
  | boundary _ before inside ihb ihi => simp [Holds, h "" (settled_empty_name n), ihb hv.1 as e, ihi hv.2 _ e]

/-! ## Membership formulas -/

/-- Whenever the computation succeeds from `g`, its formula says `P` of the assignment. -/
def Means (M : Structure) (run : FreshEncode Formula) (g : VarGen) (P : M.Env → Prop) : Prop :=
  ∀ F g', run g = .ok (F, g') → ∀ ρ, F.Holds M ρ ↔ P ρ

variable {g : VarGen} {params : List Term} {object : Term} {cs : Contexts}

theorem binder_ok {p : (Binder × Term) × VarGen} :
    FreshEncode.binder sort g = .ok p ↔ p = ((⟨nameOf (g.count + 1), sort⟩, .var (nameOf (g.count + 1))),
      ⟨g.count + 1⟩) := modifyGet_ok

theorem derefMember_ok (h : derefMember ts flipped slot params object sourceMember g = .ok p) :
    ∃ inSource, sourceMember (ts.nearOf flipped (.var (nameOf (g.count + 1)))) ⟨g.count + 1⟩ = .ok (inSource, p.2) ∧
      p.1 = .mkForSome [⟨nameOf (g.count + 1), ts.sort⟩] (.mkAnd [slot.holds params (.var (nameOf (g.count + 1))),
          .mkEq (ts.farOf flipped (.var (nameOf (g.count + 1)))) object, inSource]) := by
  obtain ⟨⟨b, t⟩, g1, hb, h⟩ := bind_ok.1 h
  cases binder_ok.1 hb
  cases flipped <;>
  · obtain ⟨inSource, g2, hsource, hpure⟩ := bind_ok.1 h
    cases pure_ok.1 hpure
    exact ⟨inSource, hsource, rfl⟩

theorem means_derefMember {source : ObjValue} (hts : List.lookup relation L.tupleSorts = some ts) (flipped : Bool) (slot : Slot)
    (hs : source.Settled g.count) (hps : Term.AllSettled g.count params) (ho : object.Settled g.count)
    (ih : ∀ (t : Term) (g : VarGen), source.Settled g.count → Term.AllSettled g.count params → t.Settled g.count →
      Means M (sourceMember t) g fun ρ => source.Holds L M cs ρ (params.map (eval M ρ)) (t.eval M ρ)) :
    Means M (derefMember ts flipped slot params object sourceMember) g fun ρ =>
      (deref source relation flipped slot).Holds L M cs ρ (params.map (eval M ρ)) (object.eval M ρ) := by
  intro F g' hrun ρ
  obtain ⟨inSource, hsource, rfl⟩ := derefMember_ok hrun
  have hle : g.count ≤ g.count + 1 := Nat.le_succ _
  have hvar : (var (nameOf (g.count + 1))).Settled (g.count + 1) := settled_nameOf (Nat.le_refl _)
  have hmeans := ih _ ⟨g.count + 1⟩ (hs.mono hle) (hps.mono hle) (ts.settled_nearOf flipped hvar) _ _ hsource
  simp only [holds_mkForSome, Holds, hts, Option.some.injEq, exists_eq_left', Structure.ForSome]
  refine exists_congr fun e => and_congr_right fun _ => ?_
  have hagree : Valuation.Agree g.count ρ (ρ.set (nameOf (g.count + 1)) e) :=
    Valuation.agree_set ρ e (Nat.lt_succ_self _)
  simp [hmeans, TupleSort.eval_nearOf, TupleSort.eval_farOf, eval, map_eval_agree hagree hps,
    eval_agree hagree ho, holds_agree hagree hs]

/-- The parts of a membership formula across a boundary. -/
theorem boundaryMember_ok (h : boundaryMember cs context params beforeMember insideMember g = .ok p) : let c := cs.get context
    let sort := c.paramSorts.getD (c.level - 1) ⟨0⟩
    let outer := params.take (c.level - 1)
    let x := nameOf (g.count + 1)
    ∃ order fromBefore g1 fromInside, c.kind = .chained order ∧ beforeMember ⟨g.count + 1⟩ = .ok (fromBefore, g1) ∧
      insideMember (outer ++ [.var (nameOf (g1.count + 1))]) ⟨g1.count + 1⟩ = .ok (fromInside, p.2) ∧
      p.1 = .mkOr [
        .mkAnd [.mkNot (.mkForSome [⟨x, sort⟩] (cs.before context context (outer ++ [.var x]) params .bot)), fromBefore],
        .mkForSome [⟨nameOf (g1.count + 1), sort⟩]
          (.mkAnd [.atom order.justBefore (outer ++ [.var (nameOf (g1.count + 1)), paramAt params c.level]),
            fromInside])] := by
  unfold boundaryMember at h
  intro c sort outer x
  cases hkind : (cs.get context).kind with
  | root => simp only [hkind] at h; cases h
  | flat => simp only [hkind] at h; cases h
  | chained order =>
    simp only [hkind] at h
    obtain ⟨⟨b, t⟩, g1, hb, h⟩ := bind_ok.1 h
    cases binder_ok.1 hb
    obtain ⟨fromBefore, g2, hbefore, h⟩ := bind_ok.1 h
    obtain ⟨⟨b, t⟩, g3, hb, h⟩ := bind_ok.1 h
    cases binder_ok.1 hb
    obtain ⟨fromInside, g4, hinside, h⟩ := bind_ok.1 h
    cases pure_ok.1 h
    exact ⟨order, fromBefore, g2, fromInside, rfl, hbefore, hinside, rfl⟩

/-- Across a boundary: before the first iteration the value from outside, else that of the iteration before. -/
theorem means_boundaryMember {before inside : ObjValue} (hb : before.Settled g.count) (hi : inside.Settled g.count)
    (hps : Term.AllSettled g.count params) (ho : object.Settled g.count)
    (ihb : ∀ (g : VarGen), before.Settled g.count → Term.AllSettled g.count params → object.Settled g.count →
      Means M (member L cs before params object) g fun ρ =>
        before.Holds L M cs ρ (params.map (Term.eval M ρ)) (object.eval M ρ))
    (ihi : ∀ (ps : List Term) (g : VarGen), inside.Settled g.count → Term.AllSettled g.count ps → object.Settled g.count →
      Means M (member L cs inside ps object) g fun ρ => inside.Holds L M cs ρ (ps.map (Term.eval M ρ)) (object.eval M ρ)) :
    Means M (boundaryMember cs context params (member L cs before params object)
        (fun ps => member L cs inside ps object)) g fun ρ =>
      (boundary context before inside).Holds L M cs ρ (params.map (Term.eval M ρ)) (object.eval M ρ) := by
  intro F g' hrun ρ
  obtain ⟨order, fromBefore, g1, fromInside, hkind, hbefore, hinside, rfl⟩ := boundaryMember_ok hrun
  have hle : g.count ≤ g.count + 1 := Nat.le_succ _
  have hle1 : g.count + 1 ≤ g1.count := (keeps_member L cs before params object).of_ok hbefore
  have hle2 : g.count ≤ g1.count + 1 := by omega
  have houter : ∀ n, Term.AllSettled n params → Term.AllSettled n (params.take ((cs.get context).level - 1)) := by
    intro n h
    rw [Term.allSettled_iff] at h ⊢
    exact fun t ht => h t (mem_of_mem_take ht)
  have hq : Term.AllSettled (g1.count + 1)
      (params.take ((cs.get context).level - 1) ++ [.var (VarGen.nameOf (g1.count + 1))]) := by
    rw [Term.allSettled_iff]
    intro t ht
    rcases mem_append.1 ht with ht | ht
    · exact (Term.allSettled_iff _ _).1 (houter _ (hps.mono hle2)) t ht
    · rw [mem_singleton.1 ht]
      exact VarGen.settled_nameOf (Nat.le_refl _)
  have hmb := ihb ⟨g.count + 1⟩ (hb.mono hle) (hps.mono hle) (ho.mono hle) _ _ hbefore
  have hmi := ihi _ ⟨g1.count + 1⟩ (hi.mono hle2) hq (ho.mono hle2) _ _ hinside
  have hfirst : ∀ e, Valuation.Agree g.count ρ (ρ.set (VarGen.nameOf (g.count + 1)) e) :=
    fun e => Valuation.agree_set ρ e (Nat.lt_succ_self _)
  have hsecond : ∀ e, Valuation.Agree g.count ρ (ρ.set (VarGen.nameOf (g1.count + 1)) e) :=
    fun e => Valuation.agree_set ρ e (by omega)
  simp only [Holds, hkind, ContextKind.chained.injEq, exists_eq_left', Formula.holds_mkOr, mem_cons,
    not_mem_nil, or_false, exists_eq_or_imp, Formula.holds_mkAnd, forall_eq_or_imp, forall_eq, Formula.holds_mkNot,
    Formula.holds_mkForSome, Structure.ForSome, exists_eq_left]
  refine or_congr (and_congr (not_congr (exists_congr fun e => and_congr_right fun _ => ?_)) (hmb ρ))
    (exists_congr fun e => and_congr_right fun _ => and_congr ?_ ?_)
  · rw [Contexts.holds_before, map_append, map_take, Term.map_eval_agree (hfirst e) hps,
      hfirst e "" (settled_empty_name _)]
    simp [Term.eval, Formula.Holds]
  · simp [Term.eval, Contexts.eval_paramAt, Term.map_eval_agree (hsecond e) hps,
      hsecond e "" (settled_empty_name _)]
  · refine (hmi _).trans ?_
    dsimp only
    rw [map_append, map_take, Term.map_eval_agree (hsecond e) hps, Term.eval_agree (hsecond e) ho,
      holds_agree (hsecond e) hi]
    simp [Term.eval]

section Lists

variable {L : Layout} {cs : Contexts} {ρ : M.Env} {params : List Term} {object : Term} {vs : List ObjValue}
  {fs : List Formula}
  (h : List.Forall₂ (fun v f => f.Holds M ρ ↔ v.Holds L M cs ρ (params.map (Term.eval M ρ)) (object.eval M ρ)) vs fs)

include h

theorem exists_holds_iff :
    (∃ f ∈ fs, f.Holds M ρ) ↔ HoldsSome L M cs ρ vs (params.map (eval M ρ)) (object.eval M ρ) := by
  induction h with
  | nil => simp [HoldsSome]
  | cons hf _ ih => simp [HoldsSome, hf, ih]

theorem holds_mergeMember (depth : Nat) (indicators : List PredId) :
    (mergeMember depth indicators params fs).Holds M ρ ↔
      HoldsTaken L M cs ρ depth indicators vs (params.map (eval M ρ)) (object.eval M ρ) := by
  rw [mergeMember, holds_mkOr]
  induction h generalizing indicators with
  | nil => cases indicators <;> simp [HoldsTaken]
  | cons hf _ ih =>
    cases indicators with
    | nil => simp [HoldsTaken]
    | cons p ps =>
      rw [HoldsTaken, ← ih ps, ← hf]
      simp [map_take]

end Lists

theorem means_members
    (hvs : ∀ v ∈ vs, ∀ {g : VarGen}, v.Settled g.count → Term.AllSettled g.count params → object.Settled g.count →
      Means M (member L cs v params object) g fun ρ => v.Holds L M cs ρ (params.map (eval M ρ)) (object.eval M ρ))
    (hv : AllSettled g.count vs) (hps : Term.AllSettled g.count params) (ho : object.Settled g.count)
    (hrun : members L cs vs params object g = .ok (fs, g')) (ρ : M.Env) :
    List.Forall₂ (fun v f => f.Holds M ρ ↔ v.Holds L M cs ρ (params.map (eval M ρ)) (object.eval M ρ)) vs fs := by
  induction vs generalizing g fs with
  | nil =>
    cases pure_ok.1 hrun
    exact .nil
  | cons v rest ih =>
    obtain ⟨f, g1, hf, hrun⟩ := bind_ok.1 hrun
    obtain ⟨others, g2, hothers, hpure⟩ := bind_ok.1 hrun
    cases pure_ok.1 hpure
    have hle : g.count ≤ g1.count := (keeps_member L cs v params object).of_ok hf
    obtain ⟨hhead, hrest⟩ := forall_mem_cons.1 hvs
    exact .cons (hhead hv.1 hps ho f g1 hf ρ) (ih hrest (hv.2.mono hle) (hps.mono hle) (ho.mono hle) hothers)

/-- The membership formula of a value is true of its elements. -/
theorem means_member (L : Layout) (cs : Contexts) (v : ObjValue) (params : List Term) (object : Term) (g : VarGen)
    (hv : v.Settled g.count) (hps : Term.AllSettled g.count params) (ho : object.Settled g.count) :
    Means M (member L cs v params object) g fun ρ =>
      v.Holds L M cs ρ (params.map (eval M ρ)) (object.eval M ρ) := by
  induction v generalizing params object g with (intro F g' hrun ρ)
  | empty | bound =>
    cases pure_ok.1 hrun
    simp [Holds, Formula.Holds]
  | ofClass c slot =>
    cases pure_ok.1 hrun
    simp [Holds]
  | pred p depth =>
    cases pure_ok.1 hrun
    simp [Holds, map_take]
  | param level =>
    cases pure_ok.1 hrun
    simp [Holds, Contexts.eval_paramAt]
  | union parts ih =>
    obtain ⟨fs, g1, hparts, hpure⟩ := bind_ok.1 hrun
    cases pure_ok.1 hpure
    simp only [Holds, holds_mkOr]
    exact exists_holds_iff (means_members (fun v hv => ih v hv _ _ _) hv hps ho hparts ρ)
  | deref source relation flipped slot ih =>
    obtain ⟨ts, g1, hts, hrun⟩ := bind_ok.1 hrun
    obtain ⟨ts', hts', heq⟩ := lift_ok.1 hts
    cases heq
    simp only [Settled] at hv
    exact means_derefMember (Layout.lookup_of_tupleSort hts') flipped slot hv hps ho
      (fun t g hs hp ht => ih params t g hs hp ht) F g' hrun ρ
  | merge depth indicators values ih =>
    obtain ⟨fs, g1, hparts, hpure⟩ := bind_ok.1 hrun
    cases pure_ok.1 hpure
    exact holds_mergeMember (means_members (fun v hv => ih v hv _ _ _) hv hps ho hparts ρ) depth indicators
  | boundary context before inside ihb ihi =>
    exact means_boundaryMember hv.1 hv.2 hps ho (fun g hs hp ht => ihb params object g hs hp ht)
      (fun ps g hs hp ht => ihi ps object g hs hp ht) F g' hrun ρ

end ObjValue

end StoreCheck
