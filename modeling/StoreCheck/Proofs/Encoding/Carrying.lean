import StoreCheck.Proofs.Encoding.Iterations

/-!
# The variables that a chained loop carries

At the start of an iteration a carried variable that the body reads before it assigns it has the value before the loop in the
first iteration, and the value at the end of the iteration just before in every other one (`ChainedRun.start_of_carried`). A
carried variable that is not read first keeps the value before the loop inside (`ChainedRun.exists_begins`). After the loop every
carried variable has the value at the end of the last iteration (`ChainedRun.end_of_carried`).
-/

namespace StoreCheck

open List ObjValue VarMap

variable {x : String} {child parent : ContextId} {order : ChainOrder} {sort : SortId} {f : Encode.LoopFrame} {b c : Block}
  {body : Encode.LoopBody} {pre : Scope}

variable {M : Structure} {L : Layout} {s t : Session} {ρ : M.Env} {k : SortId → SortId} {symbols : Symbols}

/-! ## Variables stay bound -/

namespace Flow

variable {store : Store}

theorem contains_mergeEnvs (he : e ∈ exits) (h : e.contains x) : (mergeEnvs store.graph exits).contains x := by
  unfold mergeEnvs VarMap.contains
  rw [find?_ofNames, if_pos]
  · rfl
  · rw [mem_sortNames, mem_flatMap]
    exact ⟨e, he, (mem_names_iff e x).2 h⟩

theorem contains_insert {types : TypeEnv} (h : types.contains x) (name : String) (t : ObjType) :
    (types.insert name t).contains x := by
  rw [VarMap.contains, find?_insert]
  split
  · rfl
  · exact h

/-- What carrying variables out of a loop does to a type. -/
theorem find?_carryOuts {before inner : TypeEnv} {x : String} : ∀ {names : List String} {types out : TypeEnv},
    names.foldlM (carryOut store.graph before inner) types = .ok out →
    (x ∉ names ∨ inner.find? x = none → out.find? x = types.find? x) ∧
      ∀ b a, x ∈ names → before.find? x = some b → inner.find? x = some a →
        ∃ v, out.find? x = some v ∧ store.graph.joinStrict b.signature a.signature = .ok v.signature
  | [], _, _, h => by
    cases h
    exact ⟨fun _ => rfl, fun _ _ hx => by cases hx⟩
  | n :: rest, _, _, h => by
    obtain ⟨mid, hmid, h⟩ := exceptBind_ok.1 h
    have hrest := find?_carryOuts (x := x) h
    unfold carryOut at hmid
    split at hmid
    · obtain ⟨v, hv, hmid⟩ := exceptBind_ok.1 hmid
      cases hmid
      have hjoin := ObjType.join_ok hv
      rw [find?_insert] at hrest
      grind
    · cases hmid
      grind

mutual

/-- A variable that is bound before a statement is bound after it. -/
theorem contains_statement : ∀ (st : Statement) {types out : TypeEnv}, statement store types st = .ok out →
    types.contains x → out.contains x
  | .assign var value, _, _, h, hx => by
    obtain ⟨t, -, h⟩ := exceptBind_ok.1 h
    cases h
    exact contains_insert hx var t
  | .create className none, _, _, h, hx => by
    obtain ⟨c, -, h⟩ := exceptBind_ok.1 h
    cases h
    exact hx
  | .create className (some name), _, _, h, hx => by
    obtain ⟨c, -, h⟩ := exceptBind_ok.1 h
    cases h
    exact contains_insert hx name _
  | .delete _, _, _, h, hx | .createTuple _ _ _, _, _, h, hx | .deleteTuple _ _ _, _, _, h, hx | .either [], _, _, h, hx
  | .forEach _ _ _ .flat, _, _, h, hx => by
    cases h
    exact hx
  | .ifElse _ thenBlock elseBlock, _, _, h, hx => by
    obtain ⟨first, h1, h⟩ := exceptBind_ok.1 h
    obtain ⟨second, -, h⟩ := exceptBind_ok.1 h
    cases h
    exact contains_mergeEnvs (by simp) (contains_block thenBlock h1 hx)
  | .either [only], _, _, h, hx => contains_block only h hx
  | .either (first :: second :: rest), _, _, h, hx => by
    rw [statement] at h
    · obtain ⟨exits, h1, h⟩ := exceptBind_ok.1 h
      cases h
      obtain ⟨e, h2, h1⟩ := exceptBind_ok.1 h1
      obtain ⟨es, -, h1⟩ := exceptBind_ok.1 h1
      cases h1
      exact contains_mergeEnvs mem_cons_self (contains_block first h2 hx)
    · simp
    · simp
  | .forEach var domain body .chained, types, _, h, hx => by
    obtain ⟨type, -, h⟩ := exceptBind_ok.1 h
    split at h
    · cases h
      exact hx
    · obtain ⟨inner, -, h⟩ := exceptBind_ok.1 h
      have hfind := find?_carryOuts (x := x) h
      simp only [VarMap.contains, Option.isSome_iff_exists] at hx ⊢
      cases hinner : inner.find? x <;> grind

theorem contains_block : ∀ (b : List Statement) {types out : TypeEnv}, block store types b = .ok out →
    types.contains x → out.contains x
  | [], _, _, h, hx => by
    cases h
    exact hx
  | st :: rest, _, _, h, hx => by
    obtain ⟨mid, h1, h2⟩ := exceptBind_ok.1 h
    exact contains_block rest h2 (contains_statement st h1 hx)

end

end Flow

/-! ## Positions of one parent position -/

namespace Contexts

variable {cs cs' : Contexts}

/-- The way up from a loop: the loop, then the way up from the place of the loop. -/
theorem Sorted.path_cons (h : cs.Sorted k symbols) {child parent : ContextId} (hchild : child.index < cs.table.length)
    (hparent : (cs.get child).parent = some parent) : cs.path child = child :: cs.path parent := by
  have hlt := h.parent_lt hparent
  unfold path
  cases hn : cs.table.length with
  | zero => omega
  | succ n =>
    rw [Contexts.pathUp, hparent]
    exact congrArg (child :: ·) (pathUp_extend h (prefix_refl _) (n + 1) n parent (by omega) (by omega) (by omega))

/-- No iteration of a loop around the place comes before itself. -/
def Irreflexive (cs : Contexts) (M : Structure) (id : ContextId) : Prop :=
  ∀ a ∈ cs.path id, ∀ order, (cs.get a).kind = .chained order → ∀ (outer : List M.Elem) (x : M.Elem),
    (outer ++ [x]).map M.sort = (cs.get a).paramSorts → ¬ M.pred order.before (outer ++ [x, x])

theorem Irreflexive.extend {id : ContextId} (hirrefl : cs.Irreflexive M id) (h : cs.Sorted k symbols)
    (htable : cs.table <+: cs'.table) (hid : id.index < cs.table.length) : cs'.Irreflexive M id := by
  intro a ha
  rw [path_extend h htable hid] at ha
  have hindex := h.index_le_of_mem_pathUp _ id a ha
  rw [get_extend htable (by omega)]
  exact hirrefl a ha

theorem irreflexive_root (M : Structure) : initial.Irreflexive M rootId := by
  intro a ha order hkind
  have hpath : initial.path rootId = [rootId] := rfl
  rw [hpath, mem_singleton] at ha
  subst ha
  cases hkind

/-- Where two positions agree, the levels above do not tell them apart. -/
theorem Sorted.beforeStep_same (h : cs.Sorted k symbols) {id a : ContextId} (hirrefl : cs.Irreflexive M id) (ha : a ∈ cs.path id)
    {es as bs : List M.Elem} (hes : es.map M.sort = (cs.get id).paramSorts) (has : es <+: as) (hbs : es <+: bs) (d : M.Elem)
    (deeper : Prop) : cs.BeforeStep M d as bs deeper a ↔ deeper := by
  have hsorts := h.pathUp _ id a ha
  have hlength : es.length = (cs.get id).paramSorts.length := by rw [← hes, length_map]
  have hlevel : cs.level a ≤ es.length := by
    rw [h.level_eq, hlength]
    exact hsorts.length_le
  have hsame : 0 < cs.level a → as.getD (cs.level a - 1) d = bs.getD (cs.level a - 1) d := fun hpos => by
    rw [getD_of_extend has (by omega) d d, getD_of_extend hbs (by omega) d d]
  unfold BeforeStep
  cases hkind : (cs.get a).kind with
  | root => exact Iff.rfl
  | flat => simp only [hsame ((h.get a).flat hkind), true_and]
  | chained order =>
    obtain ⟨outer, sort, hparams, -⟩ := (h.get a).order order hkind
    have hpos : 0 < cs.level a := by
      rw [h.level_eq, hparams]
      simp
    have hlt : cs.level a - 1 < es.length := by omega
    simp only [← hsame hpos, true_and, or_iff_right_iff_imp]
    intro hbefore
    refine absurd hbefore (hirrefl a ha order hkind _ _ ?_)
    have htake : as.take (cs.level a - 1) ++ [as.getD (cs.level a - 1) d] = es.take (cs.level a) := by
      rw [take_of_extend has (by omega), getD_of_extend has hlt d d, getD_eq_getElem _ _ hlt, take_concat_get' _ _ hlt,
        Nat.sub_add_cancel hpos]
    rw [htake, map_take, hes, h.level_eq]
    exact (prefix_iff_eq_take.1 hsorts).symm

/-- Iterations of one parent position are compared by the order of their own loop. -/
theorem Sorted.before_own (h : cs.Sorted k symbols) (hparent : (cs.get child).parent = some parent)
    (hkind : (cs.get child).kind = .chained order) (hparams : (cs.get child).paramSorts = (cs.get parent).paramSorts ++ [sort])
    (hirrefl : cs.Irreflexive M parent) {es : List M.Elem} (hes : es.map M.sort = (cs.get parent).paramSorts) (p x d : M.Elem) :
    cs.Before M d child child (es ++ [p]) (es ++ [x]) False ↔ M.pred order.before (es ++ [p, x]) := by
  have hfold : ∀ (path : List ContextId) (deeper : Prop), (∀ a ∈ path, a ∈ cs.path parent) →
      (path.foldl (cs.BeforeStep M d (es ++ [p]) (es ++ [x])) deeper ↔ deeper) := by
    intro path
    induction path with
    | nil => exact fun _ _ => Iff.rfl
    | cons a rest ih =>
      intro deeper hpath
      rw [foldl_cons, ih _ fun b hb => hpath b (by simp [hb])]
      exact h.beforeStep_same hirrefl (hpath a (by simp)) hes (prefix_append _ _) (prefix_append _ _) d deeper
  have hlevel : cs.level child = es.length + 1 := by
    rw [h.level_eq, hparams, ← hes]
    simp
  unfold Before
  rw [commonAncestor_self, h.path_cons (lt_of_kind hkind) hparent, foldl_cons, hfold _ _ fun _ ha => ha]
  simp [BeforeStep, hkind, hlevel]

end Contexts

/-! ## Places that the encoding comes to -/

/-- The session is sorted, binds each variable once, and stands inside loops whose orders are irreflexive. -/
structure Session.Nested (k : SortId → SortId) (L : Layout) (M : Structure) (s : Session) : Prop where
  placed : s.Placed k L
  distinct : VarMap.Distinct s.scope
  irreflexive : s.contexts.Irreflexive M s.context

namespace Encode

/-- The loops around the body of a loop are the loop and those around it. -/
theorem irreflexive_of_starts {body : Block} {order : LoopKind} (hlaid : L.Laid symbols) (hs : s.Placed k L)
    (hirrefl : s.contexts.Irreflexive M s.context) (hstart : StartsLoop L var domain body order s f t) (hM : M.Obeys ρ t) :
    t.contexts.Irreflexive M f.child := by
  obtain ⟨ht, hf, -, -⟩ := placed_loop hlaid hs hstart
  obtain ⟨_, _, _, _, _, hiterates⟩ := iterates_of_starts hlaid hs hstart hM
  have hgrows := grows_of_starts hstart
  have houter := hirrefl.extend hs.sorted.contexts hgrows.contexts hs.sorted.context
  rw [← hgrows.context] at houter
  intro a ha chain hkind outer x hsorts
  rw [ht.sorted.contexts.path_cons hf.child hf.parent] at ha
  rcases mem_cons.1 ha with rfl | ha
  · rw [hf.params, map_append] at hsorts
    obtain ⟨houters, hx⟩ := append_inj' hsorts rfl
    exact (hiterates.ordered chain hkind outer houters).irrefl x (List.cons.inj hx).1
  · exact houter a ha chain hkind outer x hsorts

/-- Inside a block the orders of the loops around are irreflexive, in a structure that obeys what was said up to there. -/
theorem irreflexive_of_reaches (hlaid : L.Laid symbols) (h : Reaches L s b t c) (hplaced : ∀ u d, Reaches L s b u d → u.Placed k L)
    (hM : M.Obeys ρ t) (hs : s.contexts.Irreflexive M s.context) : t.contexts.Irreflexive M t.context := by
  induction h with
  | here => exact hs
  | @later s s1 t st rest c hrun h ih =>
    have hsorted := (hplaced s _ (.here _ _)).sorted
    have hgrows := (grows_statement L st).of_ok hrun
    refine ih (fun u d hu => hplaced u d (.later hrun hu)) hM ?_
    rw [hgrows.context]
    exact hs.extend hsorted.contexts hgrows.contexts hsorted.context
  | @alternative s s1 s2 t st rest b c p before after exits halternatives hbefore h ih =>
    have hsorted := (hplaced s _ (.here _ _)).sorted
    have hq := (quiet_alternativesOf L st).of_ok halternatives
    obtain ⟨hext, hcontext⟩ := extends_runAlternatives s1 (encodings L before) (grows_encodings L before) hbefore
    refine ih (fun u d hu => hplaced u d (.alternative halternatives hbefore hu)) hM ?_
    have hplace : (enterAlternative s1 p s2).context = s.context := hcontext.trans hq.context
    rw [hplace]
    exact hs.extend hsorted.contexts (hq.contexts.trans hext.contexts) hsorted.context
  | only h ih => exact ih (fun u d hu => hplaced u d (.only hu)) hM hs
  | @flatBody s s1 t var domain body rest c f hstart h ih =>
    have hM1 : M.Obeys ρ s1 := hM.of_grows (extends_of_reaches h).axioms
    have hinside : s1.contexts.Irreflexive M f.child := irreflexive_of_starts hlaid (hplaced s _ (.here _ _)) hs hstart hM1
    exact ih (fun u d hu => hplaced u d (.flatBody hstart hu)) hM hinside
  | @chainedBody s s1 s2 t var domain body rest c f inputs carries hstart hinputs h ih =>
    have hs0 := hplaced s _ (.here _ _)
    obtain ⟨hs1, hf, -⟩ := placed_loop hlaid hs0 hstart
    have hgrows := (grows_iterationInputs f).of_ok hinputs
    have hM1 : M.Obeys ρ s1 := hM.of_grows (hgrows.axioms.trans (extends_of_reaches h).axioms)
    refine ih (fun u d hu => hplaced u d (.chainedBody hstart hinputs hu)) hM ?_
    exact (irreflexive_of_starts hlaid hs0 hs hstart hM1).extend hs1.sorted.contexts hgrows.contexts hf.child

/-- What the encoding of a block comes to is nested, in a structure that obeys what was said up to there. -/
theorem nested_of_reaches (hlaid : L.Laid symbols) (hk : Loose k) (h : Reaches L s b t c) (hM : M.Obeys ρ t) (hs : s.Nested k L M) :
    t.Nested k L M := by
  obtain ⟨hplaced, hdistinct⟩ := placed_of_reaches hlaid hk h hs.placed hs.distinct
  have hall : ∀ u d, Reaches L s b u d → u.Placed k L := fun u d hu => (placed_of_reaches hlaid hk hu hs.placed hs.distinct).1
  exact ⟨hplaced, hdistinct, irreflexive_of_reaches hlaid h hall hM hs.irreflexive⟩

/-- A variable that is bound before a block is bound after it. -/
theorem contains_of_block {b : List Statement} (hdistinct : Distinct s.scope) (hrun : block L b s = .ok ((), t))
    (hx : s.scope.contains x) :
    t.scope.contains x := by
  obtain ⟨out, hout, hfollows⟩ := flows_block b _ s t (follows_self hdistinct) hrun
  rw [← Scope.contains_types] at hx ⊢
  rw [← hfollows.alike.contains]
  exact Flow.contains_block b hout hx

end Encode

/-! ## What variables hold of -/

/-- What a variable holds of the elements of a sort, at a position. -/
def Binding.on (b : Binding) (L : Layout) (M : Structure) (cs : Contexts) (ρ : M.Env) (sort : SortId) (es : List M.Elem) :
    Set M.Elem :=
  {e | M.sort e = sort ∧ b.value.Holds L M cs ρ es e}

/-- The value of a variable does not change in deeper positions, or while contexts are added. -/
theorem Session.Placed.holds_later {b : Binding} (h : s.Placed k L) (hb : s.scope.find? x = some b) {cs : Contexts}
    (htable : s.contexts.table <+: cs.table) {es es' : List M.Elem} (hes : es.map M.sort = s.paramSorts) (hext : es <+: es')
    (e : M.Elem) : b.value.Holds L M cs ρ es' e ↔ b.value.Holds L M s.contexts ρ es e := by
  obtain ⟨a, hsorted⟩ := h.scope x b hb
  obtain ⟨sort, hvalue⟩ : ∃ sort, b.value.Sorted k L s.symbols s.contexts .empty s.paramSorts sort := by
    cases a with
    | none => exact ⟨⟨0⟩, hsorted.fits ⟨0⟩ (.inl rfl)⟩
    | some sort => exact ⟨sort, hsorted.fits.sorted⟩
  have hagree : Structure.AgreeBelow s.symbols.predicates.length M.pred M.pred := fun _ _ => rfl
  have hlength : s.paramSorts.length ≤ es.length := by rw [← hes, length_map]
  exact holds_transfer h.sorted.contexts htable hagree h.sorted.declared hvalue hlength hext ρ ρ e

section Boundary

variable {cs : Contexts} {order : ChainOrder} {sort : SortId}

/-- At the start of an iteration: the value before the loop if nothing comes before, and else the one named by a neighbour. -/
theorem ObjValue.holds_boundary (h : cs.Sorted k symbols) (hparent : (cs.get child).parent = some parent)
    (hkind : (cs.get child).kind = .chained order) (hparams : (cs.get child).paramSorts = (cs.get parent).paramSorts ++ [sort])
    (hirrefl : cs.Irreflexive M parent) {es : List M.Elem} (hes : es.map M.sort = (cs.get parent).paramSorts)
    (before inside : ObjValue) (x e : M.Elem) :
    (boundary child before inside).Holds L M cs ρ (es ++ [x]) e ↔
      (¬ ∃ p, M.sort p = sort ∧ M.pred order.before (es ++ [p, x])) ∧ before.Holds L M cs ρ (es ++ [x]) e ∨
        ∃ q, M.sort q = sort ∧ M.pred order.justBefore (es ++ [q, x]) ∧ inside.Holds L M cs ρ (es ++ [q]) e := by
  have hlevel : (cs.get child).level = es.length + 1 := by
    rw [(h.get child).level, hparams, ← hes]
    simp
  have hsort : (cs.get child).paramSorts.getD es.length ⟨0⟩ = sort := by
    rw [hparams, ← hes]
    simp
  rw [Holds]
  simp only [hkind, ContextKind.chained.injEq, exists_eq_left', hlevel, Nat.add_sub_cancel, take_left, hsort,
    h.before_own hparent hkind hparams hirrefl hes]
  simp

variable {es : List M.Elem} {live : M.Elem → Prop} (hordered : order.Orders M sort es live)

include hordered

/-- The neighbour before an iteration is the only one. -/
theorem ChainOrder.Orders.justBefore_unique {x : M.Elem} (hx : M.sort x = sort) (hy : M.sort y = sort) (hz : M.sort z = sort)
    (hyx : M.pred order.justBefore (es ++ [y, x])) (hzx : M.pred order.justBefore (es ++ [z, x])) : z = y := by
  obtain ⟨hbefore, hnone⟩ := (hordered.next y hy x hx).1 hyx
  obtain ⟨hbefore', hnone'⟩ := (hordered.next z hz x hx).1 hzx
  by_contra hne
  have hlivey := (hordered.ordered y hy x hx hbefore).1
  have hlivez := (hordered.ordered z hz x hx hbefore').1
  rcases hordered.total z hz y hy hlivez hlivey hne with hzy | hyz
  · exact hnone' ⟨y, hy, hzy, hbefore⟩
  · exact hnone ⟨z, hz, hyz, hbefore'⟩

end Boundary

namespace Encode

/-! ## Steps for carried variables -/

/-- What the carried variables are bound to at the start of an iteration. -/
theorem find?_carryIns {f : Encode.LoopFrame} {x : String} : ∀ {names : List String} {s t : Session} {carries : List Carry},
    names.Nodup → names.mapM (carryIn L f) s = .ok (carries, t) → t.contexts = s.contexts ∧
      (x ∉ names → t.scope.find? x = s.scope.find? x) ∧
      (x ∈ names → ∃ before sort p, s.scope.find? x = some before ∧ L.sortOf before.type = .ok (some sort) ∧
        ⟨x, p, sort, before.type⟩ ∈ carries ∧ t.scope.find? x =
          some { before with value := .boundary f.child before.value (.pred p (s.contexts.level f.child)) })
  | [], _, _, _, _, hrun => by
    cases mapM_nil_ok.1 hrun
    exact ⟨rfl, fun _ => rfl, fun hx => by cases hx⟩
  | name :: rest, s, _, _, hnodup, hrun => by
    obtain ⟨carry, s1, h1, cs, t', h2, h3⟩ := mapM_cons_ok.1 hrun
    cases h3
    obtain ⟨hname, hrest⟩ := nodup_cons.1 hnodup
    obtain ⟨htable, hkept, hbound⟩ := find?_carryIns (x := x) hrest h2
    obtain ⟨before, sort, p, s1', hbefore, hsort, hp, rfl, rfl⟩ := carryIn_ok h1
    have hq := (quiet_freshPred ("carry_" ++ name) [sort]).of_ok hp
    have hscope : ∀ b, (s1'.bind name b).scope.find? x = if x = name then some b else s.scope.find? x := fun b => by
      rw [Session.bind, ← hq.scope]
      exact find?_insert s1'.scope name x b
    have hcontexts : ∀ b, (s1'.bind name b).contexts = s.contexts := fun _ => hq.table
    rw [hcontexts] at htable hbound
    refine ⟨htable, by grind, fun hx => ?_⟩
    by_cases hxn : x = name
    · subst hxn
      rw [hkept hname, hscope, if_pos rfl]
      exact ⟨before, sort, p, hbefore, hsort, mem_cons_self, rfl⟩
    · obtain ⟨before', sort', p', hb, hs', hmem, ht⟩ := hbound ((mem_cons.1 hx).resolve_left hxn)
      rw [hscope, if_neg hxn] at hb
      exact ⟨before', sort', p', hb, hs', mem_cons_of_mem _ hmem, ht⟩

/-- Giving a carried variable its value after a loop binds no other one. -/
theorem find?_exitValue (hrun : exitValue L f order pre body name s = .ok ((), t)) (hx : x ≠ name) :
    t.scope.find? x = s.scope.find? x := by
  obtain ⟨-, rfl⟩ | ⟨before, after, type, v, s1, -, -, -, hq, rfl, -⟩ := exitValue_ok hrun
  · rfl
  · rw [Session.bind, ← hq.scope]
    exact (find?_insert s1.scope name x _).trans (if_neg hx)

theorem find?_exitValues {names : List String} (hrun : names.forM (exitValue L f order pre body) s = .ok ((), t)) (hx : x ∉ names) :
    t.scope.find? x = s.scope.find? x := by
  refine forM_keeps (P := fun u => u.scope.find? x = s.scope.find? x) (fun name hname u v hs h => ?_) rfl hrun
  have hne : x ≠ name := fun heq => hx (heq ▸ hname)
  exact (find?_exitValue h hne).trans hs

/-- The step that gives a carried variable its value after a loop. -/
theorem exists_exitValue :
    ∀ {names : List String} {s : Session}, names.Nodup → x ∈ names → names.forM (exitValue L f order pre body) s = .ok ((), t) →
      ∃ s0 t0, s.Grows s0 ∧ exitValue L f order pre body x s0 = .ok ((), t0) ∧ t0.Grows t ∧
        t.scope.find? x = t0.scope.find? x
  | [], _, _, hx, _ => by cases hx
  | name :: rest, s, hnodup, hx, hrun => by
    obtain ⟨s1, h1, h2⟩ := forM_cons_ok.1 hrun
    obtain ⟨hname, hrest⟩ := nodup_cons.1 hnodup
    rcases mem_cons.1 hx with rfl | hx
    · exact ⟨s, s1, .refl s, h1, (Keeps.forM (fun n => grows_exitValue f order pre body n) rest).of_ok h2, find?_exitValues h2 hname⟩
    · obtain ⟨s0, t0, hg, h, hg', hfind⟩ := exists_exitValue hrest hx h2
      exact ⟨s0, t0, ((grows_exitValue f order pre body name).of_ok h1).trans hg, h, hg', hfind⟩

/-! ## Carried variables in a run -/

namespace ChainedRun

variable {f : LoopFrame} (r : ChainedRun L f s t) {name : String} {es : List M.Elem}

variable {before after : Binding}

/-- A variable that the body reads first is bound inside the loop to a value that tells the first iteration from the others. Any
other one is bound as before the loop. -/
theorem exists_begins (hnodup : f.plan.boundary.Nodup) (hbefore : s.scope.find? name = some before) :
    ∃ begins, r.ready.scope.find? name = some begins ∧ (name ∉ f.plan.boundary → begins = before) ∧
      (name ∈ f.plan.boundary → ∃ sort p, L.sortOf before.type = .ok (some sort) ∧ ⟨name, p, sort, before.type⟩ ∈ r.carries ∧
        begins = { before with value := .boundary f.child before.value (.pred p (s.contexts.level f.child)) }) := by
  obtain ⟨s1, h1, h2⟩ := iterationInputs_ok r.starts
  have hq : (s.inContext f.child).Quiet s1 :=
    (Keeps.mapM quiet_inputSlot _).of_ok h1
  obtain ⟨-, hkept, hbound⟩ := find?_carryIns (x := name) hnodup h2
  rw [hq.scope, hq.table] at hbound
  rw [hq.scope] at hkept
  by_cases hname : name ∈ f.plan.boundary
  · obtain ⟨before', sort, p, hfound, hsort, hmem, hready⟩ := hbound hname
    cases hfound.symm.trans hbefore
    exact ⟨_, hready, fun hnot => absurd hname hnot, fun _ => ⟨sort, p, hsort, hmem, rfl⟩⟩
  · exact ⟨before, (hkept hname).trans hbefore, fun _ => rfl, fun h => absurd h hname⟩

/-- The positions of the body at its end. -/
theorem sorts_inner {x : M.Elem} (h : f.Placed k L s) (hes : s.Runs M es) (hx : M.sort x = f.sort) :
    (es ++ [x]).map M.sort = r.inner.paramSorts := by
  have hcontext : r.inner.context = f.child := (h.body.of_ok r.body).context
  rw [Session.paramSorts, hcontext, Contexts.get_extend (r.made_inner h).contexts h.frame.child, h.frame.params, map_append,
    hes.sorts, map_singleton, hx]

variable (h : f.Placed k L s) (hinner : r.inner.Placed k L) (hM : M.Obeys ρ t) (hes : s.Runs M es)

include h hinner hM hes

/-- The predicate of a carried variable names its value at the end of an iteration. -/
theorem pred_of_carry (hcarry : carry ∈ r.carries) (hafter : r.inner.scope.find? carry.name = some after) (hy : M.sort y = f.sort)
    (hlive : s.contexts.Live M f.child (es ++ [y])) (he : M.sort e = carry.sort) :
    M.pred carry.pred (es ++ [y] ++ [e]) ↔ after.value.Holds L M r.inner.contexts ρ (es ++ [y]) e := by
  obtain ⟨⟨⟩, s1, h1, h2⟩ := bind_ok.1 r.threads
  obtain ⟨s0, t0, hq, hthread, hq1⟩ := exists_step_of_forM (fun _ => quiet_threadCarry L _ _) h1 hcarry
  have hq2 := (Keeps.forM (fun _ => quiet.threadSlot) _).of_ok h2
  obtain ⟨hnone, -⟩ | ⟨after', type, hafter', -, haxiom⟩ := threadCarry_ok hthread
  · cases hnone.symm.trans hafter
  cases hafter'.symm.trans hafter
  obtain ⟨a, hsorted⟩ := hinner.scope carry.name after hafter
  have hruns : s0.Runs M (es ++ [y]) := by
    have hcontexts : s.contexts.table <+: s0.contexts.table := (r.made_inner h).contexts.trans hq.contexts
    exact runs_inside h.session.sorted h.frame hcontexts hq.context (hq.guards.trans (r.guards_inner h)) hes hy hlive
  have hmembers := (obeys_sameMembers (hsorted.settled.mono (Nat.zero_le _)) haxiom).1
    (hM.of_grows ((hq1.trans hq2).axioms.trans r.extends_tied.axioms))
  have hcontexts : s0.contexts = r.inner.contexts := hq.table
  rw [hmembers.2 _ hruns e he, hcontexts]

/-- A carried variable that the body reads first starts an iteration with the value that it had at the end of the one before, and
the first iteration with the value from before the loop. -/
theorem start_of_carried {x : M.Elem} (hirrefl : s.contexts.Irreflexive M s.context)
    (hordered : r.order.Orders M f.sort es fun x => s.contexts.Live M f.child (es ++ [x]))
    (hbefore : s.scope.find? name = some before) (hcarry : ⟨name, p, sort, before.type⟩ ∈ r.carries)
    (hafter : r.inner.scope.find? name = some after) (hx : M.sort x = f.sort) : (M.pred r.order.first (es ++ [x]) →
      { before with value := .boundary f.child before.value (.pred p (s.contexts.level f.child)) }.on L M r.ready.contexts ρ sort
        (es ++ [x]) = before.on L M s.contexts ρ sort es) ∧
    ∀ y, M.sort y = f.sort → M.pred r.order.justBefore (es ++ [y, x]) →
      { before with value := .boundary f.child before.value (.pred p (s.contexts.level f.child)) }.on L M r.ready.contexts ρ sort
        (es ++ [x]) = after.on L M r.inner.contexts ρ sort (es ++ [y]) := by
  have htable : r.ready.contexts = s.contexts := (sorted_iterationInputs h.session h.frame r.kind r.starts).table
  have hlevel : s.contexts.level f.child = (es ++ [x]).length := by
    rw [h.session.sorted.contexts.level_eq, h.frame.params, ← hes.sorts]
    simp
  have hboundary := holds_boundary (L := L) (ρ := ρ) h.session.sorted.contexts h.frame.parent r.kind h.frame.params hirrefl
    hes.sorts before.value (.pred p (s.contexts.level f.child)) x
  constructor
  · intro hfirst
    obtain ⟨-, hnone⟩ := (hordered.first x hx).1 hfirst
    have hnext : ∀ q, M.sort q = f.sort → ¬ M.pred r.order.justBefore (es ++ [q, x]) := fun q hq hqx =>
      hnone ⟨q, hq, ((hordered.next q hq x hx).1 hqx).1⟩
    ext e
    refine and_congr_right fun _ => ?_
    rw [htable, hboundary, h.session.holds_later hbefore (prefix_refl _) hes.sorts (prefix_append es [x])]
    simp only [hnone, not_false_eq_true, true_and, or_iff_left_iff_imp]
    rintro ⟨q, hq, hqx, -⟩
    exact absurd hqx (hnext q hq)
  · intro y hy hyx
    have hbefore' := ((hordered.next y hy x hx).1 hyx).1
    have hlive := (hordered.ordered y hy x hx hbefore').1
    have htake : ∀ q : M.Elem, (es ++ [q]).take (s.contexts.level f.child) = es ++ [q] := fun q =>
      take_of_length_le (by rw [hlevel]; simp)
    ext e
    refine and_congr_right fun he => ?_
    rw [htable, hboundary]
    simp only [Holds, htake]
    rw [← r.pred_of_carry h hinner hM hes hcarry hafter hy hlive he]
    constructor
    · rintro (⟨hnone, -⟩ | ⟨q, hq, hqx, hp⟩)
      · exact absurd ⟨y, hy, hbefore'⟩ hnone
      · rw [← hordered.justBefore_unique hx hy hq hyx hqx]
        exact hp
    · exact fun hp => .inr ⟨y, hy, hyx, hp⟩

omit hes in
/-- After the loop a carried variable has the value that it had at the end of the last iteration, and without iterations the one
from before the loop. A variable whose type has no sort is bound to the empty set. -/
theorem end_of_carried (hnodup : f.plan.carried.Nodup) (hname : name ∈ f.plan.carried)
    (hbefore : s.scope.find? name = some before) (hafter : r.inner.scope.find? name = some after) :
    ∃ later, t.scope.find? name = some later ∧ before.type.join L.graph after.type = .ok later.type ∧
      (L.sortOf later.type = .ok none → later.value = .empty) ∧
      ∀ sort, L.sortOf later.type = .ok (some sort) → ∀ es, s.Runs M es →
        ((∀ x, M.sort x = f.sort → ¬ s.contexts.Live M f.child (es ++ [x])) →
          later.on L M t.contexts ρ sort es = before.on L M s.contexts ρ sort es) ∧
        ∀ x, M.sort x = f.sort → M.pred r.order.last (es ++ [x]) →
          later.on L M t.contexts ρ sort es = after.on L M r.inner.contexts ρ sort (es ++ [x]) := by
  obtain ⟨s0, t0, hgrows, hexit, hgrows', hfind⟩ := exists_exitValue hnodup hname r.values
  obtain ⟨hnone, -⟩ | ⟨before', after', type, v, s1, hbefore', hafter', hjoin, -, rfl, hcases⟩ := exitValue_ok hexit
  · rcases hnone with hnone | hnone
    · cases hnone.symm.trans hbefore
    · cases hnone.symm.trans hafter
  cases hbefore'.symm.trans hbefore
  cases hafter'.symm.trans hafter
  have hlater : t.scope.find? name = some ⟨v, type, before.isLocal && after.isLocal⟩ :=
    hfind.trans ((find?_insert s1.scope name name _).trans (if_pos rfl))
  refine ⟨_, hlater, hjoin, ?_⟩
  obtain ⟨hsort, rfl, -⟩ | ⟨sort, p, s2, hsort, hp, haxiom, rfl⟩ := hcases
  · exact ⟨fun _ => rfl, fun sort hsome => by cases hsort.symm.trans hsome⟩
  refine ⟨fun hnone => (by cases hsort.symm.trans hnone), fun sort' hsort' es hes => ?_⟩
  cases hsort.symm.trans hsort'
  have hq := (quiet_freshPred ("after_" ++ name) [sort]).of_ok hp
  have hqtied := (quiet_threads L f _ _ _ _ _).of_ok r.threads
  have hqexits := (Keeps.mapM (fun input : SortId × Slot => quiet.exitSlot) _).of_ok r.exits
  have hgrows2 : r.exited.Grows s2 := (r.exited.grows_atSnapshot _).trans (hgrows.trans hq.toGrows)
  have hext : r.inner.Extends s2 := (r.inner.extends_place _ f.child r.entry s.scope).trans (hqtied.extends.trans
    ((r.tied.extends_place _ s.context _ _).trans (hqexits.extends.trans hgrows2.extends)))
  have hruns : s2.Runs M es := hes.beside h.session.sorted
    ⟨(r.made_inner h).trans hext, hgrows2.context.trans hqexits.context⟩
    (hgrows2.guards.trans (hqexits.guards.trans (hqtied.guards.trans (r.guards_inner h))))
  obtain ⟨a, hsortedb⟩ := h.session.scope name before hbefore
  obtain ⟨b, hsorteda⟩ := hinner.scope name after hafter
  have hfacts := ((obeys_lastValue (hsortedb.settled.mono (Nat.zero_le _)) (hsorteda.settled.mono (Nat.zero_le _)) haxiom).1
    (hM.of_grows hgrows'.axioms)).2 es hruns
  have hlive : ∀ x, s2.contexts.Live M f.child (es ++ [x]) ↔ s.contexts.Live M f.child (es ++ [x]) := fun x =>
    Contexts.live_extend ((r.made_inner h).trans hext).contexts h.frame.child
  have htake : es.take s2.level = es := by
    have hcontext : s2.context = s.context := hgrows2.context.trans hqexits.context
    refine take_of_length_le ?_
    rw [Session.level, hcontext, Contexts.level_extend ((r.made_inner h).trans hext).contexts h.session.sorted.context,
      h.session.sorted.contexts.level_eq, ← length_map (f := M.sort), hes.sorts]
    rfl
  constructor
  · intro hnothing
    ext e
    refine and_congr_right fun he => ?_
    have hvalue := hfacts.1 (fun hsome => hsome.elim fun x hx => hnothing x hx.1 ((hlive x).1 hx.2)) e he
    rw [Holds, htake, hvalue, h.session.holds_later hbefore ((r.made_inner h).trans hext).contexts hes.sorts
      (prefix_refl es)]
  · intro x hx hlast
    ext e
    refine and_congr_right fun he => ?_
    have hvalue := hfacts.2 x hx hlast e he
    rw [Holds, htake, hvalue, hinner.holds_later hafter hext.contexts (r.sorts_inner h hes hx) (prefix_refl _)]

end ChainedRun

end Encode

end StoreCheck
