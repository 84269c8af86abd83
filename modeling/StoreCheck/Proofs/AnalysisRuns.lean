import StoreCheck.Proofs.Effects

/-!
# Two runs of the effect analysis over the same block

A loop is analysed more than once: with the block that it is in, and again when it is encoded. The runs may start from types
that are only alike. `tracks_runBlock` says that if both succeed, what the first one notes as written the second one notes too,
and that they end with types that are alike again.
-/

namespace StoreCheck

open List TypeEnv

variable {merged : VarMap ObjType} {n : String} {rest : List (String × ObjType)} {t : ObjType}

theorem forall_right_of_forall₂ {α β : Type} {R : α → β → Prop} {P : β → Prop} (hR : ∀ a b, R a b → P b) {l : List α}
    {m : List β} (h : List.Forall₂ R l m) : ∀ b ∈ m, P b := by
  induction h with
  | nil => simp
  | cons hab _ ih => exact forall_mem_cons.2 ⟨hR _ _ hab, ih⟩

theorem forall_left_of_forall₂ {α β : Type} {R : α → β → Prop} {P : α → Prop} (hR : ∀ a b, R a b → P a) {l : List α}
    {m : List β} (h : List.Forall₂ R l m) : ∀ a ∈ l, P a :=
  forall_right_of_forall₂ (fun a b hab => hR b a hab) h.flip

namespace Analysis

/-! ## Merged types -/

section Merging

variable (g : ClassGraph)

theorem mergeTypes_cons_none (h : VarMap.find? merged n = none) :
    mergeTypes g merged ((n, t) :: rest) = mergeTypes g (VarMap.insert merged n t) rest := by
  simp [mergeTypes, h]

theorem mergeTypes_cons_some (h : VarMap.find? merged n = some before) :
    mergeTypes g merged ((n, t) :: rest) = mergeTypes g (VarMap.insert merged n (before.merge g t)) rest := by
  simp [mergeTypes, h]

/-- Looking up a variable after the types of one more path have been merged in. -/
theorem signatureOf?_mergeTypes : ∀ (types merged : TypeEnv) (x : String), types.Distinct →
    (mergeTypes g merged types).signatureOf? x = g.joinPath (merged.signatureOf? x) (types.signatureOf? x)
  | [], _, _, _ => (g.joinPath_none _).symm
  | (n, t) :: rest, merged, x, h => by
    have htail : signatureOf? rest n = none := by
      unfold signatureOf?
      rw [h.find?_tail]
      rfl
    have hx : signatureOf? ((n, t) :: rest) x = if x = n then some t.signature else signatureOf? rest x := by
      unfold signatureOf?
      rw [VarMap.find?_cons]
      split <;> rfl
    cases hm : VarMap.find? merged n with
    | none =>
      rw [mergeTypes_cons_none g hm, signatureOf?_mergeTypes rest _ x h.tail, hx, signatureOf?_insert]
      by_cases hn : x = n
      · subst hn
        rw [htail, g.joinPath_none, if_pos rfl, if_pos rfl]
        simp [signatureOf?, hm, ClassGraph.joinPath]
      · rw [if_neg hn, if_neg hn]
    | some before =>
      rw [mergeTypes_cons_some g hm, signatureOf?_mergeTypes rest _ x h.tail, hx, signatureOf?_insert]
      by_cases hn : x = n
      · subst hn
        rw [htail, g.joinPath_none, if_pos rfl, if_pos rfl]
        simp [signatureOf?, hm, ClassGraph.joinPath, ObjType.merge]
      · rw [if_neg hn, if_neg hn]

theorem distinct_mergeTypes : ∀ (types merged : TypeEnv), merged.Distinct → (mergeTypes g merged types).Distinct
  | [], _, h => h
  | (n, t) :: rest, _, h => by
    refine distinct_mergeTypes rest _ ?_
    dsimp only
    split
    · exact h.insert n _
    · exact h.insert n _

/-- Looking up a variable after the types of all paths have been merged. -/
theorem signatureOf?_mergeAll (x : String) : ∀ (exits : List (TypeEnv × VarMap Bool)) (merged : TypeEnv),
    (∀ e ∈ exits, VarMap.Distinct e.1) →
    signatureOf? (exits.foldl (fun m e => mergeTypes g m e.1) merged) x =
      exits.foldl (fun acc e => g.joinPath acc (signatureOf? e.1 x)) (merged.signatureOf? x)
  | [], _, _ => rfl
  | e :: rest, merged, h => by
    rw [foldl_cons, foldl_cons, signatureOf?_mergeAll x rest _ fun e' he => h e' (mem_cons_of_mem _ he),
      signatureOf?_mergeTypes g e.1 merged x (h e mem_cons_self)]

theorem distinct_mergeAll : ∀ (exits : List (TypeEnv × VarMap Bool)) (merged : TypeEnv), merged.Distinct →
    VarMap.Distinct (exits.foldl (fun m e => mergeTypes g m e.1) merged)
  | [], _, h => h
  | e :: rest, merged, h => distinct_mergeAll rest _ (distinct_mergeTypes g e.1 merged h)

end Merging

/-! ## Runs side by side -/

/-- The types are alike, and what the first analysis has noted as written the second one has too. -/
structure Within (a b : Analysis) : Prop where
  types : a.types.Alike b.types
  left : VarMap.Distinct a.types
  right : VarMap.Distinct b.types
  writes : ∀ d, d ∈ a.effects.writes → d ∈ b.effects.writes

/-- If both steps succeed, what they end with is related as it was before, and so are their results. -/
def Tracks {α β : Type} (Q : α → β → Prop) (x : Analyze α) (y : Analyze β) : Prop :=
  ∀ a b a' b' p q, Within a b → x a = .ok (p, a') → y b = .ok (q, b') → Within a' b' ∧ Q p q

section Rules

variable {α β γ δ : Type} {Q : α → β → Prop} {P : γ → δ → Prop} {x : Analyze α} {y : Analyze β}

theorem Tracks.bind {f : α → Analyze γ} {g : β → Analyze δ} (h : Tracks Q x y)
    (hf : ∀ p q, Q p q → Tracks P (f p) (g q)) : Tracks P (x >>= f) (y >>= g) := by
  intro a b a' b' p q hab hx hy
  obtain ⟨p', a1, hx1, hx2⟩ := bind_ok.1 hx
  obtain ⟨q', b1, hy1, hy2⟩ := bind_ok.1 hy
  obtain ⟨hab1, hq⟩ := h _ _ _ _ _ _ hab hx1 hy1
  exact hf p' q' hq _ _ _ _ _ _ hab1 hx2 hy2

theorem Tracks.pure {p : α} {q : β} (h : Q p q) : Tracks Q (pure p) (pure q) := by
  intro a b a' b' p' q' hab hx hy
  cases pure_ok.1 hx
  cases pure_ok.1 hy
  exact ⟨hab, h⟩

theorem Tracks.get : Tracks Within get get := by
  intro a b a' b' p q hab hx hy
  cases get_ok.1 hx
  cases get_ok.1 hy
  exact ⟨hab, hab⟩

theorem Tracks.lift {x : Except TypeError α} {y : Except TypeError β} (h : ∀ p q, x = .ok p → y = .ok q → Q p q) :
    Tracks Q (liftM x) (liftM y) := by
  intro a b a' b' p q hab hx hy
  obtain ⟨p', hp, hx⟩ := lift_ok.1 hx
  obtain ⟨q', hq, hy⟩ := lift_ok.1 hy
  cases hx
  cases hy
  exact ⟨hab, h _ _ hp hq⟩

theorem Tracks.modify (h : ∀ a b, Within a b → Within (f a) (g b)) : Tracks (fun _ _ => True) (modify f) (modify g) := by
  intro a b a' b' p q hab hx hy
  cases modify_ok.1 hx
  cases modify_ok.1 hy
  exact ⟨h a b hab, trivial⟩

/-- Steps that only read keep the relation. -/
theorem Tracks.of_reads (hx : Keeps Reads x) (hy : Keeps Reads y) : Tracks (fun _ _ => True) x y := by
  intro a b a' b' p q hab hxa hyb
  have ha := hx.of_ok hxa
  have hb := hy.of_ok hyb
  refine ⟨⟨?_, ?_, ?_, fun d hd => (hb.writes d).2 (hab.writes d ((ha.writes d).1 hd))⟩, trivial⟩
  · rw [ha.types, hb.types]
    exact hab.types
  · rw [ha.types]
    exact hab.left
  · rw [hb.types]
    exact hab.right

theorem Tracks.forM (h : ∀ a, Tracks (fun _ _ => True) (f a) (g a)) : ∀ l : List α, Tracks (fun _ _ => True) (l.forM f) (l.forM g)
  | [] => .pure trivial
  | a :: l => .bind (h a) fun _ _ _ => .forM h l

end Rules

theorem tracks_note (d : Domain) (operation : Operation) (l l' : Bool) :
    Tracks (fun _ _ => True) (note d operation l) (note d operation l') := by
  refine .modify fun a b h => ⟨h.types, h.left, h.right, fun d' hd => ?_⟩
  refine (EffectMap.mem_domainsWith_add b.effects d d' operation l' _).2 ?_
  exact ((EffectMap.mem_domainsWith_add a.effects d d' operation l _).1 hd).imp_left (h.writes d')

theorem tracks_bind (name : String) {u : ObjType} (l l' : Bool) (h : t.signature = u.signature) :
    Tracks (fun _ _ => True) (bind name t l) (bind name u l') :=
  .modify fun _ _ hab => ⟨hab.types.insert name h, hab.left.insert name t, hab.right.insert name u, hab.writes⟩

theorem tracks_typeOf (store : Store) (e : ObjExpr) :
    Tracks (fun t u => t.signature = u.signature) (typeOf store e) (typeOf store e) :=
  .bind .get fun _ _ hab => .lift fun _ _ ht hu => (infer_signature_eq hab.types ht hu).symm

theorem tracks_readSet (store : Store) (inFormula : Bool) (e : ObjExpr) :
    Tracks (fun _ _ => True) (readSet store inFormula e) (readSet store inFormula e) :=
  .of_reads (reads_readSet store inFormula e) (reads_readSet store inFormula e)

/-! ## Statements side by side -/

theorem tracks_deleteObjects (store : Store) (e : ObjExpr) :
    Tracks (fun _ _ => True) (deleteObjects store e) (deleteObjects store e) := by
  refine .bind (tracks_readSet store false e) fun l l' _ => .bind (tracks_typeOf store e) fun t u htu => ?_
  rw [htu]
  exact .bind (.forM (fun c => tracks_note (.ofClass c) .delete l l') _) fun _ _ _ =>
    .forM (fun r : Relation => tracks_note (.ofRelation r.id) .delete false false) _

theorem tracks_updateTuples (store : Store) (source : ObjExpr) (relation : String) (target : ObjExpr)
    (operation : Operation) :
    Tracks (fun _ _ => True) (updateTuples store source relation target operation)
      (updateTuples store source relation target operation) := by
  refine .bind (tracks_readSet store false source) fun _ _ _ =>
    .bind (tracks_readSet store false target) fun _ _ _ => .bind (tracks_typeOf store source) fun t u htu => ?_
  rw [htu]
  refine .bind (.lift (Q := fun r r' => r = r') fun r r' hr hr' => ?_) fun r r' hrr => ?_
  · rw [hr] at hr'
    cases hr'
    rfl
  · subst hrr
    exact tracks_note _ _ _ _

/-- The ends of two paths over the same block. -/
structure Paired (e f : TypeEnv × VarMap Bool) : Prop where
  types : TypeEnv.Alike e.1 f.1
  left : VarMap.Distinct e.1
  right : VarMap.Distinct f.1

theorem alike_mergeAll (g : ClassGraph) {es fs : List (TypeEnv × VarMap Bool)} (h : List.Forall₂ Paired es fs) :
    TypeEnv.Alike (es.foldl (fun m e => mergeTypes g m e.1) []) (fs.foldl (fun m e => mergeTypes g m e.1) []) := by
  intro x
  have hes : ∀ e ∈ es, VarMap.Distinct e.1 := forall_left_of_forall₂ (fun _ _ hp => hp.left) h
  have hfs : ∀ f ∈ fs, VarMap.Distinct f.1 := forall_right_of_forall₂ (fun _ _ hp => hp.right) h
  rw [signatureOf?_mergeAll g x es _ hes, signatureOf?_mergeAll g x fs _ hfs]
  clear hes hfs
  generalize signatureOf? [] x = start
  induction h generalizing start with
  | nil => rfl
  | cons hp _ ih => rw [foldl_cons, foldl_cons, hp.types x, ih]

theorem tracks_runPaths (he : Within entry entry') :
    ∀ {xs ys : List (Analyze Unit)}, List.Forall₂ (Tracks fun _ _ => True) xs ys →
      Tracks (List.Forall₂ Paired) (runPaths entry xs) (runPaths entry' ys)
  | _, _, .nil => .pure .nil
  | _, _, .cons hxy hrest => by
    refine .bind (.modify fun a b h => ⟨he.types, he.left, he.right, h.writes⟩) fun _ _ _ =>
      .bind hxy fun _ _ _ => .bind .get fun a b hab =>
      .bind (tracks_runPaths he hrest) fun es fs hes => .pure (.cons ⟨hab.types, hab.left, hab.right⟩ hes)

theorem tracks_alternatives (store : Store) (h : List.Forall₂ (Tracks fun _ _ => True) xs ys) :
    Tracks (fun _ _ => True) (alternatives store xs) (alternatives store ys) :=
  .bind .get fun _ _ hab => .bind (tracks_runPaths hab h) fun _ _ hes =>
    .modify fun _ _ h' => ⟨alike_mergeAll store.graph hes, distinct_mergeAll _ _ _ VarMap.distinct_nil,
      distinct_mergeAll _ _ _ VarMap.distinct_nil, h'.writes⟩

theorem tracks_carryOut {inner inner' : Analysis} (store : Store) (hi : Within inner inner') (name : String) :
    Tracks (fun _ _ => True) (carryOut store inner name) (carryOut store inner' name) := by
  refine .bind .get fun a b hab => ?_
  cases ha : VarMap.find? a.types name with
  | none =>
    rw [hab.types.find?_none ha]
    exact .pure trivial
  | some before =>
    obtain ⟨before', hb, hs⟩ := hab.types.find? ha
    rw [hb]
    cases hc : VarMap.find? inner.types name with
    | none =>
      rw [hi.types.find?_none hc]
      exact .pure trivial
    | some after =>
      obtain ⟨after', hd, hs'⟩ := hi.types.find? hc
      rw [hd]
      refine tracks_bind name _ _ ?_
      unfold ObjType.merge
      rw [hs, hs']

theorem tracks_loop (store : Store) (var : String) (domain : ObjExpr) (assigned : List String) (order : LoopKind)
    (h : Tracks (fun _ _ => True) body body) :
    Tracks (fun _ _ => True) (loop store var domain assigned order body) (loop store var domain assigned order body) := by
  refine .bind (tracks_readSet store false domain) fun _ _ _ => .bind (tracks_typeOf store domain) fun t u htu =>
    .bind .get fun before before' hbefore => .bind (tracks_bind var _ _ htu) fun _ _ _ =>
    .bind h fun _ _ _ => .bind .get fun inner inner' hinner =>
    .bind (.modify fun a b hab => ⟨hbefore.types, hbefore.left, hbefore.right, hab.writes⟩) fun _ _ _ => ?_
  cases order with
  | flat => exact .pure trivial
  | chained => exact .forM (fun name => tracks_carryOut store hinner name) _

mutual

theorem tracks_runStatement (store : Store) :
    ∀ s : Statement, Tracks (fun _ _ => True) (runStatement store s) (runStatement store s)
  | .assign _ value => by
    exact .bind (tracks_readSet store false value) fun _ _ _ => .bind (tracks_typeOf store value) fun t u htu =>
      tracks_bind _ _ _ htu
  | .create className var => by
    refine .bind (.lift (Q := fun c c' => c = c') fun c c' hc hc' => ?_) fun c c' hcc => ?_
    · rw [hc] at hc'
      cases hc'
      rfl
    · subst hcc
      refine .bind (tracks_note _ _ _ _) fun _ _ _ => ?_
      cases var with
      | none => exact .pure trivial
      | some name => exact tracks_bind name _ _ rfl
  | .delete objects => tracks_deleteObjects store objects
  | .createTuple source relation target => tracks_updateTuples store source relation target _
  | .deleteTuple source relation target => tracks_updateTuples store source relation target _
  | .ifElse condition thenBlock elseBlock => by
    exact .bind (.of_reads (reads_readFormula store condition) (reads_readFormula store condition)) fun _ _ _ =>
      tracks_alternatives store (.cons (tracks_runBlock store thenBlock) (.cons (tracks_runBlock store elseBlock) .nil))
  | .either branches => tracks_alternatives store (tracks_runEach store branches)
  | .forEach var domain body order => by
    exact tracks_loop store var domain (Block.assigned body) order (tracks_runBlock store body)

theorem tracks_runBlock (store : Store) :
    ∀ b : List Statement, Tracks (fun _ _ => True) (runBlock store b) (runBlock store b)
  | [] => by rw [runBlock]; exact .pure trivial
  | s :: rest => by
    exact .bind (tracks_runStatement store s) fun _ _ _ => tracks_runBlock store rest

theorem tracks_runEach (store : Store) :
    ∀ bs : List (List Statement), List.Forall₂ (Tracks fun _ _ => True) (runEach store bs) (runEach store bs)
  | [] => by rw [runEach]; exact .nil
  | b :: rest => by
    exact .cons (tracks_runBlock store b) (tracks_runEach store rest)

end

end Analysis

end StoreCheck
