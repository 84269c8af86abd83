import StoreCheck.Proofs.Effects

/-!
# Errors that never come up

`Spares bad x` says that the result `x` is none of the errors `bad`, and `Avoids bad x s` the same of a step `x` from the state
`s`; a sequence avoids errors if its steps do.

Typing and the effect analysis refuse types without a common supertype. They never give the error that a single type has classes
of several hierarchies (`TypeError.MixesHierarchies`): the texts of signatures that they give are lists in braces.
-/

namespace StoreCheck

open List

/-- The result is none of the errors. -/
def Spares {ε α : Type} (bad : ε → Prop) (x : Except ε α) : Prop := ∀ e, bad e → x ≠ .error e

/-- From the state the step ends in none of the errors. -/
def Avoids {σ ε α : Type} (bad : ε → Prop) (x : StateT σ (Except ε) α) (s : σ) : Prop := Spares bad (x s)

section Steps

variable {σ ε α β : Type} {bad : ε → Prop} {s : σ}

namespace Spares

theorem ok (a : α) : Spares bad (.ok a) := fun _ _ h => by cases h

theorem error {e : ε} (he : ¬ bad e) : Spares bad (.error e : Except ε α) := by
  intro e' hbad h
  cases h
  exact he hbad

theorem bind {x : Except ε α} {f : α → Except ε β} (hx : Spares bad x) (hf : ∀ a, x = .ok a → Spares bad (f a)) :
    Spares bad (x >>= f) := by
  cases x with
  | error e => exact fun e' hbad h => hx e' hbad (by cases h; rfl)
  | ok a => exact hf a rfl

end Spares

namespace Avoids

/-- A sequence avoids the errors if its steps do, each from where the ones before it end. -/
theorem bind {x : StateT σ (Except ε) α} {f : α → StateT σ (Except ε) β} (hx : Avoids bad x s)
    (hf : ∀ a t, x s = .ok (a, t) → Avoids bad (f a) t) : Avoids bad (x >>= f) s := by
  change Spares bad (x s >>= fun p => f p.1 p.2)
  exact .bind hx fun p hp => hf p.1 p.2 hp

theorem get_bind {f : σ → StateT σ (Except ε) β} (h : Avoids bad (f s) s) : Avoids bad (get >>= f) s := h

theorem modify_bind {g : σ → σ} {f : PUnit → StateT σ (Except ε) β} (h : Avoids bad (f ⟨⟩) (g s)) :
    Avoids bad (modify g >>= f) s := h

theorem pure (a : α) : Avoids bad (pure a : StateT σ (Except ε) α) s := Spares.ok _

theorem modifyGet (f : σ → α × σ) : Avoids bad (modifyGet f : StateT σ (Except ε) α) s := Spares.ok _

theorem throw {e : ε} (he : ¬ bad e) : Avoids bad (throw e : StateT σ (Except ε) α) s := Spares.error he

theorem lift {x : Except ε α} (hx : Spares bad x) : Avoids bad (liftM x : StateT σ (Except ε) α) s :=
  Spares.bind hx fun _ _ => Spares.ok _

/-- Steps that keep an invariant and avoid the errors where it holds, one after another. -/
theorem mapM {P : σ → Prop} {f : α → StateT σ (Except ε) β} {l : List α} (hf : ∀ a ∈ l, ∀ s, P s → Avoids bad (f a) s)
    (hP : ∀ a ∈ l, ∀ s b t, P s → f a s = .ok (b, t) → P t) {s : σ} (hs : P s) : Avoids bad (l.mapM f) s := by
  induction l generalizing s with
  | nil => exact .pure _
  | cons a l ih =>
    obtain ⟨ha, hl⟩ := forall_mem_cons.1 hf
    obtain ⟨hPa, hPl⟩ := forall_mem_cons.1 hP
    rw [mapM_cons]
    exact .bind (ha s hs) fun b t ht => .bind (ih hl hPl (hPa s b t hs ht)) fun _ _ _ => .pure _

end Avoids

end Steps

/-! ## Typing -/

/-- The error that a type has classes of several hierarchies. -/
def TypeError.MixesHierarchies : TypeError → Prop
  | .incompatibleTypes _ right => right = "a single class hierarchy"
  | _ => False

/-- The result is not the error that a type has classes of several hierarchies. -/
abbrev Unmixed {α : Type} (x : Except TypeError α) : Prop := Spares TypeError.MixesHierarchies x

variable {g : ClassGraph} {store : Store} {env : TypeEnv}

/-- A signature is written as one name or as a list in braces. -/
theorem ClassGraph.describe_ne (g : ClassGraph) (s : Signature) : g.describe s ≠ "a single class hierarchy" := by
  unfold describe
  split
  · decide
  · intro h
    have hfirst := congrArg (fun text => text.toList.head?) h
    simp at hfirst

theorem unmixed_resolve (name : String) : Unmixed (g.resolve name) := by
  unfold ClassGraph.resolve ClassGraph.resolveIn
  split
  · exact .ok _
  · exact .error id

theorem unmixed_relationOn (signature : Signature) (name : String) : Unmixed (store.relationOn signature name) := by
  unfold Store.relationOn
  split
  · exact .ok _
  · exact .error id

/-- Types without a common supertype are named in the error by their signatures. -/
theorem unmixed_joinStrict (a b : Signature) : Unmixed (g.joinStrict a b) := by
  unfold ClassGraph.joinStrict
  split
  · exact .error (g.describe_ne b)
  · exact .ok _

theorem unmixed_join (a b : ObjType) : Unmixed (a.join g b) := .bind (unmixed_joinStrict _ _) fun _ _ => .ok _

theorem unmixed_inferUnion {es : List ObjExpr} (hes : ∀ e ∈ es, Unmixed (infer store env e)) (acc : ObjType) :
    Unmixed (inferUnion store env acc es) := by
  induction es generalizing acc with
  | nil => exact .ok _
  | cons e es ih =>
    obtain ⟨he, hes⟩ := forall_mem_cons.1 hes
    exact .bind he fun _ _ => .bind (.bind (unmixed_joinStrict _ _) fun _ _ => .ok _) fun _ _ => ih hes _

/-- Typing never ends in the error that a type has classes of several hierarchies. -/
theorem unmixed_infer (e : ObjExpr) : Unmixed (infer store env e) := by
  induction e with
  | allOf className => exact .bind (unmixed_resolve _) fun _ _ => .ok _
  | var name | iterator name =>
    unfold infer TypeEnv.typeOf
    split
    · exact .ok _
    · exact .error id
  | subset source ih | oneOf source ih => exact .bind ih fun _ _ => .ok _
  | union parts ih =>
    rw [infer_union]
    exact unmixed_inferUnion ih _
  | deref source relation ih => exact .bind ih fun _ _ => .bind (unmixed_relationOn _ _) fun _ _ => .ok _

/-! ## Effect analysis -/

namespace Analysis

/-- The step never ends in the error that a type has classes of several hierarchies. -/
def Unmixed {α : Type} (x : Analyze α) : Prop := ∀ a, Avoids TypeError.MixesHierarchies x a

theorem Unmixed.bind {α β : Type} {x : Analyze α} {f : α → Analyze β} (hx : Unmixed x) (hf : ∀ a, Unmixed (f a)) :
    Unmixed (x >>= f) := fun a => .bind (hx a) fun b a' _ => hf b a'

theorem Unmixed.modify (f : Analysis → Analysis) : Unmixed (modify f) := fun _ => .modifyGet _

theorem Unmixed.liftBind {α β : Type} {x : Except TypeError α} {f : α → Analyze β} (hx : StoreCheck.Unmixed x)
    (hf : ∀ b, x = .ok b → Unmixed (f b)) : Unmixed (liftM x >>= f) := by
  refine fun a => .bind (.lift hx) fun b a' hrun => ?_
  obtain ⟨b', hb, heq⟩ := lift_ok.1 hrun
  cases heq
  exact hf b hb a

theorem walking_unmixed (store : Store) : Walking store Unmixed where
  pure a _ := .pure a
  bind := .bind
  resolve hf := .liftBind (unmixed_resolve _) fun c hc => hf c (ClassGraph.resolveIn_lt hc)
  relationOn hf := .liftBind (unmixed_relationOn _ _) fun r hr => hf r (Store.relationOn_ok hr).1
  typeOf e _ := .get_bind (.lift (unmixed_infer e))
  localityOf name _ := by
    refine .get_bind ?_
    split
    · exact .pure _
    · exact .throw id
  read _ _ _ := .modify _
  get _ := .modifyGet _
  note _ _ _ := .modify _
  bindName _ _ _ := .modify _
  rebind _ _ := .modify _

theorem unmixed_bindParams : ∀ params : List Param, Unmixed (bindParams store params)
  | [] => (walking_unmixed store).pure _
  | _ :: rest => .liftBind (unmixed_resolve _) fun _ _ => .bind (.modify _) fun _ => unmixed_bindParams rest

theorem unmixed_collect (types : TypeEnv) (locals : VarMap Bool) {run : Analyze Unit} (h : Unmixed run) :
    StoreCheck.Unmixed (collect types locals run) := .bind (h _) fun _ _ => .ok _

end Analysis

end StoreCheck
