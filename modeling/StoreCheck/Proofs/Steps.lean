import Mathlib.Data.List.Forall2

/-!
# Steps that succeed

The encoding of a goal and the effect analysis are steps over a state that may fail. A statement about a successful run is taken
apart from its first step on: `bind_ok` names the result and the state in between, the other lemmas say what each primitive step
gives. `Keeps R x` says that whenever the step `x` succeeds its end states are related by `R`; for a reflexive and transitive
relation this is checked step by step.
-/

namespace StoreCheck

section Steps

variable {σ ε α β : Type}

/-- A sequence succeeds if its first step does, and then the rest from there. -/
theorem bind_ok {f : α → StateT σ (Except ε) β} {r : β × σ} :
    (x >>= f) s = .ok r ↔ ∃ a s', x s = .ok (a, s') ∧ f a s' = .ok r := by
  simp only [bind, StateT.bind, Except.bind]
  cases h : x s with
  | error e => simp
  | ok p =>
    obtain ⟨a, s'⟩ := p
    constructor
    · intro h'
      exact ⟨a, s', rfl, h'⟩
    · rintro ⟨a', s'', h', hf⟩
      cases h'
      exact hf

/-- Returning a value leaves the state alone. -/
theorem pure_ok : (pure a : StateT σ (Except ε) α) s = .ok r ↔ r = (a, s) := by
  show (Except.ok (a, s) : Except ε (α × σ)) = .ok r ↔ r = (a, s)
  simp [eq_comm]

theorem get_ok : (get : StateT σ (Except ε) σ) s = .ok r ↔ r = (s, s) := by
  simp [get, getThe, MonadStateOf.get, StateT.get, pure, Except.pure, eq_comm]

theorem modifyGet_ok : (modifyGet f : StateT σ (Except ε) α) s = .ok r ↔ r = f s := by
  simp [modifyGet, MonadStateOf.modifyGet, StateT.modifyGet, pure, Except.pure, eq_comm]

theorem modify_ok :
    (modify f : StateT σ (Except ε) PUnit) s = .ok r ↔ r = (⟨⟩, f s) := modifyGet_ok

/-- Throwing an error never succeeds. -/
theorem throw_ok : (throw e : StateT σ (Except ε) α) s = .ok r ↔ False := by
  simp [throw, throwThe, MonadExceptOf.throw, StateT.lift, bind, Except.bind]

/-- A computation without a state leaves the state alone. -/
theorem lift_ok {x : Except ε α} : (liftM x : StateT σ (Except ε) α) s = .ok r ↔ ∃ a, x = .ok a ∧ r = (a, s) := by
  simp only [liftM, monadLift, MonadLift.monadLift, StateT.lift, bind, Except.bind, pure, Except.pure]
  cases x <;> simp [eq_comm]

theorem liftBind_ok {x : Except ε α} {f : α → StateT σ (Except ε) β} {r : β × σ} :
    ((liftM x : StateT σ (Except ε) α) >>= f) s = .ok r ↔ ∃ a, x = .ok a ∧ f a s = .ok r := by
  simp [bind_ok, lift_ok]

/-- The same for steps without a state. -/
theorem exceptBind_ok {f : α → Except ε β} {b : β} : (x >>= f) = .ok b ↔ ∃ a, x = .ok a ∧ f a = .ok b := by
  cases x <;> simp [bind, Except.bind]

/-- Each result is that of the element in its place. -/
theorem exceptMapM_ok {f : α → Except ε β} {l : List α} : l.mapM f = .ok bs ↔ List.Forall₂ (fun a b => f a = .ok b) l bs := by
  induction l generalizing bs with
  | nil =>
    rw [List.mapM_nil, List.forall₂_nil_left_iff]
    exact ⟨fun h => (Except.ok.inj h).symm, fun h => congrArg Except.ok h.symm⟩
  | cons a l ih =>
    rw [List.mapM_cons, exceptBind_ok, List.forall₂_cons_left_iff]
    constructor
    · rintro ⟨b, hb, h⟩
      obtain ⟨cs, hcs, h⟩ := exceptBind_ok.1 h
      exact ⟨b, cs, hb, ih.1 hcs, (Except.ok.inj h).symm⟩
    · rintro ⟨b, cs, hb, hcs, rfl⟩
      exact ⟨b, hb, exceptBind_ok.2 ⟨cs, ih.2 hcs, rfl⟩⟩

/-- A list of steps that all succeed succeeds. -/
theorem exists_exceptMapM_ok {f : α → Except ε β} {l : List α} (h : ∀ a ∈ l, ∃ b, f a = .ok b) : ∃ bs, l.mapM f = .ok bs := by
  induction l with
  | nil => exact ⟨[], rfl⟩
  | cons a l ih =>
    obtain ⟨b, hb⟩ := h a (by simp)
    obtain ⟨bs, hbs⟩ := ih fun a' ha' => h a' (by simp [ha'])
    exact ⟨b :: bs, exceptMapM_ok.2 (.cons hb (exceptMapM_ok.1 hbs))⟩

/-- Two ways to step through a list agree if they do so in all states that are reached. -/
theorem exceptFoldlM_congr {P : β → Prop} {f g : β → α → Except ε β} : ∀ {l : List α} {b : β},
    (∀ a ∈ l, ∀ b, P b → f b a = g b a ∧ ∀ b', g b a = .ok b' → P b') → P b → l.foldlM f b = l.foldlM g b
  | [], _, _, _ => rfl
  | a :: l, b, h, hb => by
    obtain ⟨ha, hl⟩ := List.forall_mem_cons.1 h
    obtain ⟨heq, hkeeps⟩ := ha b hb
    rw [List.foldlM_cons, List.foldlM_cons, heq]
    cases hg : g b a with
    | error e => rfl
    | ok b' => exact exceptFoldlM_congr hl (hkeeps b' hg)

/-- A step whose result passes a test has succeeded. -/
theorem exists_ok_of_any {x : Except ε α} {p : α → Bool} (h : x.toOption.any p = true) : ∃ a, x = .ok a ∧ p a = true := by
  cases x with
  | error e => cases h
  | ok a => exact ⟨a, rfl, h⟩

theorem toOption_get_ok {x : Except ε α} (h : x.toOption.isSome = true) : x = .ok (x.toOption.get h) := by
  cases x with
  | error e => cases h
  | ok a => rfl

/-- The error that a computation ends with. -/
def errorOf? : Except ε α → Option ε
  | .error e => some e
  | .ok _ => none

theorem eq_error_of_errorOf? {x : Except ε α} {e : ε} (h : errorOf? x = some e) : x = .error e := by
  cases x with
  | error e' => exact congrArg Except.error (Option.some.inj h)
  | ok a => cases h

/-! ## Steps that only look at the state or replace it -/

/-- A step that starts by looking at the state. -/
theorem get_bind {f : σ → StateT σ (Except ε) β} : (get >>= f) s = f s s := rfl

theorem set_bind {f : PUnit → StateT σ (Except ε) β} : (set t >>= f) s = f ⟨⟩ t := rfl

theorem modify_bind {f : PUnit → StateT σ (Except ε) β} : (modify g >>= f) s = f ⟨⟩ (g s) := rfl

/-! ## Lists of steps -/

theorem mapM_nil_ok {f : α → StateT σ (Except ε) β} : [].mapM f s = .ok r ↔ r = ([], s) := by
  rw [List.mapM_nil, pure_ok]

theorem mapM_cons_ok {f : α → StateT σ (Except ε) β} :
    (a :: l).mapM f s = .ok r ↔ ∃ b s', f a s = .ok (b, s') ∧ ∃ bs t, l.mapM f s' = .ok (bs, t) ∧ r = (b :: bs, t) := by
  rw [List.mapM_cons, bind_ok]
  simp only [bind_ok, pure_ok]

theorem forM_nil_ok {f : α → StateT σ (Except ε) PUnit} :
    ([] : List α).forM f s = .ok r ↔ r = (⟨⟩, s) := pure_ok

/-- The step for the first element, then those for the rest. -/
theorem forM_cons_ok {f : α → StateT σ (Except ε) PUnit} :
    (a :: l).forM f s = .ok r ↔ ∃ s', f a s = .ok (⟨⟩, s') ∧ l.forM f s' = .ok r := by
  refine bind_ok.trans ?_
  constructor
  · rintro ⟨⟨⟩, s', h, h'⟩
    exact ⟨s', h, h'⟩
  · rintro ⟨s', h, h'⟩
    exact ⟨⟨⟩, s', h, h'⟩

/-- What each step of a list keeps, the list keeps. -/
theorem forM_keeps {P : σ → Prop} {f : α → StateT σ (Except ε) PUnit} {l : List α}
    (hf : ∀ a ∈ l, ∀ s t, P s → f a s = .ok (⟨⟩, t) → P t) (hs : P s) (h : l.forM f s = .ok (⟨⟩, t)) : P t := by
  induction l generalizing s with
  | nil =>
    cases forM_nil_ok.1 h
    exact hs
  | cons a l ih =>
    obtain ⟨s', h1, h2⟩ := forM_cons_ok.1 h
    exact ih (fun a' ha' => hf a' (List.mem_cons_of_mem _ ha')) (hf a List.mem_cons_self s s' hs h1) h2

/-- What each step of a list gives still holds of its result at the end of the list, if later steps keep it. -/
theorem mapM_keeps {P : σ → Prop} {Q : β → σ → Prop} {f : α → StateT σ (Except ε) β} {l : List α} {bs : List β}
    (hf : ∀ a ∈ l, ∀ s b t, P s → f a s = .ok (b, t) → P t ∧ Q b t ∧ ∀ c, Q c s → Q c t) (hs : P s)
    (h : l.mapM f s = .ok (bs, t)) : P t ∧ (∀ b ∈ bs, Q b t) ∧ ∀ c, Q c s → Q c t := by
  induction l generalizing s bs with
  | nil =>
    cases mapM_nil_ok.1 h
    exact ⟨hs, List.forall_mem_nil _, fun _ hc => hc⟩
  | cons a l ih =>
    obtain ⟨b, s', h1, bs', t', h2, h3⟩ := mapM_cons_ok.1 h
    cases h3
    obtain ⟨hs', hb, hkept⟩ := hf a List.mem_cons_self s b s' hs h1
    obtain ⟨ht, hbs, hlast⟩ := ih (fun a' ha' => hf a' (List.mem_cons_of_mem _ ha')) hs' h2
    exact ⟨ht, List.forall_mem_cons.2 ⟨hlast b hb, hbs⟩, fun c hc => hlast c (hkept c hc)⟩

/-- Each result comes from a step. -/
theorem mapM_forall₂ {f : α → StateT σ (Except ε) β} {l : List α} (h : l.mapM f s = .ok (bs, t)) :
    List.Forall₂ (fun a b => ∃ s' t', f a s' = .ok (b, t')) l bs := by
  induction l generalizing s bs with
  | nil =>
    cases mapM_nil_ok.1 h
    exact .nil
  | cons a l ih =>
    obtain ⟨b, s', h1, bs', t', h2, h3⟩ := mapM_cons_ok.1 h
    cases h3
    exact .cons ⟨s, s', h1⟩ (ih h2)

theorem exists_of_mem_mapM {f : α → StateT σ (Except ε) β} {l : List α} (h : l.mapM f s = .ok (bs, t)) (hb : b ∈ bs) :
    ∃ a ∈ l, ∃ s' t', f a s' = .ok (b, t') := by
  have hall := mapM_forall₂ h
  clear h
  induction hall with
  | nil => cases hb
  | cons hab _ ih => grind

theorem map_of_mapM {γ : Type} {f : α → StateT σ (Except ε) β} {l : List α} (g : β → γ) (key : α → γ)
    (hkey : ∀ a s b t, f a s = .ok (b, t) → g b = key a) (h : l.mapM f s = .ok (bs, t)) : bs.map g = l.map key := by
  have hall := mapM_forall₂ h
  clear h
  induction hall with
  | nil => rfl
  | cons hab _ ih =>
    obtain ⟨s', t', hab⟩ := hab
    rw [List.map_cons, List.map_cons, hkey _ _ _ _ hab, ih]

/-! ## Relations that steps keep -/

/-- A relation between states that holds along any number of steps once it holds of each. -/
class StepOrder (R : σ → σ → Prop) : Prop where
  refl : ∀ s, R s s
  trans : ∀ {s t u}, R s t → R t u → R s u

/-- Whenever the step succeeds, the states before and after it are related. -/
def Keeps (R : σ → σ → Prop) (x : StateT σ (Except ε) α) : Prop := ∀ s a t, x s = .ok (a, t) → R s t

variable {R : σ → σ → Prop}

/-- What a step keeps is kept where it succeeds. -/
theorem Keeps.of_ok {x : StateT σ (Except ε) α} {a : α} (h : Keeps R x) (hx : x s = .ok (a, t)) : R s t := h s a t hx

theorem Keeps.throw (e : ε) : Keeps R (throw e : StateT σ (Except ε) α) := by
  intro s b t h
  exact (throw_ok.1 h).elim

theorem Keeps.modifyGet (h : ∀ s, R s (f s).2) : Keeps R (modifyGet f : StateT σ (Except ε) α) := by
  intro s b t h'
  have e := modifyGet_ok.1 h'
  have ht : t = (f s).2 := congrArg Prod.snd e
  rw [ht]
  exact h s

theorem Keeps.modify (h : ∀ s, R s (f s)) : Keeps R (modify f : StateT σ (Except ε) PUnit) :=
  Keeps.modifyGet h

/-- What comes after a step without a state only has to keep the relation for what that step gives. -/
theorem Keeps.liftBind {x : Except ε α} {f : α → StateT σ (Except ε) β} (h : ∀ a, x = .ok a → Keeps R (f a)) :
    Keeps R (liftM x >>= f) := by
  intro s b t hrun
  obtain ⟨a, ha, hrun⟩ := liftBind_ok.1 hrun
  exact h a ha s b t hrun

variable [StepOrder R]

theorem Keeps.pure (a : α) : Keeps R (pure a : StateT σ (Except ε) α) := by
  intro s b t h
  cases pure_ok.1 h
  exact StepOrder.refl _

theorem Keeps.get : Keeps R (get : StateT σ (Except ε) σ) := by
  intro s b t h
  cases get_ok.1 h
  exact StepOrder.refl _

theorem Keeps.lift (x : Except ε α) : Keeps R (liftM x : StateT σ (Except ε) α) := by
  intro s b t h
  obtain ⟨a, -, h⟩ := lift_ok.1 h
  cases h
  exact StepOrder.refl _

/-- A sequence keeps what its steps keep. -/
theorem Keeps.bind {f : α → StateT σ (Except ε) β} (hx : Keeps R x) (hf : ∀ a, Keeps R (f a)) : Keeps R (x >>= f) := by
  intro s b t h
  obtain ⟨a, s', h1, h2⟩ := bind_ok.1 h
  exact StepOrder.trans (hx _ _ _ h1) (hf a _ _ _ h2)

/-- Steps for all elements of a list keep what each keeps. -/
theorem Keeps.mapM {f : α → StateT σ (Except ε) β} (hf : ∀ a, Keeps R (f a)) (l : List α) : Keeps R (l.mapM f) := by
  intro s b t h
  refine (mapM_keeps (P := R s) (Q := fun _ _ => True) (fun a _ s' b t' hs' h' => ?_) (StepOrder.refl s) h).1
  exact ⟨StepOrder.trans hs' (hf a _ _ _ h'), trivial, fun _ _ => trivial⟩

theorem Keeps.forM {f : α → StateT σ (Except ε) PUnit} (hf : ∀ a, Keeps R (f a)) (l : List α) : Keeps R (l.forM f) :=
  fun s _ _ h => forM_keeps (P := R s) (fun a _ _ _ hs' h' => StepOrder.trans hs' (hf a _ _ _ h')) (StepOrder.refl s) h

end Steps

end StoreCheck
