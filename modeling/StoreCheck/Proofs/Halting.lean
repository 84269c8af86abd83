import StoreCheck.Verification.Verifier

/-!
# Halting at the first incorrect goal

A verifier that halts checks the same goals in the same order as one that does not, and stops right after the first one that is
found incorrect. So its run is the other verifier's run, cut there (`halting_truncates`). It stops in two places: among the goals
of an action, and among the actions. Nothing is lost in between, because an action whose goals have been cut has an incorrect
goal, and because an error of one action is an error of every action: it is about the names of the invariants.
-/

namespace StoreCheck

open List

variable {names : List String} {name : String}

namespace Run

/-- The goal was found incorrect. -/
def isIncorrect (goal : CheckedGoal) : Bool := goal.report.outcome.isIncorrect

/-- The run up to its first incorrect goal, which is the last one; the whole run if no goal is incorrect. -/
def cutAfterIncorrect (run : Run) : Run := run.take (run.findIdx isIncorrect + 1)

theorem hasIncorrect_report (run : Run) : run.report.hasIncorrect = run.any isIncorrect := by
  simp only [report, Report.hasIncorrect, any_map]
  rfl

/-! ## Cut runs -/

theorem cutAfterIncorrect_cons (goal : CheckedGoal) (run : Run) :
    cutAfterIncorrect (goal :: run) = if isIncorrect goal then [goal] else goal :: cutAfterIncorrect run := by
  by_cases h : isIncorrect goal
  · simp [cutAfterIncorrect, findIdx_cons, h]
  · simp [cutAfterIncorrect, findIdx_cons, h]

variable {run : Run}

theorem cutAfterIncorrect_of_any (h : run.any isIncorrect = true) (others : Run) :
    cutAfterIncorrect (run ++ others) = cutAfterIncorrect run := by
  have hlt : run.findIdx isIncorrect < run.length := findIdx_lt_length.2 (any_eq_true.1 h)
  rw [cutAfterIncorrect, findIdx_append, if_pos hlt, take_append_of_le_length hlt, cutAfterIncorrect]

theorem cutAfterIncorrect_of_not_any (h : run.any isIncorrect = false) (others : Run) :
    cutAfterIncorrect (run ++ others) = run ++ cutAfterIncorrect others := by
  induction run with
  | nil => rfl
  | cons goal run ih =>
    simp only [any_cons, Bool.or_eq_false_iff] at h
    simp [cutAfterIncorrect_cons, h.1, ih h.2]

/-- What is cut off comes after an incorrect goal, which stays. -/
theorem any_cutAfterIncorrect (run : Run) : (cutAfterIncorrect run).any isIncorrect = run.any isIncorrect := by
  induction run with
  | nil => rfl
  | cons goal run ih =>
    rw [cutAfterIncorrect_cons]
    by_cases h : isIncorrect goal
    · simp [h]
    · simp [h, ih]

theorem cutAfterIncorrect_eq_self (h : run.any isIncorrect = false) : cutAfterIncorrect run = run := by
  simpa [cutAfterIncorrect] using cutAfterIncorrect_of_not_any h []

/-! ## Sequences of parts -/

theorem complete_sequence_cons (halt : Bool) (run : String → Except TypeError Run) (name : String) (rest : List String) :
    complete (sequence halt run (name :: rest)) =
      match run name with
      | .error e => .error e
      | .ok part =>
        if halt && part.any isIncorrect then .ok part else (complete (sequence halt run rest)).map (part ++ ·) := by
  cases hrun : run name with
  | error e => simp only [sequence, hrun, complete]
  | ok part =>
    simp only [sequence, hrun, hasIncorrect_report]
    split
    · rfl
    · rcases sequence halt run rest with ⟨others, error⟩
      cases error <;> rfl

/-- Parts of which none fails are run to the end. -/
theorem complete_sequence_ok {run : String → Except TypeError Run} (h : ∀ name ∈ names, ∃ part, run name = .ok part) :
    ∃ whole, complete (sequence false run names) = .ok whole := by
  induction names with
  | nil => exact ⟨[], rfl⟩
  | cons name rest ih =>
    obtain ⟨part, hpart⟩ := h name mem_cons_self
    obtain ⟨others, hothers⟩ := ih fun other hother => h other (mem_cons_of_mem _ hother)
    refine ⟨part ++ others, ?_⟩
    simp only [complete_sequence_cons, hpart, hothers, Bool.false_and, Except.map]
    rfl

/-- A sequence of cut parts that halts is the sequence of whole parts, cut, if one part fails only where all of them do: a part
that comes after the cut cannot fail on its own. -/
theorem complete_sequence_halt {cut whole : String → Except TypeError Run}
    (hcut : ∀ name ∈ names, cut name = (whole name).map cutAfterIncorrect)
    (hfail : ∀ name ∈ names, ∀ other ∈ names, (∃ part, whole name = .ok part) → ∃ part, whole other = .ok part) :
    complete (sequence true cut names) = (complete (sequence false whole names)).map cutAfterIncorrect := by
  induction names with
  | nil => rfl
  | cons name rest ih =>
    have hrest := ih (fun other h => hcut other (mem_cons_of_mem _ h))
      fun other h another h' => hfail other (mem_cons_of_mem _ h) another (mem_cons_of_mem _ h')
    rw [complete_sequence_cons, complete_sequence_cons, hcut name mem_cons_self, hrest]
    cases hwhole : whole name with
    | error e => rfl
    | ok part =>
      obtain ⟨others, hothers⟩ := complete_sequence_ok fun other h =>
        hfail name mem_cons_self other (mem_cons_of_mem _ h) ⟨part, hwhole⟩
      simp only [Except.map, hothers, any_cutAfterIncorrect, Bool.true_and, Bool.false_and]
      cases hany : part.any isIncorrect with
      | true => simp [cutAfterIncorrect_of_any hany]
      | false => simp [cutAfterIncorrect_of_not_any hany, cutAfterIncorrect_eq_self hany]

end Run

namespace Verifier

/-- The verifier with the halting flag set or unset; all else is as before. -/
def withHalt (v : Verifier) (halt : Bool) : Verifier := { v with config := { v.config with haltOnFirstError := halt } }

theorem checkAll_halt (check : Goal → CheckedGoal) (goals : List Goal) :
    checkAll true check goals = (checkAll false check goals).cutAfterIncorrect := by
  induction goals with
  | nil => rfl
  | cons goal rest ih =>
    simp only [checkAll, Bool.true_and, Bool.false_and, Bool.false_eq_true, if_false, Run.cutAfterIncorrect_cons, ih]
    rfl

theorem verifyAction_halt (v : Verifier) (launch : Launch) (filter : List String) (name : String) :
    (v.withHalt true).verifyAction launch filter name =
      ((v.withHalt false).verifyAction launch filter name).map Run.cutAfterIncorrect := by
  change (do
      let action ← v.store.action name
      let invariants ← v.selected filter
      return checkAll true (v.check launch action (v.writtenSorts action)) (.consistency :: invariants.map .preserve)) =
    Except.map Run.cutAfterIncorrect (do
      let action ← v.store.action name
      let invariants ← v.selected filter
      return checkAll false (v.check launch action (v.writtenSorts action)) (.consistency :: invariants.map .preserve))
  cases v.store.action name with
  | error e => rfl
  | ok action =>
    cases v.selected filter with
    | error e => rfl
    | ok invariants => exact congrArg Except.ok (checkAll_halt _ _)

/-- An action of the store is found by its name. -/
theorem action_of_mem {store : Store} (h : name ∈ store.actions.map (·.name)) : ∃ action, store.action name = .ok action := by
  obtain ⟨action, haction, rfl⟩ := mem_map.1 h
  cases hfind : store.actions.find? fun a => a.name == action.name with
  | some found => exact ⟨found, by rw [Store.action, hfind]⟩
  | none => exact absurd (find?_eq_none.1 hfind action haction) (by simp)

/-- The check of an action of the store breaks off only because of the names of invariants. -/
theorem verifyAction_ok_iff (v : Verifier) (launch : Launch) (filter : List String) (h : name ∈ v.store.actions.map (·.name)) :
    (∃ run, v.verifyAction launch filter name = .ok run) ↔ ∃ invariants, v.selected filter = .ok invariants := by
  obtain ⟨action, haction⟩ := action_of_mem h
  simp only [verifyAction, haction]
  cases v.selected filter with
  | error e =>
    constructor
    · rintro ⟨run, hrun⟩
      cases hrun
    · rintro ⟨invariants, hinvariants⟩
      cases hinvariants
  | ok invariants => exact ⟨fun _ => ⟨invariants, rfl⟩, fun _ => ⟨_, rfl⟩⟩

end Verifier

/-- Halting only truncates. Whatever the store, the configuration, the answers of the provers and the names of the invariants to
check: with the halting flag, checking all actions, or one, ends in the same error as without it, or its goals are those without
it, cut right after the first incorrect one. -/
theorem halting_truncates (v : Verifier) (launch : Launch) (filter : List String) :
    (v.withHalt true).verifyAll launch filter =
      ((v.withHalt false).verifyAll launch filter).map Run.cutAfterIncorrect ∧
    ∀ name, (v.withHalt true).verifyAction launch filter name =
      ((v.withHalt false).verifyAction launch filter name).map Run.cutAfterIncorrect := by
  refine ⟨?_, v.verifyAction_halt launch filter⟩
  refine Run.complete_sequence_halt (fun name _ => v.verifyAction_halt launch filter name) fun name h other h' hrun => ?_
  have hselected := ((v.withHalt false).verifyAction_ok_iff launch filter h).mp hrun
  exact ((v.withHalt false).verifyAction_ok_iff launch filter h').mpr hselected

end StoreCheck
