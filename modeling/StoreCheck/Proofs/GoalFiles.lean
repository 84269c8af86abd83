import StoreCheck.Proofs.Encoding.Inversion
import StoreCheck.Proofs.Halting
import StoreCheck.Proofs.WellFormed

/-!
# The files of goals

A goal, and its files, are named for its action and its invariant: the two names are joined by two underscores, and each character
that does not belong in a file name becomes an underscore too. So different goals may have one name, and then the theory of one
of them is lost (`goal_file_lost_lobby`). A verifier is `Separated` if the names of its actions stay different as file names, and
those of its invariants, and the two underscores can be told from the name of an action. Then each translated goal finds its own
theory in its files, in whatever order they were written.
-/

namespace StoreCheck

open Verifier

variable {a l m : List Char} {run : Run} {g : CheckedGoal} {halt : Bool} {filter : List String} {launch : Launch} {goal : Goal}
  {t : Theory}

/-! ## Names of goals -/

namespace Goal

/-- A name as a part of file names. -/
def fileText (name : String) : List Char := name.toList.map fileChar

/-- The text does not run into a separator that follows it. -/
def Separable (text : List Char) : Prop := ¬ ['_', '_'] <:+: text ++ ['_']

instance (text : List Char) : Decidable (Separable text) := inferInstanceAs (Decidable (¬ _))

theorem toList_name (action label : String) : (name action label).toList = fileText action ++ '_' :: '_' :: fileText label := by
  simp only [name, String.toList_ofList, String.toList_append, List.map_append, fileText, List.append_assoc]
  rfl

theorem dot_notMem_name (action label : String) : '.' ∉ (name action label).toList := by
  rw [name, String.toList_ofList]
  intro h
  obtain ⟨c, -, hc⟩ := List.mem_map.1 h
  unfold fileChar at hc
  split at hc
  · subst hc
    contradiction
  · cases hc

/-- Where a separator starts inside a text or at its end, it is not separable. -/
theorem Separable.nothing_left (h : Separable (a ++ c)) (heq : '_' :: '_' :: l = c ++ '_' :: '_' :: m) : c = [] := by
  cases c with
  | nil => rfl
  | cons x c =>
    obtain ⟨rfl, hc⟩ := List.cons.inj heq
    cases c with
    | nil => exact (h ⟨a, [], by simp⟩).elim
    | cons y c =>
      obtain ⟨rfl, -⟩ := List.cons.inj hc
      exact (h ⟨a, c ++ ['_'], by simp⟩).elim

theorem Separable.inj (ha : Separable a) (hb : Separable b) (heq : a ++ '_' :: '_' :: l = b ++ '_' :: '_' :: m) : a = b ∧ l = m := by
  have hsame : a = b := by
    rcases List.append_eq_append_iff.1 heq with ⟨c, rfl, hc⟩ | ⟨c, rfl, hc⟩
    · rw [hb.nothing_left hc, List.append_nil]
    · rw [ha.nothing_left hc, List.append_nil]
  subst hsame
  exact ⟨rfl, by simpa using heq⟩

end Goal

/-! ## Files -/

namespace Run

/-- What a file holds in the end: what was written to it last. -/
def content (files : List (String × String)) (name : String) : Option String := files.reverse.lookup name

theorem content_eq {files : List (String × String)} (hmem : (name, text) ∈ files)
    (hall : ∀ other, (name, other) ∈ files → other = text) : content files name = some text := by
  unfold content
  cases hlookup : files.reverse.lookup name with
  | none =>
    have hne := List.lookup_eq_none_iff.1 hlookup (name, text) (List.mem_reverse.2 hmem)
    simp at hne
  | some other =>
    obtain ⟨before, after, hfiles, -⟩ := List.lookup_eq_some_iff.1 hlookup
    have hother : (name, other) ∈ files := by
      rw [← List.mem_reverse, hfiles]
      simp
    rw [hall other hother]

theorem mem_files : file ∈ run.files ↔
    ∃ g ∈ run, ∃ t, g.theory = some t ∧ ∃ d : Dialect, file = (t.name ++ "." ++ d.extension, d.render t) := by
  unfold files
  simp only [List.mem_flatMap, List.mem_filterMap, List.mem_map]
  constructor
  · rintro ⟨t, ⟨g, hg, ht⟩, d, -, rfl⟩
    exact ⟨g, hg, t, ht, d, rfl⟩
  · rintro ⟨g, hg, t, ht, d, rfl⟩
    exact ⟨t, ⟨g, hg, ht⟩, d, by cases d <;> decide, rfl⟩

/-- The goals of a sequence of runs are those of its parts. -/
theorem mem_sequence {run : String → Except TypeError Run} : ∀ {names : List String} {whole : Run},
    complete (sequence halt run names) = .ok whole → g ∈ whole → ∃ name ∈ names, ∃ part, run name = .ok part ∧ g ∈ part
  | [], _, h, hg => by
    cases h
    cases hg
  | name :: rest, whole, h, hg => by
    rw [complete_sequence_cons] at h
    cases hpart : run name with
    | error e =>
      rw [hpart] at h
      cases h
    | ok part =>
      rw [hpart] at h
      dsimp only at h
      split at h
      · rw [← Except.ok.inj h] at hg
        exact ⟨name, List.mem_cons_self, part, hpart, hg⟩
      · cases hothers : complete (sequence halt run rest) with
        | error e =>
          rw [hothers] at h
          cases h
        | ok others =>
          rw [hothers] at h
          rw [← Except.ok.inj h] at hg
          rcases List.mem_append.1 hg with hg | hg
          · exact ⟨name, List.mem_cons_self, part, hpart, hg⟩
          · obtain ⟨other, hother, found⟩ := mem_sequence hothers hg
            exact ⟨other, List.mem_cons_of_mem _ hother, found⟩

end Run

/-! ## Goals of a run -/

namespace Verifier

variable {v : Verifier}

/-- The goals of an action. -/
def goals (v : Verifier) : List Goal := .consistency :: v.invariants.map .preserve

theorem mem_checkAll {check : Goal → CheckedGoal} {goals : List Goal} {g : CheckedGoal} (h : g ∈ checkAll halt check goals) :
    ∃ goal ∈ goals, g = check goal := by
  induction goals with
  | nil => cases h
  | cons goal rest ih =>
    simp only [checkAll] at h
    split at h
    · exact ⟨goal, List.mem_cons_self, List.mem_singleton.1 h⟩
    · rcases List.mem_cons.1 h with rfl | h
      · exact ⟨goal, List.mem_cons_self, rfl⟩
      · obtain ⟨other, hother, heq⟩ := ih h
        exact ⟨other, List.mem_cons_of_mem _ hother, heq⟩

theorem mem_of_selected (h : v.selected filter = .ok checked) (hi : i ∈ checked) : i ∈ v.invariants := by
  unfold selected at h
  split at h
  · cases h
    exact hi
  · obtain ⟨k, hk⟩ := List.mem_iff_getElem?.1 hi
    obtain ⟨name, -, hname⟩ := Store.getElem?_of_mapM_ok h hk
    unfold invariant at hname
    split at hname
    · rename_i found hfound
      cases hname
      exact List.mem_of_find?_eq_some hfound
    · cases hname

/-- Every goal of a run is about an action of the store, and its consistency or one of the invariants. -/
theorem mem_verifyAll (h : v.verifyAll launch filter = .ok run) (hg : g ∈ run) :
    ∃ action ∈ v.store.actions, ∃ goal ∈ v.goals, g = v.check launch action (v.writtenSorts action) goal := by
  obtain ⟨name, -, part, hpart, hg⟩ := Run.mem_sequence h hg
  obtain ⟨action, haction, hpart⟩ := exceptBind_ok.1 hpart
  obtain ⟨checked, hchecked, hpart⟩ := exceptBind_ok.1 hpart
  cases hpart
  obtain ⟨goal, hgoal, rfl⟩ := mem_checkAll hg
  have hmem : action ∈ v.store.actions := by
    unfold Store.action at haction
    split at haction
    · rename_i found hfound
      cases haction
      exact List.mem_of_find?_eq_some hfound
    · cases haction
  refine ⟨action, hmem, goal, ?_, rfl⟩
  rcases List.mem_cons.1 hgoal with rfl | hgoal
  · exact List.mem_cons_self
  · obtain ⟨i, hi, rfl⟩ := List.mem_map.1 hgoal
    exact List.mem_cons_of_mem _ (List.mem_map_of_mem (mem_of_selected hchecked hi))

theorem check_report (written : Option (List SortId)) : (v.check launch action written goal).report.action = action.name ∧
    (v.check launch action written goal).report.invariant = goal.label := by
  unfold check
  dsimp only
  split
  · exact ⟨rfl, rfl⟩
  · split <;> exact ⟨rfl, rfl⟩

theorem check_theory (h : (v.check launch action written goal).theory = some t) : v.goalTheory action goal = .ok t := by
  unfold check at h
  dsimp only at h
  split at h
  · cases h
  · split at h
    · cases h
    · rename_i theory htheory
      cases h
      exact htheory

theorem name_of_goalTheory (h : v.goalTheory action goal = .ok t) : t.name = Goal.name action.name goal.label := by
  cases goal with
  | consistency =>
    obtain ⟨final, -, rfl⟩ := consistencyTheory_ok h
    rfl
  | preserve invariant =>
    obtain ⟨effects, F, final, -, -, rfl⟩ := preservationTheory_ok h
    rfl

/-- Different actions and different goals stay different in file names, and actions can be told from what follows them. -/
structure Separated (v : Verifier) : Prop where
  actions : (v.store.actions.map fun a => Goal.fileText a.name).Nodup
  goals : (v.goals.map fun goal => Goal.fileText goal.label).Nodup
  separable : ∀ a ∈ v.store.actions, Goal.Separable (Goal.fileText a.name)

theorem Separated.name_inj (hv : v.Separated) (haction : action ∈ v.store.actions) (haction' : action' ∈ v.store.actions)
    (hgoal : goal ∈ v.goals) (hgoal' : goal' ∈ v.goals)
    (h : Goal.name action.name goal.label = Goal.name action'.name goal'.label) : action = action' ∧ goal = goal' := by
  have htext := congrArg String.toList h
  rw [Goal.toList_name, Goal.toList_name] at htext
  obtain ⟨hactions, hlabels⟩ := (hv.separable _ haction).inj (hv.separable _ haction') htext
  exact ⟨List.inj_on_of_nodup_map hv.actions haction haction' hactions, List.inj_on_of_nodup_map hv.goals hgoal hgoal' hlabels⟩

end Verifier

theorem Dialect.fileName_inj {a l : String} {d d' : Dialect}
    (h : Goal.name a l ++ "." ++ d.extension = Goal.name a' l' ++ "." ++ d'.extension) :
    Goal.name a l = Goal.name a' l' ∧ d = d' := by
  have htext := congrArg String.toList h
  have hdot : "." = String.ofList ['.'] := rfl
  simp only [String.toList_append, List.append_assoc, hdot, String.toList_ofList, List.singleton_append] at htext
  have hext : '.' ∉ d.extension.toList := by cases d <;> decide
  obtain ⟨hname, -, hsame⟩ := (List.append_cons_inj_of_notMem (Goal.dot_notMem_name a l) hext).1 htext
  refine ⟨String.toList_injective hname, ?_⟩
  cases d <;> cases d' <;> first | rfl | exact absurd hsame (by decide)

/-- Where names are separated, goals of a run with one name are goals of one action with one label; and after the run, in whatever
order the files were written, the files of every goal that was translated hold the goal's own theory. -/
theorem goal_files_own {v : Verifier} (hv : v.Separated) (launch : Launch) (filter : List String) {run : Run}
    (hrun : v.verifyAll launch filter = .ok run) :
    (∀ g ∈ run, ∀ g' ∈ run,
      Goal.name g.report.action g.report.invariant = Goal.name g'.report.action g'.report.invariant →
        g.report.action = g'.report.action ∧ g.report.invariant = g'.report.invariant) ∧
    ∀ g ∈ run, ∀ t, g.theory = some t → ∀ files, files.Perm run.files → ∀ d : Dialect,
      Run.content files (Goal.name g.report.action g.report.invariant ++ "." ++ d.extension) = some (d.render t) := by
  refine ⟨fun g hg g' hg' hname => ?_, fun g hg t ht files hperm d => ?_⟩
  · obtain ⟨action, haction, goal, hgoal, rfl⟩ := mem_verifyAll hrun hg
    obtain ⟨action', haction', goal', hgoal', rfl⟩ := mem_verifyAll hrun hg'
    simp only [check_report] at hname ⊢
    obtain ⟨rfl, rfl⟩ := hv.name_inj haction haction' hgoal hgoal' hname
    exact ⟨rfl, rfl⟩
  · obtain ⟨action, haction, goal, hgoal, rfl⟩ := mem_verifyAll hrun hg
    have htheory := check_theory ht
    simp only [check_report, ← name_of_goalTheory htheory]
    refine Run.content_eq (hperm.mem_iff.mpr (Run.mem_files.mpr ⟨_, hg, t, ht, d, rfl⟩)) fun other hother => ?_
    obtain ⟨g', hg', t', ht', d', heq⟩ := Run.mem_files.mp (hperm.mem_iff.mp hother)
    obtain ⟨action', haction', goal', hgoal', rfl⟩ := mem_verifyAll hrun hg'
    have htheory' := check_theory ht'
    obtain ⟨hfile, rfl⟩ := Prod.mk.inj heq
    rw [name_of_goalTheory htheory, name_of_goalTheory htheory'] at hfile
    obtain ⟨hname, rfl⟩ := Dialect.fileName_inj hfile
    obtain ⟨rfl, rfl⟩ := hv.name_inj haction haction' hgoal hgoal' hname
    rw [htheory] at htheory'
    cases htheory'
    rfl

namespace Lobby

/-- The lobby is empty. -/
def empty : Invariant := ⟨"empty", .isEmpty (.allOf "Guest"), none⟩

/-- Guests arrive one by one and leave all together. -/
def spec (arrival departure : String) : Spec :=
  ⟨[⟨"Guest", []⟩], [], [⟨arrival, [], [.create "Guest" none]⟩, ⟨departure, [], [.delete (.allOf "Guest")]⟩], [empty]⟩

/-- A lobby with names that are told apart. -/
def labelled : Verifier := ⟨(Store.ofSpec (spec "check in" "check out")).toOption.get (by decide +kernel), .default, []⟩

/-- A lobby in which two actions become one file name. -/
def muddled : Verifier := ⟨(Store.ofSpec (spec "check in" "check_in")).toOption.get (by decide +kernel), .default, []⟩

end Lobby

theorem goal_files_own_lobby : Lobby.labelled.Separated ∧ ∃ run, Lobby.labelled.verifyAll (fun _ _ => none) [] = .ok run ∧
    ∃ g ∈ run, ∃ t, g.theory = some t ∧
      Run.content run.files (Goal.name g.report.action g.report.invariant ++ "." ++ Dialect.dfg.extension) = some (Dialect.dfg.render t) := by
  have hv : Lobby.labelled.Separated := ⟨by decide +kernel, by decide +kernel, by decide +kernel⟩
  obtain ⟨run, hrun, hsome⟩ := exists_ok_of_any (x := Lobby.labelled.verifyAll (fun _ _ => none) [])
    (p := fun run => run.any fun g => g.theory.isSome) (by decide +kernel)
  obtain ⟨g, hg, htheory⟩ := List.any_eq_true.mp hsome
  obtain ⟨t, ht⟩ := Option.isSome_iff_exists.mp htheory
  exact ⟨hv, run, hrun, g, hg, t, ht, (goal_files_own hv _ _ hrun).2 g hg t ht _ (.refl _) .dfg⟩

/-- Two actions, one file name: the theory of the first action's goal is overwritten. -/
theorem goal_file_lost_lobby : ∃ run, Lobby.muddled.verifyAll (fun _ _ => none) [] = .ok run ∧ ∃ g ∈ run, ∃ g' ∈ run, ∃ t,
    g.report.action ≠ g'.report.action ∧
      Goal.name g.report.action g.report.invariant = Goal.name g'.report.action g'.report.invariant ∧ g.theory = some t ∧
      Run.content run.files (Goal.name g.report.action g.report.invariant ++ "." ++ Dialect.dfg.extension) ≠ some (Dialect.dfg.render t) := by
  obtain ⟨run, hrun, hlost⟩ := exists_ok_of_any (x := Lobby.muddled.verifyAll (fun _ _ => none) [])
    (p := fun run => run.any fun g => run.any fun g' => g.report.action != g'.report.action &&
      Goal.name g.report.action g.report.invariant == Goal.name g'.report.action g'.report.invariant &&
      g.theory.any fun t => Run.content run.files (Goal.name g.report.action g.report.invariant ++ "." ++ Dialect.dfg.extension) !=
        some (Dialect.dfg.render t)) (by decide +kernel)
  obtain ⟨g, hg, hlost⟩ := List.any_eq_true.mp hlost
  obtain ⟨g', hg', hlost⟩ := List.any_eq_true.mp hlost
  simp only [Bool.and_eq_true, bne_iff_ne, beq_iff_eq] at hlost
  obtain ⟨⟨haction, hname⟩, hlost⟩ := hlost
  cases ht : g.theory with
  | none => simp [ht] at hlost
  | some t => exact ⟨run, hrun, g, hg, g', hg', t, haction, hname, ht, by simpa [ht] using hlost⟩

end StoreCheck
