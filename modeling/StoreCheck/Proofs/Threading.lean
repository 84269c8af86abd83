import StoreCheck.Proofs.Creations
import StoreCheck.Proofs.Encoding.Iterations

/-!
# Chained loops thread the state

In a model of an action's theory, the iterations of a chained loop can be listed in their order if there are finitely many, and
then each starts from the state that the one before it has left (`chained_loops_threaded`).
-/

namespace StoreCheck

open Encode

/-- What a structure says of a chained loop that was encoded from the first session to the second one. -/
inductive ChainedLoopThreads (M : Structure) (L : Layout) (var : String) (domain : ObjExpr) (body : Block) (s t : Session) : Prop where
  /-- Over a set of the bottom type there is nothing to iterate. -/
  | nothing {value : ObjValue} {type : ObjType} {s1 : Session} (hdomain : objSet L false s.scope domain s = .ok ((value, type), s1))
      (hbottom : L.sortOf type = .ok none) (hsnapshot : t.snapshot = s.snapshot)
  /-- At every position where the loop is run and has finitely many live iterations, these can be listed in their order so that
  the states at the start and at the end of the body are threaded from the state before the loop to the one after it. A sort
  that the body is not planned to write keeps its slot. -/
  | threaded {f : LoopFrame} {start ready inner : Session} {order : ChainOrder} {inputs : List (SortId × Slot)}
      {carries : List Carry} (hstart : StartsLoop L var domain body .chained s f start)
      (horder : (start.contexts.get f.child).kind = .chained order)
      (hinputs : iterationInputs L f (start.inContext f.child) = .ok ((inputs, carries), ready))
      (hbody : block L body (enterBody f (start.snapshot.withSlots inputs) (ready.inContext start.context)) = .ok ((), inner))
      (hkept : ∀ sort ∉ f.plan.writes, t.snapshot.slot sort = s.snapshot.slot sort)
      (hthreaded : ∀ es, s.Runs M es → {x | M.sort x = f.sort ∧ start.contexts.Live M f.child (es ++ [x])}.Finite →
        ∃ its, order.Lists M es (fun x => M.sort x = f.sort ∧ start.contexts.Live M f.child (es ++ [x])) its ∧
          Threaded (fun x => (start.snapshot.withSlots inputs).on M (es ++ [x])) (fun x => inner.snapshot.on M (es ++ [x]))
            (s.snapshot.on M es) its (t.snapshot.on M es))

section Statement

variable {M : Structure} {L : Layout}

/-- A chained loop that was encoded threads the state in every structure that obeys its axioms. -/
theorem threads_of_statement (hlaid : L.Laid symbols)
    (hplaced : ∀ u c, Reaches L s (.forEach var domain body .chained :: rest) u c → u.Placed k L)
    (hrun : statement L (.forEach var domain body .chained) s = .ok ((), t)) (hM : M.Obeys ρ t) :
    ChainedLoopThreads M L var domain body s t := by
  have hs := hplaced s _ (.here _ _)
  obtain ⟨value, type, s1, hdomain, hcases⟩ := forEach_ok hrun
  obtain ⟨hbottom, rfl⟩ | ⟨sort, plan, child, s2, s3, hsort, hplan, hcontext, haxioms, -, hchained⟩ := hcases
  · exact .nothing hdomain hbottom ((quiet_objSet L false s.scope domain).of_ok hdomain).snapshot
  · have hstart : StartsLoop L var domain body .chained s _ s3 := .intro hdomain hsort hplan hcontext haxioms
    obtain ⟨r⟩ := ChainedRun.of_ok (hchained rfl)
    have hf := placed_of_starts hlaid hs hstart
    have hgrows := grows_of_starts hstart
    have hM3 : M.Obeys ρ s3 := hM.of_grows ((r.made_inner hf).trans r.extends_inner).axioms
    obtain ⟨_, _, _, _, _, hiterates⟩ := iterates_of_starts hlaid hs hstart hM3
    -- the end of the body is a place that the encoding comes to
    have hinner := hplaced r.inner [] (.chainedBody hstart r.starts (reaches_end body r.body))
    refine .threaded hstart r.kind r.starts r.body (fun sort hsort => ?_) fun es hes hfinite => ?_
    · rw [(r.slot_of_not_planned hsort).2, snapshot_of_starts hstart]
    · have hes3 := hes.beside hs.sorted hgrows.beside hgrows.guards
      rw [← snapshot_of_starts hstart]
      exact r.threaded hf hinner hM hes3 (hiterates.ordered _ r.kind es hes3.sorts) hfinite

end Statement

/-- For every valid store, every action whose theory can be made and every model of the theory: at every chained loop that the
encoding comes to, and at every position where the loop is run and has finitely many live iterations, the live iterations can be
listed in their order so that the first one starts from the state before the loop, every other one from the state that the one
before it has left, and the state after the loop is the one that the last iteration has left, or the one before the loop if
there is none. A sort that the body is not planned to write keeps its slot. -/
theorem chained_loops_threaded (spec : Spec) (store : Store) (hspec : Store.ofSpec spec = .ok store) (action : Action)
    (assumed checked : List FormulaExpr) (name : String) (theory : Theory)
    (htheory : preservationTheory store action assumed checked name = .ok theory) (M : Structure) (hM : M.Models theory) :
    ∃ entered, action.params.forM (Encode.param (Layout.ofStore store).1) (Layout.ofStore store).2 = .ok ((), entered) ∧
      ∀ s var domain body rest,
        Reaches (Layout.ofStore store).1 entered action.block s (.forEach var domain body .chained :: rest) →
        ∃ t, statement (Layout.ofStore store).1 (.forEach var domain body .chained) s = .ok ((), t) ∧
          ChainedLoopThreads M (Layout.ofStore store).1 var domain body s t := by
  obtain ⟨stages, -, hobeys⟩ := Stages.of_models htheory hM
  refine ⟨stages.entered, stages.params, fun s var domain body rest h => ?_⟩
  obtain ⟨t, ht, hext⟩ := encoded_of_reaches h rfl stages.block
  have hwf := Store.wellFormed_ofSpec hspec
  have hk : Loose fun _ => (⟨0⟩ : SortId) := fun _ _ => rfl
  have hplaced : ∀ u c, Reaches (Layout.ofStore store).1 s (.forEach var domain body .chained :: rest) u c →
      u.Placed (fun _ => (⟨0⟩ : SortId)) (Layout.ofStore store).1 :=
    fun u c hu => Reached.placed hwf hk (.statement stages.params (h.trans hu))
  have hM' : M.Obeys (fun _ => (M.inhabited ⟨0⟩).choose) t :=
    (hobeys _).of_grows (hext.axioms.trans stages.extends_walked.axioms)
  exact ⟨t, ht, threads_of_statement (Layout.laid_ofStore hwf) hplaced ht hM'⟩

namespace Hotel

/-- Guests leave one after another: each is removed, or only gives back all rooms. -/
def evict : Action where
  name := "evict"
  params := [⟨"leaving", "Guest", .any⟩]
  block := [
    .forEach "g" (.var "leaving") [
      .either [[.delete (.iterator "g")], [.deleteTuple (.iterator "g") "stays" (.allOf "Room")]]] .chained]

/-- Of three guests in one room two leave: the first is removed, the second gives the room back. -/
def departure : FiniteModel := model 3 1 [
  [[0], [1], [2]], [], [[0]],
  [[0], [1], [2]], [[0]], [[0], [1], [2]], [[0], [1]],
  [[0], [1]], [[0, 1]], [[0, 1]], [[0]], [[1]],
  [[0, 0], [0, 1], [0, 2], [1, 1], [1, 2]], [[0, 0], [0, 1], [0, 2], [1, 1], [1, 2]], [[0]], [[1]],
  [[0, 1], [0, 2]], [[0, 1], [0, 2]], [[1, 2]], [[0, 1], [0, 2], [1, 1], [1, 2]], [[0, 1], [0, 2], [1, 2]],
  [[1], [2]], [[2]], [[1], [2]], [[0]], [[2]]]

end Hotel

/-- When two of three guests leave, the second one starts from what the first one has left. -/
theorem chained_loops_threaded_evict :
    Store.ofSpec Hotel.spec = .ok Hotel.store ∧
    ∃ theory, preservationTheory Hotel.store Hotel.evict [] [] "evict" = .ok theory ∧
      Hotel.departure.toStructure.Models theory ∧
      ∃ entered t, statement (Layout.ofStore Hotel.store).1 (Hotel.evict.block.headD (.either [])) entered = .ok ((), t) ∧
        ChainedLoopThreads Hotel.departure.toStructure (Layout.ofStore Hotel.store).1 "g" (.var "leaving")
          [.either [[.delete (.iterator "g")], [.deleteTuple (.iterator "g") "stays" (.allOf "Room")]]] entered t := by
  have hspec := Hotel.ofSpec_spec
  obtain ⟨theory, htheory, hchecks⟩ := exists_ok_of_any
    (x := preservationTheory Hotel.store Hotel.evict [] [] "evict") (p := fun t => Hotel.departure.checks t) (by decide +kernel)
  have hmodels := models_of_checks hspec htheory hchecks
  obtain ⟨entered, -, hthreads⟩ :=
    chained_loops_threaded Hotel.spec Hotel.store hspec Hotel.evict [] [] "evict" theory htheory _ hmodels
  obtain ⟨t, ht, hloop⟩ := hthreads entered "g" (.var "leaving") _ [] (.here _ _)
  exact ⟨hspec, theory, htheory, hmodels, entered, t, ht, hloop⟩

end StoreCheck
