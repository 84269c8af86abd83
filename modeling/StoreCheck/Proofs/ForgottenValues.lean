import StoreCheck.Proofs.FlatOrder
import StoreCheck.Proofs.Logic.Sorting

/-!
# Values that a chained loop forgets

A variable that the body of a chained loop assigns on some paths only, and reads on none, starts every iteration with its value from
before the loop. So the theory of an action can entail what an execution does not preserve (`raffle_entailed_not_preserved`): one
guest wins, another one is asked after them, and for the theory nobody has won.
-/

namespace StoreCheck

namespace Hotel

/-- A guest is asked last, for now, and may win. -/
def asking : Block := [.assign "last" (.iterator "g"), .either [[.assign "winner" (.iterator "g")], []]]

/-- The last one who was asked wins, or nobody. -/
def lastWins : FormulaExpr := .isIn (.var "winner") (.var "last")

/-- Every guest is asked in turn; all rooms are closed if one wins who is not the last. -/
def raffle : Action where
  name := "raffle"
  params := []
  block := [.assign "winner" (.union []), .assign "last" (.union []), .forEach "g" (.allOf "Guest") asking .chained,
    .ifElse lastWins [] [.delete (.allOf "Room")]]

/-- There is a room. -/
def hasRoom : FormulaExpr := .not (.isEmpty (.allOf "Room"))

/-! ### The theory -/

/-- The predicates of the theory, in the order of their declaration. -/
def rafflePreds : List String := ["is_guest", "is_regular", "is_room", "existed_initially_guest", "existed_initially_room",
  "existed_initially_guest_stays", "iter_g", "before_g", "just_before_g", "first_g", "last_g", "either_1", "either_2", "after_last",
  "after_winner", "then", "else", "state_room", "state_guest_stays", "state_room_2"]

def predNamed (name : String) : PredId := ⟨rafflePreds.idxOf name⟩

def isAt (name x : String) : Formula := .atom (predNamed name) [.var x]

/-- The value of a variable after the loop over the guests. -/
def afterGuests (name a b l x : String) (value : Formula) : Formula :=
  .and [.implies (.not (.forSome [⟨a, ⟨0⟩⟩] (isAt "iter_g" a))) (.forAll [⟨b, ⟨0⟩⟩] (.not (isAt name b))),
    .forAll [⟨l, ⟨0⟩⟩] (.implies (isAt "last_g" l) (.forAll [⟨x, ⟨0⟩⟩] (.iff (isAt name x) value)))]

def lastWinsAxiom : Formula := .forAll [⟨"V23", ⟨0⟩⟩] (.implies (isAt "after_winner" "V23") (isAt "after_last" "V23"))

/-- What the theory says of the last guest and the winner, and of the rooms in the end. The bound variables have the names that the
encoding gives them. -/
def raffleAxioms : List Formula := [
  -- there is a first and a last guest
  .forAll [⟨"V11", ⟨0⟩⟩] (.implies (isAt "iter_g" "V11")
    (.and [.forSome [⟨"V12", ⟨0⟩⟩] (isAt "first_g" "V12"), .forSome [⟨"V13", ⟨0⟩⟩] (isAt "last_g" "V13")])),
  -- who was asked last, and who has won
  afterGuests "after_last" "V15" "V16" "V17" "V18" (.eq (.var "V18") (.var "V17")),
  afterGuests "after_winner" "V19" "V20" "V21" "V22" (.and [isAt "either_1" "V21", .eq (.var "V22") (.var "V21")]),
  -- whether the last one wins, and the rooms that are left
  .and [.iff (.atom (predNamed "then") []) lastWinsAxiom, .iff (.atom (predNamed "else") []) (.not lastWinsAxiom)],
  .forAll [⟨"V26", ⟨1⟩⟩] (.iff (isAt "state_room_2" "V26")
    (.or [.and [.atom (predNamed "then") [], isAt "existed_initially_room" "V26"],
      .and [.atom (predNamed "else") [], isAt "state_room" "V26"]]))]

def someRoom (x name : String) : Formula := .forSome [⟨x, ⟨1⟩⟩] (.and [isAt name x, isAt "is_room" x])

/-- If there is a room at first, there is one in the end. -/
def roomStays : Formula := .implies (someRoom "V31" "existed_initially_room") (someRoom "V32" "state_room_2")

theorem raffle_theory : (preservationTheory store raffle [hasRoom] [hasRoom] "raffle").toOption.any (fun t =>
    t.wellSorted && raffleAxioms.all (fun f => decide (f ∈ t.axioms)) && decide (t.conjectures = [roomStays]) &&
      decide (rafflePreds <+: t.symbols.predicates.map (·.name))) = true := by
  decide +kernel

/-- In every model of the axioms the winner is nobody or the last guest. -/
theorem raffle_entails {M : Structure} (h : ∀ f ∈ raffleAxioms, M.Satisfies f) :
    M.Satisfies roomStays := by
  intro ρ
  have h := fun f hf => h f hf ρ
  simp [raffleAxioms, afterGuests, lastWinsAxiom, isAt, Formula.Holds, Structure.ForAll, Structure.ForSome, Formula.HoldAll,
    Formula.HoldSome, Valuation.set, Term.eval] at h
  obtain ⟨hends, ⟨-, hlast⟩, ⟨hnobody, hwinner⟩, ⟨hthen, -⟩, hrooms⟩ := h
  have hwins : M.pred (predNamed "then") [] := by
    refine hthen.2 fun g hg hwins => ?_
    by_cases hasked : ∃ x, M.sort x = ⟨0⟩ ∧ M.pred (predNamed "iter_g") [x]
    · obtain ⟨x, hx, hiter⟩ := hasked
      obtain ⟨-, l, hl, hisLast⟩ := hends x hx hiter
      exact (hlast l hl hisLast g hg).2 ((hwinner l hl hisLast g hg).1 hwins).2
    · exact absurd hwins (hnobody (fun x hx hiter => hasked ⟨x, hx, hiter⟩) g hg)
  simp [roomStays, someRoom, isAt, Formula.Holds, Structure.ForSome, Formula.HoldAll, Valuation.set, Term.eval]
  exact fun x hx hroom hclass => ⟨x, hx, (hrooms x hx).2 (.inl ⟨hwins, hroom⟩), hclass⟩

/-! ### The execution -/

/-- There are two guests and a room. -/
def occupied : Situation house := inHouse {o | o < 3} {o | o < 3}

/-- All rooms are closed. -/
def close (c : Situation house) : Situation house := { c with state := c.state.without (c.state.ofClass ⟨2⟩) }

/-- There is a room if and only if a room exists. -/
theorem holds_rooms (types : TypeEnv) (c : Situation house) :
    hasRoom.Holds store c.state types c.vars ↔ c.state.ofClass ⟨2⟩ ≠ ∅ := by
  refine not_congr ⟨?_, fun h => ⟨_, resolve_room, h.symm⟩⟩
  rintro ⟨cls, hcls, h⟩
  cases resolve_room.symm.trans hcls
  exact h.symm

/-- The guest is the last one who was asked, and may win. -/
def asked (wins : Bool) (c : Situation house) : Situation house :=
  let vars := c.vars.set "last" (c.vars "g")
  { c with vars := if wins then vars.set "winner" (c.vars "g") else vars }

/-- The choices of asking a guest. -/
def answer (wins : Bool) : Choices house :=
  .seq (.sets []) (.seq (if wins then .block 0 (.seq (.sets []) .none) else .block 1 .none) .none)

/-- The types of the variables before the loop. -/
def askTypes : TypeEnv := [("last", .bottom), ("winner", .bottom)]

theorem executes_asking (wins : Bool) (c : Situation house) :
    Block.Executes store .all (VarMap.insert askTypes "g" (ObjType.ofClass ⟨0⟩).single) asking (answer wins) c
      (asked wins c) := by
  refine ⟨_, _, _, { c with vars := c.vars.set "last" (c.vars "g") }, rfl, rfl, ⟨[], _, rfl, ⟨rfl, rfl⟩, rfl⟩, ?_⟩
  refine ⟨_, _, _, asked wins c, rfl, rfl, .inr ?_, rfl, rfl⟩
  cases wins with
  | true => exact ⟨0, _, rfl, _, _, _, _, rfl, rfl, ⟨[], _, rfl, ⟨rfl, rfl⟩, rfl⟩, rfl, rfl⟩
  | false => exact ⟨1, _, rfl, rfl, rfl⟩

/-- The types after the raffle. -/
def raffled : TypeEnv := [("winner", ⟨.ofClass ⟨0⟩, ⟨0, some 1⟩⟩), ("last", ⟨.ofClass ⟨0⟩, ⟨0, some 1⟩⟩)]

theorem raffle_types :
    Flow.statement store [] (.assign "winner" (.union [])) = .ok [("winner", .bottom)] ∧
    Flow.statement store [("winner", .bottom)] (.assign "last" (.union [])) = .ok askTypes ∧
    Flow.statement store askTypes (.forEach "g" (.allOf "Guest") asking .chained) = .ok raffled ∧
    infer store askTypes (.allOf "Guest") = .ok (ObjType.ofClass ⟨0⟩) ∧
    Flow.carried askTypes "g" asking = ["last", "winner"] := by
  decide +kernel

theorem evaluates_nobody (types : TypeEnv) (c : Situation house) :
    (ObjExpr.union []).Evaluates store types c.state c.vars [] ∅ [] := by
  refine ⟨[], ⟨rfl, rfl⟩, ?_⟩
  simp

/-- Nobody has been asked yet. -/
def unasked : Situation house := { occupied with vars := (occupied.vars.set "winner" ∅).set "last" ∅ }

/-- The values that an iteration leaves to the next one. -/
def handed (c : Situation house) : Situation house := { c with vars := Vars.leave ["last", "winner"] unasked.vars c.vars }

/-- Both guests have been asked, and the first one has won. -/
def askedBoth : Situation house :=
  let first := handed (asked true (unasked.enter "g" (0 : Nat)))
  handed (asked false (first.enter "g" (1 : Nat)))

/-- The guests are asked one after another, and the first one wins. -/
def answers : Choices house := .loop [] [(0 : Nat), (1 : Nat)] fun x => answer (x == (0 : Nat))

theorem executes_askingAll :
    (Statement.forEach "g" (.allOf "Guest") asking .chained).Executes store .all askTypes answers unasked askedBoth := by
  obtain ⟨-, -, -, hguests, hcarried⟩ := raffle_types
  refine ⟨[], _, _, _, _, rfl, hguests, ⟨rfl, _, resolve_guest, rfl⟩, by decide, fun x => ?_, ?_⟩
  · simp [State.ofClass, unasked, occupied, inHouse]
    omega
  · rw [hcarried]
    refine ⟨_, ⟨_, executes_asking true _, rfl⟩, _, ⟨_, executes_asking false _, rfl⟩, ?_⟩
    rw [Chain]
    rfl

theorem not_lastWins_askedBoth : ¬ lastWins.Holds store askedBoth.state raffled askedBoth.vars := by
  have hvars : askedBoth.vars "winner" = {(0 : Nat)} ∧ askedBoth.vars "last" = {(1 : Nat)} := by
    simp [askedBoth, handed, asked, Vars.leave, Vars.set, Situation.enter]
  rintro ⟨X, Y, hX, hY, hsubset⟩
  cases hX
  cases hY
  rw [hvars.1, hvars.2] at hsubset
  exact Nat.zero_ne_one (hsubset rfl)

theorem executes_raffle : ∃ k, Block.Executes store .all [] raffle.block k occupied (close askedBoth) := by
  obtain ⟨hfirst, hsecond, hloop, -, -⟩ := raffle_types
  refine ⟨.seq (.sets []) (.seq (.sets []) (.seq answers (.seq (.condition lastWins .none (.seq (.sets []) .none)) .none))), ?_⟩
  refine ⟨_, _, _, _, rfl, hfirst, ⟨[], ∅, rfl, evaluates_nobody _ _, rfl⟩, ?_⟩
  refine ⟨_, _, _, unasked, rfl, hsecond, ⟨[], ∅, rfl, evaluates_nobody _ _, rfl⟩, ?_⟩
  refine ⟨_, _, _, askedBoth, rfl, hloop, executes_askingAll, ?_⟩
  refine ⟨_, _, _, close askedBoth, rfl, rfl, ⟨_, _, _, rfl, rfl, .inr ⟨not_lastWins_askedBoth, ?_⟩⟩, rfl, rfl⟩
  exact ⟨_, _, _, close askedBoth, rfl, rfl, ⟨[], _, rfl, ⟨rfl, _, resolve_room, rfl⟩, rfl⟩, rfl, rfl⟩

end Hotel

open Hotel

/-- All rooms are closed if a guest wins who is not asked last. The theory forgets such a guest, so it entails that a room stays; but
the first of two guests may win. -/
theorem raffle_entailed_not_preserved : ∃ theory,
    preservationTheory store raffle [hasRoom] [hasRoom] "raffle" = .ok theory ∧
    theory.wellSorted = true ∧ theory.Entails ∧ house.Fits store.graph ∧ occupied.WellTyped store [] ∧
    hasRoom.Holds store occupied.state [] occupied.vars ∧
    ∃ k c', Block.Executes store .all [] raffle.block k occupied c' ∧
      ¬ hasRoom.Holds store c'.state [] c'.vars := by
  obtain ⟨theory, htheory, hfacts⟩ := exists_ok_of_any raffle_theory
  simp only [Bool.and_eq_true, decide_eq_true_eq, List.all_eq_true] at hfacts
  obtain ⟨⟨⟨hsorted, haxioms⟩, hconjectures⟩, -⟩ := hfacts
  obtain ⟨k, hexecutes⟩ := executes_raffle
  refine ⟨theory, htheory, hsorted, fun M hM f hf => ?_, house_fits, wellTyped_inHouse subset_rfl, ?_, k, _, hexecutes,
    fun hopen => ?_⟩
  · rw [hconjectures, List.mem_singleton] at hf
    subst hf
    exact raffle_entails fun f hf => hM.axioms f (haxioms f hf)
  · refine (holds_rooms _ _).2 (Set.Nonempty.ne_empty ⟨(2 : Nat), ?_, .inr ⟨rfl, le_rfl⟩⟩)
    exact (by decide : 2 < 3)
  · refine (holds_rooms _ _).1 hopen (Set.eq_empty_of_forall_notMem fun o ho => ?_)
    exact ho.1.2 ⟨ho.1.1, ho.2⟩

end StoreCheck
