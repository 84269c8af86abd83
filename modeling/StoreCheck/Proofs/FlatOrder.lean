import StoreCheck.Proofs.Execution
import StoreCheck.Proofs.WriteSet

/-!
# The iterations of a flat loop, one after another

A flat loop runs each iteration from the store before the loop and merges the results. `InSequence` runs the iterations one after
another instead, each from the store that the one before leaves. With the same choices they end in one way only
(`InSequence.unique`), and a loop over one object ends as its one iteration does (`InSequence.of_flat_singleton`).

For more objects the two differ where an iteration reads what another one makes. Such reads are refused, but not those that go
through a variable which holds a created object: these count as reads of what the iteration has made itself
(`flat_iterations_differ_reception`).
-/

namespace StoreCheck

open ObjType Block

variable {U : Universe}

/-- The iterations are run one after another, each from the store that the one before leaves, and with the variables as they are
before the loop. -/
def InSequence (store : Store) (hand : Handover) (types : TypeEnv) (var : String) (body : Block) (inner : U.Obj → Choices U)
    (order : List U.Obj) (c c' : Situation U) : Prop :=
  Chain (fun x d d' => ∃ e, Block.Executes store hand types body (inner x) (Situation.enter { d with vars := c.vars } var x) e ∧
    d' = { e with vars := c.vars }) order c c'

/-- With the same choices and in the same order, the iterations end in one way only. -/
theorem InSequence.unique {store : Store} {hand : Handover} {types : TypeEnv} {var : String} {body : Block}
    {inner : U.Obj → Choices U} {order : List U.Obj} {c c' c'' : Situation U}
    (h : InSequence store hand types var body inner order c c') (h' : InSequence store hand types var body inner order c c'') :
    c' = c'' := by
  refine Chain.unique (fun x d e e' he he' => ?_) h h'
  obtain ⟨i, hi, rfl⟩ := he
  obtain ⟨i', hi', rfl⟩ := he'
  rw [executes_unique body hi hi']

/-- The merge of one iteration is its result. -/
theorem State.merge_singleton (st : State U) (x : U.Obj) (ends : U.Obj → State U) : st.merge {x} ends = ends x := by
  ext <;> simp only [merge, Set.mem_singleton_iff, forall_eq, exists_eq_left, ← or_and_right, Classical.em, true_and]

/-- A flat loop over one object ends as its iteration does. -/
theorem InSequence.of_flat_singleton {store : Store} {hand : Handover} {types : TypeEnv} {var : String} {domain : ObjExpr}
    {body : Block} {parts : List (Set U.Obj)} {order : List U.Obj} {inner : U.Obj → Choices U} {t : ObjType} {x : U.Obj}
    {c c' : Situation U} (ht : infer store types domain = .ok t)
    (hx : domain.Evaluates store types c.state c.vars parts {x} [])
    (h : (Statement.forEach var domain body .flat).Executes store hand types (.loop parts order inner) c c') :
    InSequence store hand (types.insert var t.single) var body inner [x] c c' := by
  obtain ⟨_, _, _, X, t', ends, hk, ht', hX, hends, -, rfl⟩ := h
  cases hk
  cases ht.symm.trans ht'
  obtain ⟨rfl, -⟩ := ObjExpr.evaluates_unique domain hX hx
  have hend := hends x rfl
  refine ⟨_, ⟨ends x, hend, ?_⟩, rfl⟩
  refine Situation.ext ?_ rfl ?_
  · exact State.merge_singleton c.state x fun y => (ends y).state
  · have hused : (c.enter var x).used ⊆ (ends x).used := used_subset body hend
    simpa [Situation.merge] using show c.used ⊆ (ends x).used from hused

namespace Hotel

/-! ## A house -/

/-- Two guests, and rooms. -/
abbrev house : Universe := ⟨Nat, fun c o => (c = ⟨0⟩ ∧ o < 2) ∨ (c = ⟨2⟩ ∧ 2 ≤ o)⟩

/-- The objects of the house belong to no ancestors of their classes, and to one component each. -/
theorem house_fits : house.Fits store.graph where
  parents := by
    rintro c p hp o (⟨rfl, -⟩ | ⟨rfl, -⟩)
    · cases hp
    · cases hp
  single := by
    rintro c d o (⟨rfl, ho⟩ | ⟨rfl, ho⟩) (⟨rfl, ho'⟩ | ⟨rfl, ho'⟩)
    · rfl
    · omega
    · omega
    · rfl

/-- The relation between guests and rooms. -/
def stays : Relation := ⟨⟨0⟩, "stays", ⟨0⟩, ⟨2⟩, .any, none⟩

/-- The relation between rooms and guests. -/
def guests : Relation := ⟨⟨1⟩, "guests", ⟨2⟩, ⟨0⟩, .any, some ⟨0⟩⟩

/-- The classes and relations of the hotel by name. -/
theorem hotel_names :
    (store.graph.resolve "Guest" = .ok ⟨0⟩ ∧ store.graph.resolve "Room" = .ok ⟨2⟩ ∧ store.graph.ancestorsOf ⟨2⟩ = []) ∧
      store.relationOn (ofClass ⟨0⟩).single.signature "stays" = .ok stays ∧ store.relation? ⟨0⟩ = some stays ∧
      store.relationOn (ofClass ⟨2⟩).single.signature "guests" = .ok guests := by
  decide +kernel

theorem resolve_guest : store.graph.resolve "Guest" = .ok ⟨0⟩ := hotel_names.1.1

theorem resolve_room : store.graph.resolve "Room" = .ok ⟨2⟩ := hotel_names.1.2.1

/-- Nothing is related, and no variable is bound. -/
def inHouse (alive used : Set house.Obj) : Situation house := ⟨⟨(· ∈ alive), fun _ _ _ => False⟩, fun _ => ∅, used⟩

/-- A house where nothing is related is typed. -/
theorem wellTyped_inHouse (h : alive ⊆ used) : (inHouse alive used).WellTyped store [] where
  inside _ _ h := by cases h
  unbound _ _ := rfl
  ends _ _ _ h := h.elim
  alive _ ho := h ho
  known _ := Set.empty_subset _
  linked _ _ _ h := h.elim

/-- A room that has not been used can be opened. -/
theorem creates_room {c : Situation house} (hroom : 2 ≤ room) (hfresh : room ∉ c.used) : c.Creates store ⟨2⟩ room := by
  obtain ⟨⟨-, -, hancestors⟩, -⟩ := hotel_names
  refine ⟨hfresh, fun d => ?_⟩
  rw [hancestors]
  constructor
  · rintro (⟨-, h⟩ | ⟨h, -⟩)
    · exact absurd h (Nat.not_lt.2 hroom)
    · exact .inl h
  · rintro (rfl | h)
    · exact .inr ⟨rfl, hroom⟩
    · cases h

/-! ## Receiving the guests -/

/-- The guest gets the room, and whoever had it before has to go. -/
def receiving : Block := [
  .assign "x" (.deref (.var "r") "guests"), .createTuple (.iterator "g") "stays" (.var "r"), .delete (.var "x")]

/-- One room is opened, and all guests get it. -/
def reception : Action := ⟨"reception", [], [.create "Room" (some "r"), .forEach "g" (.allOf "Guest") receiving .flat]⟩

/-- The theory of the reception: the encoding accepts it. -/
def receptionTheory : Theory := (preservationTheory store reception [] [] "reception").toOption.get (by decide +kernel)

theorem preservationTheory_reception : preservationTheory store reception [] [] "reception" = .ok receptionTheory :=
  toOption_get_ok _

/-- The types of the variables before the loop. -/
def roomTypes : TypeEnv := VarMap.insert [] "r" (ofClass ⟨2⟩).single

/-- The types of the variables in an iteration. -/
def receivingTypes : TypeEnv := VarMap.insert roomTypes "g" (ofClass ⟨0⟩).single

/-- The types of the variables once the guests of the room are known. -/
def receivedTypes : TypeEnv := VarMap.insert receivingTypes "x" ⟨.ofClass ⟨0⟩, .any⟩

/-- The expressions of the reception have these types. -/
theorem reception_types :
    infer store roomTypes (.allOf "Guest") = .ok (ofClass ⟨0⟩) ∧
    infer store receivingTypes (.var "r") = .ok (ofClass ⟨2⟩).single ∧
    infer store receivedTypes (.iterator "g") = .ok (ofClass ⟨0⟩).single ∧
    Flow.statement store receivingTypes (.assign "x" (.deref (.var "r") "guests")) = .ok receivedTypes := by
  decide +kernel

/-- There are two guests, and no room. -/
def lobby : Situation house := inHouse {o | o < 2} {o | o < 2}

/-- The room is opened. -/
def opened : Situation house := lobby.create (some "r") 2

/-- The guest of the iteration is received. -/
def receive (c : Situation house) : Situation house :=
  let had := c.vars.set "x" (c.state.targets guests (c.vars "r"))
  ⟨(c.state.relate stays stays (had "g") (had "r")).without (had "x"), had, c.used⟩

/-- Nothing is left open in an iteration. -/
def received : Choices house := .seq (.sets []) (.seq (.sets []) (.seq (.sets []) .none))

/-- What an iteration does. -/
theorem executes_receiving (c : Situation house) : Executes store .all receivingTypes receiving received c (receive c) := by
  obtain ⟨-, hstays, hbase, hguests⟩ := hotel_names
  obtain ⟨-, hroom, hguest, htypes⟩ := reception_types
  have hassign : (ObjExpr.deref (.var "r") "guests").Evaluates store receivingTypes c.state c.vars []
      (c.state.targets guests (c.vars "r")) [] := ⟨_, _, _, ⟨rfl, rfl⟩, hroom, hguests, rfl⟩
  refine ⟨_, _, receivedTypes, { c with vars := c.vars.set "x" (c.state.targets guests (c.vars "r")) }, rfl, htypes,
    ⟨[], _, rfl, hassign, rfl⟩, ?_⟩
  refine ⟨_, _, receivedTypes, _, rfl, rfl, ⟨[], _, _, stays, stays, rfl, ⟨⟨[], ⟨rfl, rfl⟩, rfl, rfl⟩, ⟨_, hguest, hstays⟩, hbase⟩, rfl⟩, ?_⟩
  exact ⟨_, _, receivedTypes, receive c, rfl, rfl, ⟨[], _, rfl, ⟨rfl, rfl⟩, rfl⟩, rfl, rfl⟩

/-- Whoever has no room stays when a guest is received. -/
theorem alive_receive {c : Situation house} {room o : house.Obj} (hroom : c.vars "r" = {room}) (halive : c.state.alive o)
    (hnone : ¬ c.state.linked ⟨0⟩ o room) : (receive c).state.alive o := by
  refine ⟨halive, ?_⟩
  rintro ⟨a, ha, hlinked⟩
  rw [hroom] at ha
  cases ha
  exact hnone hlinked

/-- The guest who has the room goes when another one is received. -/
theorem not_alive_receive {c : Situation house} {room o : house.Obj} (hroom : c.vars "r" = {room})
    (hlinked : c.state.linked ⟨0⟩ o room) : ¬ (receive c).state.alive o := by
  intro halive
  exact halive.2 ⟨room, by rw [hroom]; rfl, hlinked⟩

/-- The guest of the iteration has the room after it, if nobody had it. -/
theorem linked_receive {c : Situation house} {room o : house.Obj} (hroom : c.vars "r" = {room}) (hguest : c.vars "g" = {o})
    (halive : c.state.alive room ∧ house.isOf ⟨2⟩ room) (hisGuest : c.state.alive o ∧ house.isOf ⟨0⟩ o)
    (hnone : ∀ a, ¬ c.state.linked ⟨0⟩ a room) : (receive c).state.linked ⟨0⟩ o room := by
  have hempty : c.state.targets guests (c.vars "r") = ∅ := by
    refine Set.eq_empty_of_forall_notMem ?_
    rintro a ⟨b, hb, hlinked⟩
    rw [hroom] at hb
    cases hb
    exact hnone a hlinked
  have hnotIn : ∀ a, a ∉ (c.vars.set "x" (c.state.targets guests (c.vars "r"))) "x" := by
    intro a ha
    rw [hempty] at ha
    exact ha
  refine ⟨.inr ⟨rfl, ⟨?_, ?_⟩, hisGuest, halive⟩, hnotIn o, hnotIn room⟩
  · change o ∈ c.vars "g"
    rw [hguest]
    rfl
  · change room ∈ c.vars "r"
    rw [hroom]
    rfl

end Hotel

open Hotel

/-- Two guests get the same new room, and whoever has it when another one comes has to go. Each iteration of the loop finds the
room empty, so the merge keeps both guests; one after another, the first guest goes. The encoding accepts the loop. -/
theorem flat_iterations_differ_reception :
    Store.ofSpec Hotel.spec = .ok Hotel.store ∧
    (∃ theory, preservationTheory Hotel.store Hotel.reception [] [] "reception" = .ok theory) ∧
    Hotel.house.Fits Hotel.store.graph ∧ Hotel.lobby.WellTyped Hotel.store [] ∧
    (Statement.create "Room" (some "r")).Executes Hotel.store .all [] (.object (2 : Nat)) Hotel.lobby Hotel.opened ∧
    ∃ c' d, (Statement.forEach "g" (.allOf "Guest") Hotel.receiving .flat).Executes Hotel.store .all Hotel.roomTypes
        (.loop [] [] fun _ => Hotel.received) Hotel.opened c' ∧
      InSequence Hotel.store .all Hotel.receivingTypes "g" Hotel.receiving (fun _ => Hotel.received) [0, 1] Hotel.opened d ∧
      c'.state.alive 0 ∧ ¬ d.state.alive 0 := by
  obtain ⟨hguests, -⟩ := reception_types
  have hroom : opened.state.alive 2 ∧ house.isOf ⟨2⟩ 2 := ⟨.inr rfl, .inr ⟨rfl, le_rfl⟩⟩
  have hguest : opened.state.alive 0 ∧ house.isOf ⟨0⟩ 0 := ⟨.inl (by decide : 0 < 2), .inl ⟨rfl, by decide⟩⟩
  refine ⟨ofSpec_spec, ⟨_, preservationTheory_reception⟩, house_fits, wellTyped_inHouse subset_rfl, ?_, ?_⟩
  · exact ⟨_, _, rfl, resolve_room, creates_room le_rfl (by decide : ¬ 2 < 2), rfl⟩
  let first : Situation house := { receive (opened.enter "g" (0 : Nat)) with vars := opened.vars }
  have hfirst : first.state.linked ⟨0⟩ 0 2 := linked_receive (c := opened.enter "g" (0 : Nat)) rfl rfl hroom hguest fun _ h => h
  refine ⟨opened.merge (opened.state.ofClass ⟨0⟩) fun x => receive (opened.enter "g" x),
    { receive (first.enter "g" (1 : Nat)) with vars := opened.vars }, ?_, ?_, ?_, ?_⟩
  · refine ⟨[], [], _, _, _, _, rfl, hguests, ⟨rfl, _, resolve_guest, rfl⟩, fun x _ => executes_receiving _,
      fun x _ y _ _ o ho => absurd ho.1 ho.2, rfl⟩
  · refine ⟨first, ⟨_, executes_receiving _, rfl⟩, _, ⟨_, executes_receiving _, rfl⟩, ?_⟩
    rw [Chain]
  · refine .inl ⟨hguest.1, fun x _ => ?_⟩
    exact alive_receive (c := opened.enter "g" x) rfl hguest.1 fun h => h
  · exact not_alive_receive (c := first.enter "g" (1 : Nat)) rfl hfirst

end StoreCheck
