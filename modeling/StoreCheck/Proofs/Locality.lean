import StoreCheck.Proofs.Effects
import StoreCheck.Proofs.FlatOrder

/-!
# Local sets

A set counts as local if it holds only objects that the action has created. The analysis decides this from the variables that an
expression reads, and from nothing else (`Analysis.isLocal_of_readSet`): what a relation leads to from a local set is local. So a
map of effects can say that objects which are older than the action are deleted locally
(`old_object_deleted_locally_demolition`).
-/

namespace StoreCheck

open List

namespace Analysis

variable {store : Store} {inFormula isLocal : Bool} {a b : Analysis}

/-- The variable counts as local. -/
def holdsLocal (a : Analysis) (name : String) : Bool := (a.locals.find? name).getD false

/-- A variable that is read counts as the analysis says. -/
theorem isLocal_of_localityOf {name : String} (h : localityOf name a = .ok (isLocal, b)) : isLocal = a.holdsLocal name := by
  unfold localityOf at h
  rw [get_bind] at h
  unfold holdsLocal
  cases hl : a.locals.find? name with
  | none =>
    rw [hl] at h
    exact (throw_ok.1 h).elim
  | some l =>
    rw [hl] at h
    cases pure_ok.1 h
    rfl

/-- Sets that are read together count as local if each of them does. -/
theorem allLocal_of_readSets {es : List ObjExpr}
    (hes : ∀ e ∈ es, ∀ {l : Bool} {a b : Analysis}, readSet store inFormula e a = .ok (l, b) → l = e.isLocal a.holdsLocal)
    (h : readSets store inFormula es a = .ok (isLocal, b)) : isLocal = ObjExpr.allLocal a.holdsLocal es := by
  induction es generalizing isLocal a with
  | nil =>
    cases pure_ok.1 h
    rfl
  | cons e rest ih =>
    obtain ⟨he, hrest⟩ := forall_mem_cons.1 hes
    obtain ⟨first, others, a1, h1, h2, rfl, hreads, -⟩ := readSets_cons_ok h
    have hlocals : a1.holdsLocal = a.holdsLocal := by
      unfold holdsLocal
      rw [hreads.locals]
    rw [he h1, ih hrest h2, hlocals]
    rfl

/-- Whether a set that is read counts as local is decided by the variables in the expression. -/
theorem isLocal_of_readSet (e : ObjExpr) (h : readSet store inFormula e a = .ok (isLocal, b)) :
    isLocal = e.isLocal a.holdsLocal := by
  induction e generalizing isLocal a b with
  | allOf className => exact (readSet_allOf_ok h).1
  | var name | iterator name => exact isLocal_of_localityOf h
  | subset source ih | oneOf source ih => exact ih h
  | union parts ih => exact allLocal_of_readSets (fun e he => ih e he) h
  | deref source relation ih =>
    obtain ⟨a1, -, -, hsource, -⟩ := readSet_deref_ok h
    exact ih hsource

end Analysis

/-- The map has no non-local deletion of objects. -/
def EffectMap.deletesLocally (m : EffectMap) : Bool := m.entries.all fun p =>
  match p.1 with
  | .ofClass _ => !p.2.contains ⟨.delete, false⟩
  | .ofRelation _ => true

/-- Where no entry is a non-local deletion of objects, no class has one. -/
theorem EffectMap.contains_of_deletesLocally {m : EffectMap} (h : m.deletesLocally = true) (cls : ClassId) :
    m.contains (.ofClass cls) .delete false = false := by
  unfold contains effectsOn
  cases hlookup : lookup (Domain.ofClass cls) m.entries with
  | none => rfl
  | some s =>
    obtain ⟨l1, l2, hentries, -⟩ := lookup_eq_some_iff.1 hlookup
    have hmem : (Domain.ofClass cls, s) ∈ m.entries := by simp [hentries]
    exact Bool.not_eq_true' _ |>.mp (all_eq_true.1 h _ hmem)

namespace Hotel

/-- A new guest gets all rooms, and these are removed. -/
def demolition : Action := ⟨"demolition", [], [
  .create "Guest" (some "g"), .createTuple (.var "g") "stays" (.allOf "Room"), .delete (.deref (.var "g") "stays")]⟩

/-- The types of the variables once there is a new guest. -/
def guestTypes : TypeEnv := VarMap.insert [] "g" (ObjType.ofClass ⟨0⟩).single

/-- All deletions of the demolition count as local. -/
theorem demolition_facts :
    (demolition.effects store).toOption.any EffectMap.deletesLocally = true ∧ store.graph.ancestorsOf ⟨0⟩ = [] ∧
      Flow.statement store [] (.create "Guest" (some "g")) = .ok guestTypes ∧
      infer store guestTypes (.var "g") = .ok (ObjType.ofClass ⟨0⟩).single := by
  decide +kernel

/-- There are a guest and a room. -/
def quiet : Situation house := inHouse {o | o = 0 ∨ o = 2} {o | o = 0 ∨ o = 2}

/-- The new guest has all rooms. -/
def settled : Situation house :=
  let d := quiet.create (some "g") 1
  { d with state := d.state.relate stays stays (d.vars "g") (d.state.ofClass ⟨2⟩) }

/-- The rooms of the new guest are removed. -/
def demolished : Situation house :=
  { settled with state := settled.state.without (settled.state.targets stays (settled.vars "g")) }

/-- The second guest can be new. -/
theorem creates_guest : quiet.Creates store ⟨0⟩ 1 := by
  obtain ⟨-, hancestors, -⟩ := demolition_facts
  refine ⟨?_, fun d => ?_⟩
  · rintro (h | h)
    · exact absurd h (by decide : ¬ (1 : Nat) = 0)
    · exact absurd h (by decide : ¬ (1 : Nat) = 2)
  rw [hancestors]
  constructor
  · rintro (⟨rfl, -⟩ | ⟨-, h⟩)
    · exact .inl rfl
    · exact absurd h (by decide)
  · rintro (rfl | h)
    · exact .inl ⟨rfl, by decide⟩
    · cases h

/-- The demolition removes the rooms of the new guest. -/
theorem executes_demolition : ∃ k, Block.Executes store .all [] demolition.block k quiet demolished := by
  obtain ⟨-, hstays, hbase, -⟩ := hotel_names
  obtain ⟨-, -, hcreate, hguest⟩ := demolition_facts
  refine ⟨.seq (.object (1 : Nat)) (.seq (.sets []) (.seq (.sets []) .none)), ?_⟩
  refine ⟨_, _, guestTypes, quiet.create (some "g") 1, rfl, hcreate, ⟨1, ⟨0⟩, rfl, resolve_guest, creates_guest, rfl⟩, ?_⟩
  refine ⟨_, _, guestTypes, settled, rfl, rfl,
    ⟨[], _, _, stays, stays, rfl, ⟨⟨[], ⟨rfl, rfl⟩, rfl, _, resolve_room, rfl⟩, ⟨_, hguest, hstays⟩, hbase⟩, rfl⟩, ?_⟩
  refine ⟨_, _, guestTypes, demolished, rfl, rfl, ⟨[], _, rfl, ⟨_, _, _, ⟨rfl, rfl⟩, hguest, hstays, rfl⟩, rfl⟩, rfl, rfl⟩

end Hotel

open Hotel

/-- The rooms that a created guest gets count as created: they are deleted locally, also those that were there before. -/
theorem old_object_deleted_locally_demolition :
    Store.ofSpec Hotel.spec = .ok Hotel.store ∧ Hotel.house.Fits Hotel.store.graph ∧ Hotel.quiet.WellTyped Hotel.store [] ∧
      ∃ effects k c', Hotel.demolition.effects Hotel.store = .ok effects ∧
        (∀ cls, effects.contains (.ofClass cls) .delete false = false) ∧
        Block.Executes Hotel.store .all [] Hotel.demolition.block k Hotel.quiet c' ∧
        Hotel.quiet.state.alive 2 ∧ ¬ c'.state.alive 2 := by
  obtain ⟨effects, heffects, hlocal⟩ := exists_ok_of_any demolition_facts.1
  obtain ⟨k, hexecutes⟩ := executes_demolition
  refine ⟨ofSpec_spec, house_fits, wellTyped_inHouse subset_rfl, effects, k, demolished, heffects,
    EffectMap.contains_of_deletesLocally hlocal, hexecutes, .inr rfl, fun halive => halive.2 ?_⟩
  -- the new guest is related to the room
  have hroom : (quiet.create (some "g") 1).state.alive 2 := .inl (.inr rfl)
  exact ⟨1, rfl, .inr ⟨rfl, ⟨rfl, hroom, .inr ⟨rfl, le_rfl⟩⟩, ⟨.inr rfl, .inl ⟨rfl, by decide⟩⟩, hroom, .inr ⟨rfl, le_rfl⟩⟩⟩

end StoreCheck
