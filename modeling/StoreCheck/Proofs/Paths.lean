import Mathlib.Tactic.MkIffOfInductiveProp
import Mathlib.Tactic.Tauto
import StoreCheck.Proofs.Induction

/-!
# Reads and writes along paths

A path through a block takes one branch of each alternative that it meets and runs each loop any number of times. It is the list
of its points: the expressions and conditions that are evaluated and the variables that are bound, one after another. The scan of
a block keeps one list of variables for all paths at once; still it finds exactly the variables that some path reads before it
has bound them, and the variables that some path binds (`scans_follow_paths`).
-/

namespace StoreCheck

open List Block Statement Scan

variable {x var : String} {vars : List QuantVar} {path : List PathPoint} {more : List String}

/-! ## Free occurrences -/

/-- The variable occurs in the expression. -/
@[mk_iff]
inductive ObjExpr.Reads (x : String) : ObjExpr → Prop where
  | var : Reads x (.var x)
  | iterator : Reads x (.iterator x)
  | subset {e : ObjExpr} (h : e.Reads x) : Reads x (.subset e)
  | oneOf {e : ObjExpr} (h : e.Reads x) : Reads x (.oneOf e)
  | union {e : ObjExpr} {parts : List ObjExpr} (he : e ∈ parts) (h : e.Reads x) : Reads x (.union parts)
  | deref {e : ObjExpr} {relation : String} (h : e.Reads x) : Reads x (.deref e relation)

/-- The variable occurs in a domain, and the variables that are bound before that domain are others. -/
def QuantVar.SomeReads (x : String) : List QuantVar → Prop
  | [] => False
  | v :: rest => v.domain.Reads x ∨ v.name ≠ x ∧ SomeReads x rest

/-- The variable occurs in the formula outside the quantifiers that bind it. -/
@[mk_iff]
inductive FormulaExpr.Reads (x : String) : FormulaExpr → Prop where
  | not {f : FormulaExpr} (h : f.Reads x) : Reads x (.not f)
  | and {f : FormulaExpr} {parts : List FormulaExpr} (hf : f ∈ parts) (h : f.Reads x) : Reads x (.and parts)
  | or {f : FormulaExpr} {parts : List FormulaExpr} (hf : f ∈ parts) (h : f.Reads x) : Reads x (.or parts)
  | equiv {f : FormulaExpr} {parts : List FormulaExpr} (hf : f ∈ parts) (h : f.Reads x) : Reads x (.equiv parts)
  | premise {a b : FormulaExpr} (h : a.Reads x) : Reads x (.implies a b)
  | conclusion {a b : FormulaExpr} (h : b.Reads x) : Reads x (.implies a b)
  | equal {e : ObjExpr} {sets : List ObjExpr} (he : e ∈ sets) (h : e.Reads x) : Reads x (.equal sets)
  | set {a b : ObjExpr} (h : a.Reads x) : Reads x (.isIn a b)
  | within {a b : ObjExpr} (h : b.Reads x) : Reads x (.isIn a b)
  | isEmpty {a : ObjExpr} (h : a.Reads x) : Reads x (.isEmpty a)
  | forAllDomain {vars : List QuantVar} {body : FormulaExpr} (h : QuantVar.SomeReads x vars) : Reads x (.forAll vars body)
  | forAllBody {vars : List QuantVar} {body : FormulaExpr} (hx : ∀ v ∈ vars, v.name ≠ x) (h : body.Reads x) :
      Reads x (.forAll vars body)
  | forSomeDomain {vars : List QuantVar} {body : FormulaExpr} (h : QuantVar.SomeReads x vars) : Reads x (.forSome vars body)
  | forSomeBody {vars : List QuantVar} {body : FormulaExpr} (hx : ∀ v ∈ vars, v.name ≠ x) (h : body.Reads x) :
      Reads x (.forSome vars body)

theorem ObjExpr.mem_readsAll : x ∈ readsAll es ↔ ∃ e ∈ es, x ∈ e.reads := by
  induction es with
  | nil => simp [readsAll]
  | cons e rest ih => simp [readsAll, ih]

theorem FormulaExpr.mem_readsAll : x ∈ readsAll fs ↔ ∃ f ∈ fs, x ∈ f.reads := by
  induction fs with
  | nil => simp [readsAll]
  | cons f rest ih => simp [readsAll, ih]

@[simp]
theorem ObjExpr.mem_reads {e : ObjExpr} : x ∈ e.reads ↔ e.Reads x := by
  induction e with
  | union parts ih =>
    rw [reads, mem_readsAll, reads_iff]
    simpa using exists_congr fun e => and_congr_right (ih e)
  | _ =>
    rw [reads_iff]
    simp_all [reads, eq_comm]

theorem mem_domainReads : x ∈ domainReads bound vars ↔ x ∉ bound ∧ QuantVar.SomeReads x vars := by
  induction vars generalizing bound with
  | nil => simp [domainReads, QuantVar.SomeReads]
  | cons v rest ih =>
    simp only [domainReads, mem_append, mem_filter, decide_eq_true_eq, ih, mem_cons, QuantVar.SomeReads,
      ObjExpr.mem_reads]
    grind

theorem mem_quantifierReads :
    x ∈ quantifierReads vars names ↔ QuantVar.SomeReads x vars ∨ (∀ v ∈ vars, v.name ≠ x) ∧ x ∈ names := by
  simp only [quantifierReads, mem_append, mem_domainReads, mem_filter, decide_eq_true_eq, mem_map]
  grind

@[simp]
theorem FormulaExpr.mem_reads {f : FormulaExpr} : x ∈ f.reads ↔ f.Reads x := by
  induction f with
  | and parts ih | or parts ih | equiv parts ih =>
    rw [reads, mem_readsAll, reads_iff]
    simpa using exists_congr fun f => and_congr_right (ih f)
  | _ =>
    rw [reads_iff]
    simp_all [reads, ObjExpr.mem_readsAll, mem_quantifierReads]

/-! ## Paths -/

/-- A point of a path: what is done there. -/
inductive PathPoint where
  | evaluate (e : ObjExpr)
  | test (f : FormulaExpr)
  | bind (name : String)
  /-- A point of an iteration, where the loop has bound its variable. -/
  | inside (var : String) (p : PathPoint)

namespace PathPoint

/-- The variable is read, and no loop around has bound it. -/
@[simp]
def Reads (x : String) : PathPoint → Prop
  | .evaluate e => e.Reads x
  | .test f => f.Reads x
  | .bind _ => False
  | .inside var p => x ≠ var ∧ p.Reads x

/-- A statement binds the variable. -/
@[simp]
def Writes (x : String) : PathPoint → Prop
  | .evaluate _ => False
  | .test _ => False
  | .bind name => x = name
  | .inside _ p => p.Writes x

end PathPoint

/-- At some point of the path the variable is read, and at no point before it is written. -/
def ReadsFirst (x : String) (path : List PathPoint) : Prop :=
  ∃ before p after, path = before ++ p :: after ∧ p.Reads x ∧ ∀ q ∈ before, ¬ q.Writes x

mutual

/-- The points are those of a path through the statement. -/
def Statement.HasPath : Statement → List PathPoint → Prop
  | .assign var value, path => path = [.evaluate value, .bind var]
  | .create _ (some var), path => path = [.bind var]
  | .create _ none, path => path = []
  | .delete objects, path => path = [.evaluate objects]
  | .createTuple source _ target, path => path = [.evaluate source, .evaluate target]
  | .deleteTuple source _ target, path => path = [.evaluate source, .evaluate target]
  | .ifElse condition thenBlock elseBlock, path =>
    ∃ rest, path = .test condition :: rest ∧ (Block.HasPath thenBlock rest ∨ Block.HasPath elseBlock rest)
  | .either branches, path => (branches = [] ∧ path = []) ∨ Block.SomeHasPath branches path
  | .forEach var domain body _, path => ∃ rounds : List (List PathPoint),
      (∀ round ∈ rounds, Block.HasPath body round) ∧ path = .evaluate domain :: rounds.flatten.map (.inside var)

/-- The points are those of a path through the block. -/
def Block.HasPath : List Statement → List PathPoint → Prop
  | [], path => path = []
  | s :: rest, path => ∃ p q, s.HasPath p ∧ Block.HasPath rest q ∧ path = p ++ q

/-- The points are those of a path through one of the blocks. -/
def Block.SomeHasPath : List (List Statement) → List PathPoint → Prop
  | [], _ => False
  | b :: rest, path => Block.HasPath b path ∨ Block.SomeHasPath rest path

end

@[simp]
theorem readsFirst_nil : ¬ ReadsFirst x [] := by
  rintro ⟨before, p, after, h, -⟩
  simp at h

@[simp]
theorem readsFirst_cons : ReadsFirst x (p :: path) ↔ p.Reads x ∨ ¬ p.Writes x ∧ ReadsFirst x path := by
  constructor
  · rintro ⟨before, q, after, h, hread, hbefore⟩
    cases before with
    | nil =>
      cases h
      exact .inl hread
    | cons p' before =>
      cases h
      obtain ⟨hp, hrest⟩ := forall_mem_cons.1 hbefore
      exact .inr ⟨hp, before, q, after, rfl, hread, hrest⟩
  · rintro (h | ⟨hp, before, q, after, rfl, hread, hbefore⟩)
    · exact ⟨[], p, path, rfl, h, by simp⟩
    · exact ⟨p :: before, q, after, rfl, hread, forall_mem_cons.2 ⟨hp, hbefore⟩⟩

theorem readsFirst_append : ReadsFirst x (p ++ q) ↔ ReadsFirst x p ∨ (∀ a ∈ p, ¬ a.Writes x) ∧ ReadsFirst x q := by
  induction p with
  | nil => simp
  | cons a p ih =>
    rw [cons_append, readsFirst_cons, readsFirst_cons, ih, forall_mem_cons]
    tauto

theorem readsFirst_inside {path : List PathPoint} : ReadsFirst x (path.map (.inside var)) ↔ x ≠ var ∧ ReadsFirst x path := by
  induction path with
  | nil => simp
  | cons a path ih =>
    rw [map_cons, readsFirst_cons, readsFirst_cons, ih, PathPoint.Reads, PathPoint.Writes]
    tauto

/-- What is read first in some of several rounds is read first in one that is run alone. -/
theorem exists_readsFirst_of_flatten {rounds : List (List PathPoint)} (h : ReadsFirst x rounds.flatten) :
    ∃ round ∈ rounds, ReadsFirst x round := by
  induction rounds with
  | nil => exact absurd h readsFirst_nil
  | cons round rest ih =>
    rcases readsFirst_append.1 h with h | ⟨-, h⟩
    · exact ⟨round, by simp, h⟩
    · obtain ⟨r, hr, h⟩ := ih h
      exact ⟨r, by simp [hr], h⟩

/-! ## Scans -/

/-- For one variable, the scan and the variables that are bound somewhere tell what the paths do after the variables of a list
have been written. -/
structure Scan.Follows (x : String) (written : List String) (paths : List PathPoint → Prop) (scan : Scan)
    (assigned : List String) : Prop where
  passable : ∃ path, paths path
  reads : x ∈ scan.reads ↔ x ∉ written ∧ ∃ path, paths path ∧ ReadsFirst x path
  unwritten : x ∉ scan.written ↔ x ∉ written ∧ ∃ path, paths path ∧ ∀ p ∈ path, ¬ p.Writes x
  assigned : x ∈ assigned ↔ ∃ path, paths path ∧ ∃ p ∈ path, p.Writes x

/-- The scan of the statement tells what its paths do. -/
def Statement.Scanned (x : String) (s : Statement) : Prop :=
  ∀ written, (s.scan written).Follows x written s.HasPath s.assigned

namespace Scan

variable {written names : List String} {P Q : List PathPoint → Prop} {scan : Scan}

/-- One path. -/
theorem follows_one (path : List PathPoint) (hreads : x ∈ scan.reads ↔ x ∉ written ∧ ReadsFirst x path)
    (hwritten : x ∉ scan.written ↔ x ∉ written ∧ ∀ p ∈ path, ¬ p.Writes x) (hassigned : x ∈ names ↔ ∃ p ∈ path, p.Writes x) :
    scan.Follows x written (· = path) names :=
  ⟨⟨path, rfl⟩, by simpa using hreads, by simpa using hwritten, by simpa using hassigned⟩

theorem Follows.of_paths (h : scan.Follows x written P names) (hpaths : ∀ path, Q path ↔ P path) :
    scan.Follows x written Q names := by
  rwa [show Q = P from funext fun path => propext (hpaths path)]

/-- Paths one after the other: what the later ones read counts unless the earlier ones have written it. -/
theorem Follows.seq {rest : Scan} (first : scan.Follows x written P names) (others : rest.Follows x scan.written Q more) :
    Follows x written (fun path => ∃ p q, P p ∧ Q q ∧ path = p ++ q) ⟨scan.reads ++ rest.reads, rest.written⟩ (names ++ more) := by
  obtain ⟨p0, hp0⟩ := first.passable
  obtain ⟨q0, hq0⟩ := others.passable
  refine ⟨⟨p0 ++ q0, p0, q0, hp0, hq0, rfl⟩, ?_, ?_, ?_⟩
  · rw [mem_append, first.reads, others.reads, first.unwritten]
    constructor
    · rintro (⟨hw, p, hp, h⟩ | ⟨⟨hw, p, hp, h⟩, q, hq, h'⟩)
      · exact ⟨hw, _, ⟨p, q0, hp, hq0, rfl⟩, readsFirst_append.2 (.inl h)⟩
      · exact ⟨hw, _, ⟨p, q, hp, hq, rfl⟩, readsFirst_append.2 (.inr ⟨h, h'⟩)⟩
    · rintro ⟨hw, _, ⟨p, q, hp, hq, rfl⟩, h⟩
      rcases readsFirst_append.1 h with h | ⟨h, h'⟩
      · exact .inl ⟨hw, p, hp, h⟩
      · exact .inr ⟨⟨hw, p, hp, h⟩, q, hq, h'⟩
  · rw [others.unwritten, first.unwritten]
    constructor
    · rintro ⟨⟨hw, p, hp, h⟩, q, hq, h'⟩
      exact ⟨hw, _, ⟨p, q, hp, hq, rfl⟩, forall_mem_append.2 ⟨h, h'⟩⟩
    · rintro ⟨hw, _, ⟨p, q, hp, hq, rfl⟩, h⟩
      obtain ⟨h, h'⟩ := forall_mem_append.1 h
      exact ⟨⟨hw, p, hp, h⟩, q, hq, h'⟩
  · rw [mem_append, first.assigned, others.assigned]
    constructor
    · rintro (⟨p, hp, a, ha, h⟩ | ⟨q, hq, a, ha, h⟩)
      · exact ⟨_, ⟨p, q0, hp, hq0, rfl⟩, a, mem_append_left _ ha, h⟩
      · exact ⟨_, ⟨p0, q, hp0, hq, rfl⟩, a, mem_append_right _ ha, h⟩
    · rintro ⟨_, ⟨p, q, hp, hq, rfl⟩, a, ha, h⟩
      rcases mem_append.1 ha with ha | ha
      · exact .inl ⟨p, hp, a, ha, h⟩
      · exact .inr ⟨q, hq, a, ha, h⟩

/-- One of several sets of paths. -/
theorem Follows.either {left right : Scan} (hl : left.Follows x written P names) (hr : right.Follows x written R more) :
    Follows x written (fun path => P path ∨ R path) ⟨left.reads ++ right.reads, left.written.filter (· ∈ right.written)⟩
      (names ++ more) := by
  obtain ⟨p0, hp0⟩ := hl.passable
  refine ⟨⟨p0, .inl hp0⟩, ?_, ?_, ?_⟩
  · rw [mem_append, hl.reads, hr.reads]
    grind
  · have hboth : x ∉ left.written.filter (· ∈ right.written) ↔ x ∉ left.written ∨ x ∉ right.written := by
      simp only [mem_filter, decide_eq_true_eq, not_and_or]
    rw [hboth, hl.unwritten, hr.unwritten]
    grind
  · rw [mem_append, hl.assigned, hr.assigned]
    grind

/-- Any number of rounds of a loop, none included. -/
theorem Follows.rounds (h : scan.Follows x (var :: written) P names) :
    Follows x written (fun path => ∃ rounds : List (List PathPoint), (∀ round ∈ rounds, P round) ∧
      path = rounds.flatten.map (.inside var)) ⟨scan.reads, written⟩ names := by
  refine ⟨⟨[], [], by simp⟩, ?_, ⟨fun hw => ⟨hw, [], ⟨[], by simp⟩, by simp⟩, And.left⟩, ?_⟩
  · rw [h.reads]
    constructor
    · rintro ⟨hw, p, hp, hread⟩
      obtain ⟨hvar, hw⟩ := not_or.1 (mem_cons.not.1 hw)
      exact ⟨hw, _, ⟨[p], by simpa using hp, rfl⟩, readsFirst_inside.2 ⟨hvar, by simpa using hread⟩⟩
    · rintro ⟨hw, _, ⟨rounds, hrounds, rfl⟩, hread⟩
      obtain ⟨hvar, hread⟩ := readsFirst_inside.1 hread
      obtain ⟨p, hp, hread⟩ := exists_readsFirst_of_flatten hread
      exact ⟨by simp [hvar, hw], p, hrounds p hp, hread⟩
  · rw [h.assigned]
    constructor
    · rintro ⟨p, hp, a, ha, hwrites⟩
      exact ⟨_, ⟨[p], by simpa using hp, rfl⟩, .inside var a, by simpa using ha, hwrites⟩
    · rintro ⟨_, ⟨rounds, hrounds, rfl⟩, a, ha, hwrites⟩
      obtain ⟨b, hb, rfl⟩ := mem_map.1 ha
      obtain ⟨p, hp, hb⟩ := mem_flatten.1 hb
      exact ⟨p, hrounds p hp, b, hb, hwrites⟩

end Scan

variable {written : List String}

/-- The paths through a block go through one statement after the other. -/
theorem Block.scan_follows (hb : ∀ s ∈ b, s.Scanned x) :
    (scan written b).Follows x written (Block.HasPath b) (assigned b) := by
  induction b generalizing written with
  | nil => exact follows_one [] (by simp [scan]) (by simp [scan]) (by simp [assigned])
  | cons s rest ih =>
    obtain ⟨hs, hrest⟩ := forall_mem_cons.1 hb
    exact (hs written).seq (ih hrest)

theorem Scan.afterBranches_one (s : Scan) : afterBranches written [s] = s := by
  cases s
  simp [afterBranches]

theorem Scan.afterBranches_cons_cons (s t : Scan) (rest : List Scan) :
    afterBranches written (s :: t :: rest) = ⟨s.reads ++ (afterBranches written (t :: rest)).reads,
      s.written.filter (· ∈ (afterBranches written (t :: rest)).written)⟩ := by
  simp only [afterBranches, flatMap_cons, all_cons, mem_filter, Bool.decide_and, Bool.decide_eq_true]

/-- The paths through alternatives, of which there is one at least, are those through each of them. -/
theorem Block.branches_follow (written : List String) (b : Block) (rest : List Block)
    (hb : ∀ block ∈ b :: rest, ∀ s ∈ block, s.Scanned x) :
    (afterBranches written (scanAll written (b :: rest))).Follows x written (Block.SomeHasPath (b :: rest))
      (assignedAll (b :: rest)) := by
  induction rest generalizing b with
  | nil =>
    rw [scanAll, scanAll, afterBranches_one, assignedAll, assignedAll, append_nil]
    exact (scan_follows (by simpa using hb)).of_paths fun path => by simp [Block.SomeHasPath]
  | cons c rest ih =>
    obtain ⟨hfirst, hrest⟩ := forall_mem_cons.1 hb
    rw [scanAll, scanAll, afterBranches_cons_cons]
    exact (scan_follows hfirst).either (ih c hrest)

/-- The scan of every statement follows its paths. -/
theorem Statement.scanned (x : String) (s : Statement) : s.Scanned x := by
  induction s with
  | assign | delete | createTuple | deleteTuple =>
    intro written
    apply follows_one <;> simp [scan, assigned, unwritten] <;> tauto
  | create className var =>
    intro written
    cases var <;> apply follows_one <;> simp [scan, assigned]
    tauto
  | ifElse condition thenBlock elseBlock ihThen ihElse =>
    intro written
    have test : Follows x written (· = [.test condition]) ⟨unwritten written condition.reads, written⟩ [] := by
      apply follows_one <;> simp [unwritten]
      tauto
    have branches := branches_follow written thenBlock [elseBlock] (by simpa using ⟨ihThen, ihElse⟩)
    have hassigned : (ifElse condition thenBlock elseBlock).assigned = [] ++ assignedAll [thenBlock, elseBlock] := by
      simp [assigned, assignedAll]
    rw [hassigned]
    refine (test.seq branches).of_paths fun path => ?_
    simp [Statement.HasPath, Block.SomeHasPath, and_comm]
  | either branches ih =>
    intro written
    cases branches with
    | nil =>
      refine Follows.of_paths (P := (· = [])) (follows_one [] ?_ ?_ ?_) ?_ <;>
        simp [scan, scanAll, afterBranches, assigned, assignedAll, Statement.HasPath,
          Block.SomeHasPath]
    | cons b rest =>
      exact (branches_follow written b rest ih).of_paths fun path => by simp [Statement.HasPath]
  | forEach var domain body order ih =>
    intro written
    have evaluate : Follows x written (· = [.evaluate domain]) ⟨unwritten written domain.reads, written⟩ [] := by
      apply follows_one <;> simp [unwritten]
      tauto
    refine (evaluate.seq (scan_follows ih).rounds).of_paths fun path => ⟨?_, ?_⟩
    · rintro ⟨rounds, hrounds, rfl⟩
      exact ⟨_, _, rfl, ⟨rounds, hrounds, rfl⟩, rfl⟩
    · rintro ⟨_, _, rfl, ⟨rounds, hrounds, rfl⟩, rfl⟩
      exact ⟨rounds, hrounds, rfl⟩

/-! ## The scan of a block -/

/-- A variable counts as read before it is written exactly when some path through the block reads it at a point before which it
has not written it, and as bound exactly when some path binds it. -/
theorem scans_follow_paths (block : Block) (x : String) :
    (x ∈ block.readBeforeWrite ↔ ∃ path, Block.HasPath block path ∧ ReadsFirst x path) ∧
      (x ∈ Block.assigned block ↔ ∃ path, Block.HasPath block path ∧ ∃ p ∈ path, p.Writes x) := by
  have hscan : (Block.scan [] block).Follows x [] (Block.HasPath block) (Block.assigned block) :=
    Block.scan_follows fun s _ => s.scanned x
  refine ⟨?_, hscan.assigned⟩
  have hreads := hscan.reads
  simp only [List.not_mem_nil, not_false_eq_true, true_and] at hreads
  exact hreads

end StoreCheck
