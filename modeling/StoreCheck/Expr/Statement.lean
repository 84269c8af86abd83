import StoreCheck.Expr.FormulaExpr

/-!
# Statements and blocks

An action is a block of statements that change the store and bind variables. `Statement.assigned` collects the variables
that a statement may bind, and `readBeforeWrite` those that some path through a block reads before it has bound them.
-/

namespace StoreCheck

/-- How the iterations of a loop relate. -/
inductive LoopKind where
  /-- The iterations are independent: each starts from the store before the loop. -/
  | flat
  /-- The iterations run in some total order, each from the store that the one before it left. -/
  | chained
  deriving DecidableEq, Repr

inductive Statement where
  | assign (var : String) (value : ObjExpr)
  /-- Create one object of a class, and bind a variable to it. -/
  | create (className : String) (var : Option String)
  /-- Delete the objects of a set, and every tuple that touches one. -/
  | delete (objects : ObjExpr)
  /-- Relate every object of the first set to every object of the second one. -/
  | createTuple (source : ObjExpr) (relation : String) (target : ObjExpr)
  /-- Remove the tuples from the first set to the second one. -/
  | deleteTuple (source : ObjExpr) (relation : String) (target : ObjExpr)
  | ifElse (condition : FormulaExpr) (thenBlock elseBlock : List Statement)
  | either (branches : List (List Statement))
  | forEach (var : String) (domain : ObjExpr) (body : List Statement) (order : LoopKind)

abbrev Block := List Statement

mutual

/-- The variables that the statement binds somewhere, inside its blocks included. -/
def Statement.assigned : Statement → List String
  | .assign var _ => [var]
  | .create _ (some var) => [var]
  | .create _ none => []
  | .delete _ => []
  | .createTuple _ _ _ => []
  | .deleteTuple _ _ _ => []
  | .ifElse _ thenBlock elseBlock => Block.assigned thenBlock ++ Block.assigned elseBlock
  | .either branches => Block.assignedAll branches
  | .forEach _ _ body _ => Block.assigned body

def Block.assigned : List Statement → List String
  | [] => []
  | s :: rest => s.assigned ++ Block.assigned rest

def Block.assignedAll : List (List Statement) → List String
  | [] => []
  | b :: rest => Block.assigned b ++ Block.assignedAll rest

end

/-- What a scan of a block has found: the variables read before they were bound, and those bound on every path. -/
structure Scan where
  reads : List String
  written : List String

/-- The names that are not written yet. -/
def unwritten (written names : List String) : List String := names.filter (· ∉ written)

/-- The scan after alternatives: a variable counts as written only if every alternative wrote it. -/
def Scan.afterBranches (written : List String) : List Scan → Scan
  | [] => ⟨[], written⟩
  | s :: rest =>
    ⟨s.reads ++ rest.flatMap (·.reads), s.written.filter fun x => rest.all fun t => x ∈ t.written⟩

mutual

/-- Scan one statement, given the variables written before it. -/
def Statement.scan (written : List String) : Statement → Scan
  | .assign var value => ⟨unwritten written value.reads, var :: written⟩
  | .create _ (some var) => ⟨[], var :: written⟩
  | .create _ none => ⟨[], written⟩
  | .delete objects => ⟨unwritten written objects.reads, written⟩
  | .createTuple source _ target => ⟨unwritten written (source.reads ++ target.reads), written⟩
  | .deleteTuple source _ target => ⟨unwritten written (source.reads ++ target.reads), written⟩
  | .ifElse condition thenBlock elseBlock =>
    let branches := Scan.afterBranches written [Block.scan written thenBlock, Block.scan written elseBlock]
    ⟨unwritten written condition.reads ++ branches.reads, branches.written⟩
  | .either branches => Scan.afterBranches written (Block.scanAll written branches)
  | .forEach var domain body _ =>
    ⟨unwritten written domain.reads ++ (Block.scan (var :: written) body).reads, written⟩

def Block.scan (written : List String) : List Statement → Scan
  | [] => ⟨[], written⟩
  | s :: rest =>
    let first := s.scan written
    let others := Block.scan first.written rest
    ⟨first.reads ++ others.reads, others.written⟩

def Block.scanAll (written : List String) : List (List Statement) → List Scan
  | [] => []
  | b :: rest => Block.scan written b :: Block.scanAll written rest

end

/-- The variables that some path through the block reads before it has bound them. -/
def Block.readBeforeWrite (block : Block) : List String := (Block.scan [] block).reads

end StoreCheck
