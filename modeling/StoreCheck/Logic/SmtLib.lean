import StoreCheck.Logic.Theory

/-!
# The SMT-LIB dialect

A theory is written as a script that asserts the axioms and the negation of the conjectures: `unsat` means that the
conjectures follow.
-/

namespace StoreCheck

namespace SmtLib

/-- A head followed by arguments, in parentheses. -/
def applied (head : String) (args : List String) : String := "(" ++ " ".intercalate (head :: args) ++ ")"

/-- A symbol applied to arguments; without arguments the symbol alone. -/
def symbolApplied (name : String) : List String → String
  | [] => name
  | args => applied name args

mutual

def term (s : Symbols) : Term → String
  | .var name => name
  | .app f args => symbolApplied (s.funcName f) (terms s args)

def terms (s : Symbols) : List Term → List String
  | [] => []
  | t :: rest => term s t :: terms s rest

end

/-- A junction of formulas: its unit without any, the formula itself for one. -/
def junction (op unit : String) : List String → String
  | [] => unit
  | [f] => f
  | fs => applied op fs

def quantifier (s : Symbols) (op : String) (vars : List Binder) (body : String) : String :=
  if vars.isEmpty then body
  else "(" ++ op ++ " (" ++ " ".intercalate (vars.map fun b => "(" ++ b.name ++ " " ++ s.sortName b.sort ++ ")") ++ ") " ++
    body ++ ")"

mutual

def formula (s : Symbols) : Formula → String
  | .top => "true"
  | .bot => "false"
  | .atom p args => symbolApplied (s.predName p) (terms s args)
  | .eq a b => applied "=" [term s a, term s b]
  | .not f => applied "not" [formula s f]
  | .and parts => junction "and" "true" (formulas s parts)
  | .or parts => junction "or" "false" (formulas s parts)
  | .implies a b => applied "=>" [formula s a, formula s b]
  | .iff a b => applied "=" [formula s a, formula s b]
  | .forAll vars body => quantifier s "forall" vars (formula s body)
  | .forSome vars body => quantifier s "exists" vars (formula s body)

def formulas (s : Symbols) : List Formula → List String
  | [] => []
  | f :: rest => formula s f :: formulas s rest

end

/-- The declaration of a function or predicate with the sorts of its arguments. -/
def declaration (s : Symbols) (name : String) (args : List SortId) (result : String) : String :=
  "(declare-fun " ++ name ++ " (" ++ " ".intercalate (args.map s.sortName) ++ ") " ++ result ++ ")"

def assertion (s : Symbols) (f : Formula) : String := "(assert " ++ formula s f ++ ")"

def lines (t : Theory) : List String :=
  let s := t.symbols
  ["; " ++ t.name] ++
  s.sorts.map (fun name => "(declare-sort " ++ name ++ " 0)") ++
  s.functions.map (fun f => declaration s f.name f.args (s.sortName f.result)) ++
  s.predicates.map (fun p => declaration s p.name p.args "Bool") ++
  t.axioms.map (assertion s) ++
  [assertion s t.negatedGoal, "(check-sat)"]

end SmtLib

def Theory.toSmtLib (t : Theory) : String := String.join ((SmtLib.lines t).map (· ++ "\n"))

end StoreCheck
