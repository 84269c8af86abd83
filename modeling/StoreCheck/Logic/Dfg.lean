import StoreCheck.Logic.Theory

/-!
# The DFG dialect

A theory is written as a DFG problem: descriptions, symbols, declarations, axioms and conjectures, each in a list of its own.
-/

namespace StoreCheck

namespace Dfg

/-- A head applied to arguments; without arguments the head alone. -/
def applied (head : String) : List String → String
  | [] => head
  | args => head ++ "(" ++ ",".intercalate args ++ ")"

mutual

def term (s : Symbols) : Term → String
  | .var name => name
  | .app f args => applied (s.funcName f) (terms s args)

def terms (s : Symbols) : List Term → List String
  | [] => []
  | t :: rest => term s t :: terms s rest

end

/-- A junction of formulas: its unit without any, the formula itself for one. -/
def junction (op unit : String) : List String → String
  | [] => unit
  | [f] => f
  | fs => applied op fs

/-- A quantifier; without variables the body alone. -/
def quantifier (s : Symbols) (op : String) (vars : List Binder) (body : String) : String :=
  if vars.isEmpty then body
  else op ++ "([" ++ ",".intercalate (vars.map fun b => s.sortName b.sort ++ "(" ++ b.name ++ ")") ++ "]," ++ body ++ ")"

mutual

def formula (s : Symbols) : Formula → String
  | .top => "true"
  | .bot => "false"
  | .atom p args => applied (s.predName p) (terms s args)
  | .eq a b => "equal(" ++ term s a ++ "," ++ term s b ++ ")"
  | .not f => "not(" ++ formula s f ++ ")"
  | .and parts => junction "and" "true" (formulas s parts)
  | .or parts => junction "or" "false" (formulas s parts)
  | .implies a b => "implies(" ++ formula s a ++ "," ++ formula s b ++ ")"
  | .iff a b => "equiv(" ++ formula s a ++ "," ++ formula s b ++ ")"
  | .forAll vars body => quantifier s "forall" vars (formula s body)
  | .forSome vars body => quantifier s "exists" vars (formula s body)

def formulas (s : Symbols) : List Formula → List String
  | [] => []
  | f :: rest => formula s f :: formulas s rest

end

/-- The name of a problem: letters and digits stay, anything else becomes an underscore, and a letter comes first. -/
def problemName (name : String) : String :=
  let cs := name.toList.map fun c => if c.isAlphanum then c else '_'
  match cs with
  | c :: _ => if c.isAlpha then String.ofList cs else String.ofList ('p' :: cs)
  | [] => "p"

/-- A list of symbols with their arities; no line at all without symbols. -/
def arities (kind : String) (symbols : List (String × Nat)) : List String :=
  if symbols.isEmpty then []
  else [kind ++ "[" ++ ", ".intercalate (symbols.map fun (n, k) => "(" ++ n ++ "," ++ toString k ++ ")") ++ "]."]

/-- The sorts of a predicate's arguments; predicates without arguments need none. -/
def predicateDecl (s : Symbols) (p : PredSymbol) : List String :=
  if p.args.isEmpty then []
  else ["predicate(" ++ p.name ++ ", " ++ ", ".intercalate (p.args.map s.sortName) ++ ")."]

/-- The sorts of a function's arguments and result. -/
def functionDecl (s : Symbols) (f : FuncSymbol) : String :=
  let vars := (List.range f.args.length).map fun i => "X" ++ toString (i + 1)
  let binders := (f.args.zip vars).map fun (a, v) => s.sortName a ++ "(" ++ v ++ ")"
  let result := s.sortName f.result ++ "(" ++ f.name ++ "(" ++ ",".intercalate vars ++ "))"
  if binders.isEmpty then result ++ "." else "forall([" ++ ", ".intercalate binders ++ "], " ++ result ++ ")."

/-- A list with a heading, its lines and its end, followed by an empty line. -/
def listOf (heading : String) (lines : List String) : List String :=
  heading :: lines ++ ["end_of_list.", ""]

def lines (t : Theory) : List String :=
  let s := t.symbols
  ["begin_problem(" ++ problemName t.name ++ ").", ""] ++
  listOf "list_of_descriptions."
    ["name(\x7b*" ++ t.name ++ "*\x7d).", "author(\x7b*dsverify*\x7d).", "status(unknown).",
      "description(\x7b*data store invariant preservation*\x7d)."] ++
  listOf "list_of_symbols."
    (arities "functions" (s.functions.map fun f => (f.name, f.args.length)) ++
      arities "predicates" (s.predicates.map fun p => (p.name, p.args.length)) ++
      if s.sorts.isEmpty then [] else ["sorts[" ++ ", ".intercalate s.sorts ++ "]."]) ++
  listOf "list_of_declarations." (s.predicates.flatMap (predicateDecl s) ++ s.functions.map (functionDecl s)) ++
  listOf "list_of_formulae(axioms)." (t.axioms.map fun f => "formula(" ++ formula s f ++ ").") ++
  listOf "list_of_formulae(conjectures)." (t.conjectures.map fun f => "formula(" ++ formula s f ++ ").") ++
  ["end_problem."]

end Dfg

def Theory.toDfg (t : Theory) : String := String.join ((Dfg.lines t).map (· ++ "\n"))

end StoreCheck
