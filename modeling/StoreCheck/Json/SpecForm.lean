import StoreCheck.Json.Record
import StoreCheck.Json.Reader
import StoreCheck.Spec

/-!
# The JSON form of specifications

Every part of a specification has a reader (`Json.spec?` and the others) and a writer (`Spec.toJson` and the others). A
reader gives no value when the form is broken; it does not say where. The readers of trees take fuel: every level of a tree
is a level of nesting of the JSON value, so the nesting limit bounds it.
-/

namespace StoreCheck

namespace Json

/-- Fuel for the readers of trees: more than any value can nest. -/
def treeFuel : Nat := maxNesting + 1

/-! ## Reading expressions -/

def objTags : List String := ["all_of", "var", "subset", "one_of", "union", "deref", "iterator"]

def objExprWith? : Nat → Bool → Json → Option ObjExpr
  | 0, _, _ => none
  | fuel + 1, inside, v => do
    let (tag, body) ← tagged? objTags inside v
    match tag with
    | "all_of" => do
      let fs ← fields? ["class"] body
      return .allOf (← fs.required "class" text?)
    | "var" => do
      let fs ← fields? ["name"] body
      return .var (← fs.required "name" text?)
    | "subset" => do
      let fs ← fields? ["of"] body
      return .subset (← fs.required "of" (objExprWith? fuel true))
    | "one_of" => do
      let fs ← fields? ["of"] body
      return .oneOf (← fs.required "of" (objExprWith? fuel true))
    | "union" => do
      let fs ← fields? ["parts"] body
      return .union (← fs.required "parts" (list? (objExprWith? fuel true)))
    | "deref" => do
      let fs ← fields? ["from", "relation"] body
      let source ← fs.required "from" (objExprWith? fuel true)
      return .deref source (← fs.required "relation" text?)
    | "iterator" => do
      let fs ← fields? ["name"] body
      return .iterator (← fs.required "name" text?)
    | _ => none

/-- Read an object-set expression that stands inside a tagged value or on its own. -/
def objExpr? (inside : Bool) (v : Json) : Option ObjExpr := objExprWith? treeFuel inside v

def truth? (v : Json) : Option Truth := do
  match ← choice? ["true", "false", "unknown"] true v with
  | "true" => return .true
  | "false" => return .false
  | _ => return .unknown

def quantVar? (v : Json) : Option QuantVar := do
  let fs ← fields? ["name", "domain"] v
  let name ← fs.required "name" text?
  return ⟨name, ← fs.required "domain" (objExpr? true)⟩

def formulaTags : List String :=
  ["bool", "not", "and", "or", "implies", "equiv", "equal", "in", "is_empty", "for_all", "exists"]

def formulaWith? : Nat → Bool → Json → Option FormulaExpr
  | 0, _, _ => none
  | fuel + 1, inside, v => do
    let (tag, body) ← tagged? formulaTags inside v
    match tag with
    | "bool" => do
      let fs ← fields? ["value"] body
      return .literal (← fs.required "value" truth?)
    | "not" => do
      let fs ← fields? ["formula"] body
      return .not (← fs.required "formula" (formulaWith? fuel true))
    | "and" => do
      let fs ← fields? ["parts"] body
      return .and (← fs.required "parts" (list? (formulaWith? fuel true)))
    | "or" => do
      let fs ← fields? ["parts"] body
      return .or (← fs.required "parts" (list? (formulaWith? fuel true)))
    | "implies" => do
      let fs ← fields? ["premise", "conclusion"] body
      let premise ← fs.required "premise" (formulaWith? fuel true)
      return .implies premise (← fs.required "conclusion" (formulaWith? fuel true))
    | "equiv" => do
      let fs ← fields? ["parts"] body
      return .equiv (← fs.required "parts" (list? (formulaWith? fuel true)))
    | "equal" => do
      let fs ← fields? ["objsets"] body
      return .equal (← fs.required "objsets" (list? (objExpr? true)))
    | "in" => do
      let fs ← fields? ["objset", "within"] body
      let set ← fs.required "objset" (objExpr? true)
      return .isIn set (← fs.required "within" (objExpr? true))
    | "is_empty" => do
      let fs ← fields? ["objset"] body
      return .isEmpty (← fs.required "objset" (objExpr? true))
    | "for_all" => do
      let fs ← fields? ["vars", "body"] body
      let vars ← fs.required "vars" (list? quantVar?)
      return .forAll vars (← fs.required "body" (formulaWith? fuel true))
    | "exists" => do
      let fs ← fields? ["vars", "body"] body
      let vars ← fs.required "vars" (list? quantVar?)
      return .forSome vars (← fs.required "body" (formulaWith? fuel true))
    | _ => none

/-- Read a formula that stands inside a tagged value or on its own. -/
def formula? (inside : Bool) (v : Json) : Option FormulaExpr := formulaWith? treeFuel inside v

/-! ## Reading statements -/

def loopKind? (v : Json) : Option LoopKind := do
  match ← choice? ["flat", "chained"] true v with
  | "flat" => return .flat
  | _ => return .chained

def statementTags : List String :=
  ["assign", "create", "delete", "create_tuple", "delete_tuple", "if", "either", "for_each"]

def statementWith? : Nat → Bool → Json → Option Statement
  | 0, _, _ => none
  | fuel + 1, inside, v => do
    let (tag, body) ← tagged? statementTags inside v
    match tag with
    | "assign" => do
      let fs ← fields? ["var", "value"] body
      let var ← fs.required "var" text?
      return .assign var (← fs.required "value" (objExpr? true))
    | "create" => do
      let fs ← fields? ["class", "var"] body
      let className ← fs.required "class" text?
      return .create className (← fs.nullable "var" text?)
    | "delete" => do
      let fs ← fields? ["objset"] body
      return .delete (← fs.required "objset" (objExpr? true))
    | "create_tuple" => do
      let fs ← fields? ["from", "relation", "to"] body
      let source ← fs.required "from" (objExpr? true)
      let relation ← fs.required "relation" text?
      return .createTuple source relation (← fs.required "to" (objExpr? true))
    | "delete_tuple" => do
      let fs ← fields? ["from", "relation", "to"] body
      let source ← fs.required "from" (objExpr? true)
      let relation ← fs.required "relation" text?
      return .deleteTuple source relation (← fs.required "to" (objExpr? true))
    | "if" => do
      let fs ← fields? ["condition", "then", "otherwise"] body
      let condition ← fs.required "condition" (formula? true)
      let thenBlock ← fs.required "then" (list? (statementWith? fuel true))
      return .ifElse condition thenBlock (← fs.withDefault "otherwise" [] (list? (statementWith? fuel true)))
    | "either" => do
      let fs ← fields? ["branches"] body
      return .either (← fs.required "branches" (list? (list? (statementWith? fuel true))))
    | "for_each" => do
      let fs ← fields? ["var", "objset", "body", "order"] body
      let var ← fs.required "var" text?
      let domain ← fs.required "objset" (objExpr? true)
      let block ← fs.required "body" (list? (statementWith? fuel true))
      return .forEach var domain block (← fs.withDefault "order" .flat loopKind?)
    | _ => none

/-- Read a block of statements that stand on their own. -/
def block? (v : Json) : Option Block := list? (statementWith? treeFuel false) v

/-! ## Reading declarations -/

def cardinality? (v : Json) : Option Cardinality := do
  let fs ← fields? ["min", "max"] v
  let lower ← fs.withDefault "min" 0 word32?
  return ⟨lower, ← fs.nullable "max" word32?⟩

def classDecl? (v : Json) : Option ClassDecl := do
  let fs ← fields? ["name", "parents"] v
  let name ← fs.required "name" text?
  return ⟨name, ← fs.withDefault "parents" [] (list? text?)⟩

def relationDecl? (v : Json) : Option RelationDecl := do
  let fs ← fields? ["class", "name", "target", "cardinality", "inverse_of"] v
  let source ← fs.required "class" text?
  let name ← fs.required "name" text?
  let target ← fs.required "target" text?
  let cardinality ← fs.withDefault "cardinality" .any cardinality?
  return ⟨source, name, target, cardinality, ← fs.nullable "inverse_of" text?⟩

def param? (v : Json) : Option Param := do
  let fs ← fields? ["name", "class", "cardinality"] v
  let name ← fs.required "name" text?
  let className ← fs.required "class" text?
  return ⟨name, className, ← fs.withDefault "cardinality" .one cardinality?⟩

def action? (v : Json) : Option Action := do
  let fs ← fields? ["name", "params", "block"] v
  let name ← fs.required "name" text?
  let params ← fs.withDefault "params" [] (list? param?)
  return ⟨name, params, ← fs.withDefault "block" [] block?⟩

def invariant? (v : Json) : Option Invariant := do
  let fs ← fields? ["name", "formula", "description"] v
  let name ← fs.required "name" text?
  let formula ← fs.required "formula" (formula? false)
  return ⟨name, formula, ← fs.nullable "description" text?⟩

def spec? (v : Json) : Option Spec := do
  let fs ← fields? ["classes", "relations", "actions", "invariants"] v
  let classes ← fs.withDefault "classes" [] (list? classDecl?)
  let relations ← fs.withDefault "relations" [] (list? relationDecl?)
  let actions ← fs.withDefault "actions" [] (list? action?)
  return ⟨classes, relations, actions, ← fs.withDefault "invariants" [] (list? invariant?)⟩

end Json

/-- The specification that a text denotes. -/
def Spec.parse? (text : String) : Option Spec := do Json.spec? (← Json.parse? text)

/-! ## Writing -/

def Json.ofTagged (tag : String) (members : List (String × Json)) : Json := .obj (("kind", .str tag) :: members)

mutual

def ObjExpr.toJson : ObjExpr → Json
  | .allOf className => .ofTagged "all_of" [("class", .str className)]
  | .var name => .ofTagged "var" [("name", .str name)]
  | .subset source => .ofTagged "subset" [("of", source.toJson)]
  | .oneOf source => .ofTagged "one_of" [("of", source.toJson)]
  | .union parts => .ofTagged "union" [("parts", .arr (ObjExpr.allToJson parts))]
  | .deref source relation => .ofTagged "deref" [("from", source.toJson), ("relation", .str relation)]
  | .iterator name => .ofTagged "iterator" [("name", .str name)]

def ObjExpr.allToJson : List ObjExpr → List Json
  | [] => []
  | e :: rest => e.toJson :: ObjExpr.allToJson rest

end

def Truth.toJson : Truth → Json
  | .true => .str "true"
  | .false => .str "false"
  | .unknown => .str "unknown"

def QuantVar.toJson (v : QuantVar) : Json := .obj [("name", .str v.name), ("domain", v.domain.toJson)]

mutual

def FormulaExpr.toJson : FormulaExpr → Json
  | .literal value => .ofTagged "bool" [("value", value.toJson)]
  | .not f => .ofTagged "not" [("formula", f.toJson)]
  | .and parts => .ofTagged "and" [("parts", .arr (FormulaExpr.allToJson parts))]
  | .or parts => .ofTagged "or" [("parts", .arr (FormulaExpr.allToJson parts))]
  | .implies premise conclusion =>
    .ofTagged "implies" [("premise", premise.toJson), ("conclusion", conclusion.toJson)]
  | .equiv parts => .ofTagged "equiv" [("parts", .arr (FormulaExpr.allToJson parts))]
  | .equal sets => .ofTagged "equal" [("objsets", .arr (ObjExpr.allToJson sets))]
  | .isIn set within => .ofTagged "in" [("objset", set.toJson), ("within", within.toJson)]
  | .isEmpty set => .ofTagged "is_empty" [("objset", set.toJson)]
  | .forAll vars body => .ofTagged "for_all" [("vars", .arr (vars.map QuantVar.toJson)), ("body", body.toJson)]
  | .forSome vars body => .ofTagged "exists" [("vars", .arr (vars.map QuantVar.toJson)), ("body", body.toJson)]

def FormulaExpr.allToJson : List FormulaExpr → List Json
  | [] => []
  | f :: rest => f.toJson :: FormulaExpr.allToJson rest

end

def LoopKind.toJson : LoopKind → Json
  | .flat => .str "flat"
  | .chained => .str "chained"

mutual

def Statement.toJson : Statement → Json
  | .assign var value => .ofTagged "assign" [("var", .str var), ("value", value.toJson)]
  | .create className var => .ofTagged "create" (("class", .str className) :: Json.optionalMember "var" var)
  | .delete objects => .ofTagged "delete" [("objset", objects.toJson)]
  | .createTuple source relation target =>
    .ofTagged "create_tuple" [("from", source.toJson), ("relation", .str relation), ("to", target.toJson)]
  | .deleteTuple source relation target =>
    .ofTagged "delete_tuple" [("from", source.toJson), ("relation", .str relation), ("to", target.toJson)]
  | .ifElse condition thenBlock elseBlock =>
    .ofTagged "if" [("condition", condition.toJson), ("then", .arr (Block.itemsToJson thenBlock)),
      ("otherwise", .arr (Block.itemsToJson elseBlock))]
  | .either branches => .ofTagged "either" [("branches", .arr (Block.allToJson branches))]
  | .forEach var domain body order =>
    .ofTagged "for_each" [("var", .str var), ("objset", domain.toJson), ("body", .arr (Block.itemsToJson body)),
      ("order", order.toJson)]

def Block.itemsToJson : List Statement → List Json
  | [] => []
  | s :: rest => s.toJson :: Block.itemsToJson rest

def Block.allToJson : List (List Statement) → List Json
  | [] => []
  | b :: rest => .arr (Block.itemsToJson b) :: Block.allToJson rest

end

def Block.toJson (block : Block) : Json := .arr (Block.itemsToJson block)

def Cardinality.toJson (c : Cardinality) : Json :=
  .obj [("min", .nat c.lower.toNat), ("max", match c.upper with | some u => .nat u.toNat | none => .null)]

def ClassDecl.toJson (d : ClassDecl) : Json := .obj [("name", .str d.name), ("parents", Json.ofTexts d.parents)]

def RelationDecl.toJson (d : RelationDecl) : Json :=
  .obj ([("class", .str d.source), ("name", .str d.name), ("target", .str d.target),
    ("cardinality", d.cardinality.toJson)] ++ Json.optionalMember "inverse_of" d.inverseOf)

def Param.toJson (p : Param) : Json :=
  .obj [("name", .str p.name), ("class", .str p.className), ("cardinality", p.cardinality.toJson)]

def Action.toJson (a : Action) : Json :=
  .obj [("name", .str a.name), ("params", .arr (a.params.map Param.toJson)), ("block", Block.toJson a.block)]

def Invariant.toJson (i : Invariant) : Json :=
  .obj ([("name", .str i.name), ("formula", i.formula.toJson)] ++ Json.optionalMember "description" i.description)

def Spec.toJson (s : Spec) : Json :=
  .obj [("classes", .arr (s.classes.map ClassDecl.toJson)), ("relations", .arr (s.relations.map RelationDecl.toJson)),
    ("actions", .arr (s.actions.map Action.toJson)), ("invariants", .arr (s.invariants.map Invariant.toJson))]

end StoreCheck
