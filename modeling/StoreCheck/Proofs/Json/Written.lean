import StoreCheck.Json.SpecForm
import StoreCheck.Proofs.Induction
import StoreCheck.Proofs.Json.Spelling

/-!
# Written specifications are read back

Each part of a specification is written as a record, a tagged value or a choice, and the reader of the part gives back what was
written. Two things are left for the trees: a tagged value must be sound as a whole, and the reader's fuel must reach as deep as
the value nests. Every level of a tree is a level of nesting, so the nesting limit provides for it.
-/

namespace StoreCheck.Json

open Block FormulaExpr ObjExpr

variable {tag : String}

/-! ## Sound values -/

mutual

theorem isSound_of_writable : ∀ {v : Json}, v.Writable → v.isSound = true
  | .null, _ => rfl
  | .bool _, _ => rfl
  | .nat _, _ => rfl
  | .str _, _ => rfl
  | .arr _, h => allSound_of_writable h
  | .obj _, h => membersSound_of_writable h

theorem allSound_of_writable : ∀ {vs : List Json}, AllWritable vs → allSound vs = true
  | [], _ => rfl
  | _ :: _, h => by rw [allSound, isSound_of_writable h.1, allSound_of_writable h.2]; rfl

theorem membersSound_of_writable : ∀ {ms : List (String × Json)}, MembersWritable ms → membersSound ms = true
  | [], _ => rfl
  | (_, _) :: _, h => by rw [membersSound, isSound_of_writable h.1, membersSound_of_writable h.2]; rfl

end

theorem allWritable_map {α : Type} {f : α → Json} {as : List α} (h : ∀ a ∈ as, (f a).Writable) : AllWritable (as.map f) := by
  induction as with
  | nil => exact trivial
  | cons a rest ih =>
    obtain ⟨ha, hrest⟩ := List.forall_mem_cons.1 h
    exact ⟨ha, ih hrest⟩

/-! ## Records and tagged values -/

variable {members : Fields}

theorem fields?_obj {names : List String} (hknown : members.all fun m => names.contains m.1)
    (hdistinct : distinctKeys members = true) : fields? names (.obj members) = some members := by
  have hfilter : (members.filter fun m => names.contains m.1) = members :=
    List.filter_eq_self.2 (List.all_eq_true.1 hknown)
  rw [fields?, hfilter, if_pos hdistinct]

theorem tagged?_ofTagged {tags : List String} (inside : Bool) (hwritable : (ofTagged tag members).Writable)
    (htag : tags.contains tag = true) (hmembers : members.all fun m => m.1 != "kind") :
    tagged? tags inside (ofTagged tag members) = some (tag, .obj members) := by
  have hsound := isSound_of_writable hwritable
  have hkind : (("kind", Json.str tag) :: members).filter (·.1 == "kind") = [("kind", .str tag)] := by
    rw [List.filter_cons_of_pos (by rfl), List.filter_eq_nil_iff.2]
    intro m hm
    simpa using List.all_eq_true.1 hmembers m hm
  have hrest : (("kind", Json.str tag) :: members).filter (·.1 != "kind") = members := by
    rw [List.filter_cons_of_neg (by simp), List.filter_eq_self.2 (List.all_eq_true.1 hmembers)]
  rw [ofTagged] at hsound ⊢
  rw [tagged?, hsound, Bool.not_true, Bool.and_false, if_neg Bool.false_ne_true, hkind, hrest]
  simp only [tag?, htag, if_true, Option.map_some]

theorem list?_map {α : Type} {item? : Json → Option α} {f : α → Json} {as : List α} (h : ∀ a ∈ as, item? (f a) = some a) :
    list? item? (.arr (as.map f)) = some as := by
  rw [list?]
  induction as with
  | nil => rfl
  | cons a rest ih =>
    rw [List.map_cons, List.mapM_cons, h a List.mem_cons_self, ih fun b hb => h b (List.mem_cons_of_mem a hb)]
    rfl

theorem depth_le_depthAll {v : Json} {vs : List Json} (h : v ∈ vs) : v.depth ≤ depthAll vs := by
  induction h with
  | head rest => exact Nat.le_max_left _ _
  | tail w _ ih => exact Nat.le_trans ih (Nat.le_max_right _ _)

theorem depth_lt_of_mem {α : Type} {f : α → Json} {a : α} {as : List α} {n : Nat} (ha : a ∈ as)
    (h : depthAll (as.map f) < n) : (f a).depth < n :=
  Nat.lt_of_le_of_lt (depth_le_depthAll (List.mem_map_of_mem ha)) h

theorem depth_ofTagged (tag : String) (members : Fields) : (ofTagged tag members).depth = depthMembers members + 1 := by
  simp [ofTagged, depth, depthMembers]

theorem writable_ofTagged (h : MembersWritable members) : (ofTagged tag members).Writable :=
  ⟨trivial, h⟩

end StoreCheck.Json

namespace StoreCheck

open Json

attribute [local simp] fields?_obj distinctKeys Fields.required Fields.withDefault Fields.nullable List.lookup_cons text?
  optionalMember

/-! ## Expressions -/

theorem ObjExpr.allToJson_eq_map (es : List ObjExpr) : allToJson es = es.map toJson := by
  induction es with
  | nil => rfl
  | cons e rest ih => rw [allToJson, ih, List.map_cons]

theorem ObjExpr.writable_toJson (e : ObjExpr) : e.toJson.Writable := by
  induction e with
  | allOf | var | iterator => exact writable_ofTagged ⟨trivial, trivial⟩
  | subset source ih | oneOf source ih => exact writable_ofTagged ⟨ih, trivial⟩
  | union parts ih =>
    rw [toJson, allToJson_eq_map]
    exact writable_ofTagged ⟨allWritable_map ih, trivial⟩
  | deref source relation ih => exact writable_ofTagged ⟨ih, trivial, trivial⟩

theorem objExprWith?_toJson (e : ObjExpr) (fuel : Nat) (inside : Bool) (h : e.toJson.depth < fuel) :
    objExprWith? fuel inside e.toJson = some e := by
  induction fuel generalizing e inside with
  | zero => exact absurd h (Nat.not_lt_zero _)
  | succ fuel ih =>
    have hw := e.writable_toJson
    cases e <;> simp only [ObjExpr.toJson, ObjExpr.allToJson_eq_map, depth_ofTagged, depthMembers, depth] at h hw ⊢ <;>
      rw [objExprWith?, tagged?_ofTagged inside hw rfl rfl]
    case allOf | var | iterator => simp
    case subset source | oneOf source => simp [ih source true (by omega)]
    case union parts =>
      have hparts := list?_map fun e (he : e ∈ parts) => ih e true (depth_lt_of_mem he (by omega))
      simp [hparts]
    case deref source relation => simp [ih source true (by omega)]

theorem objExpr?_toJson (e : ObjExpr) (inside : Bool) (h : e.toJson.depth < treeFuel) : objExpr? inside e.toJson = some e :=
  objExprWith?_toJson e treeFuel inside h

/-! ## Formulas -/

theorem Truth.writable_toJson (t : Truth) : t.toJson.Writable := by
  cases t <;> exact trivial

theorem truth?_toJson (t : Truth) : truth? t.toJson = some t := by
  cases t <;> rfl

theorem QuantVar.writable_toJson (v : QuantVar) : v.toJson.Writable := ⟨trivial, v.domain.writable_toJson, trivial⟩

theorem quantVar?_toJson (v : QuantVar) (h : v.toJson.depth < treeFuel) : quantVar? v.toJson = some v := by
  simp only [QuantVar.toJson, depth, depthMembers] at h
  have hdomain := objExpr?_toJson v.domain true (by omega)
  simp [quantVar?, QuantVar.toJson, hdomain]

theorem quantVars?_toJson (vars : List QuantVar) (h : depthAll (vars.map QuantVar.toJson) < treeFuel) :
    list? quantVar? (.arr (vars.map QuantVar.toJson)) = some vars :=
  list?_map fun v hv => quantVar?_toJson v (depth_lt_of_mem hv h)

theorem FormulaExpr.allToJson_eq_map (fs : List FormulaExpr) : allToJson fs = fs.map toJson := by
  induction fs with
  | nil => rfl
  | cons f rest ih => rw [allToJson, ih, List.map_cons]

theorem FormulaExpr.writable_toJson (f : FormulaExpr) : f.toJson.Writable := by
  induction f with
  | literal value => exact writable_ofTagged ⟨value.writable_toJson, trivial⟩
  | not f ih => exact writable_ofTagged ⟨ih, trivial⟩
  | and parts ih | or parts ih | equiv parts ih =>
    rw [FormulaExpr.toJson, FormulaExpr.allToJson_eq_map]
    exact writable_ofTagged ⟨allWritable_map ih, trivial⟩
  | implies premise conclusion ihp ihc => exact writable_ofTagged ⟨ihp, ihc, trivial⟩
  | equal sets =>
    rw [FormulaExpr.toJson, ObjExpr.allToJson_eq_map]
    exact writable_ofTagged ⟨allWritable_map fun e _ => e.writable_toJson, trivial⟩
  | isIn set within => exact writable_ofTagged ⟨set.writable_toJson, within.writable_toJson, trivial⟩
  | isEmpty set => exact writable_ofTagged ⟨set.writable_toJson, trivial⟩
  | forAll vars body ih | forSome vars body ih =>
    exact writable_ofTagged ⟨allWritable_map fun v _ => v.writable_toJson, ih, trivial⟩

theorem formulaWith?_toJson (f : FormulaExpr) (fuel : Nat) (inside : Bool) (h : f.toJson.depth < fuel)
    (htree : f.toJson.depth < treeFuel) : formulaWith? fuel inside f.toJson = some f := by
  induction fuel generalizing f inside with
  | zero => exact absurd h (Nat.not_lt_zero _)
  | succ fuel ih =>
    have hw := f.writable_toJson
    cases f <;> simp only [FormulaExpr.toJson, FormulaExpr.allToJson_eq_map, ObjExpr.allToJson_eq_map, depth_ofTagged, depthMembers,
      depth] at h htree hw ⊢ <;> rw [formulaWith?, tagged?_ofTagged inside hw rfl rfl]
    case literal value => simp [truth?_toJson]
    case not f => simp [ih f true (by omega) (by omega)]
    case and parts | or parts | equiv parts =>
      have hparts := list?_map fun f (hf : f ∈ parts) =>
        ih f true (depth_lt_of_mem hf (by omega)) (depth_lt_of_mem hf (by omega))
      simp [hparts]
    case implies premise conclusion =>
      simp [ih premise true (by omega) (by omega), ih conclusion true (by omega) (by omega)]
    case equal sets =>
      have hsets := list?_map fun e (he : e ∈ sets) => objExpr?_toJson e true (depth_lt_of_mem he (by omega))
      simp [hsets]
    case isIn set within => simp [objExpr?_toJson set true (by omega), objExpr?_toJson within true (by omega)]
    case isEmpty set => simp [objExpr?_toJson set true (by omega)]
    case forAll vars body | forSome vars body =>
      simp [quantVars?_toJson vars (by omega), ih body true (by omega) (by omega)]

theorem formula?_toJson (f : FormulaExpr) (inside : Bool) (h : f.toJson.depth < treeFuel) : formula? inside f.toJson = some f :=
  formulaWith?_toJson f treeFuel inside h h

/-! ## Statements -/

theorem LoopKind.writable_toJson (order : LoopKind) : order.toJson.Writable := by
  cases order <;> exact trivial

theorem loopKind?_toJson (order : LoopKind) : loopKind? order.toJson = some order := by
  cases order <;> rfl

theorem Block.itemsToJson_eq_map (b : List Statement) : itemsToJson b = b.map Statement.toJson := by
  induction b with
  | nil => rfl
  | cons s rest ih => rw [itemsToJson, ih, List.map_cons]

theorem Block.allToJson_eq_map (bs : List (List Statement)) : allToJson bs = bs.map toJson := by
  induction bs with
  | nil => rfl
  | cons b rest ih => rw [allToJson, ih, List.map_cons, toJson]

theorem Block.writable_toJson {b : List Statement} (h : ∀ s ∈ b, s.toJson.Writable) : (toJson b).Writable := by
  rw [toJson, itemsToJson_eq_map]
  exact allWritable_map h

theorem Statement.writable_toJson (s : Statement) : s.toJson.Writable := by
  induction s with
  | assign var value => exact writable_ofTagged ⟨trivial, value.writable_toJson, trivial⟩
  | create className var =>
    cases var with
    | none => exact writable_ofTagged ⟨trivial, trivial⟩
    | some var => exact writable_ofTagged ⟨trivial, trivial, trivial⟩
  | delete objects => exact writable_ofTagged ⟨objects.writable_toJson, trivial⟩
  | createTuple source relation target | deleteTuple source relation target =>
    exact writable_ofTagged ⟨source.writable_toJson, trivial, target.writable_toJson, trivial⟩
  | ifElse condition thenBlock elseBlock ihthen ihelse =>
    exact writable_ofTagged ⟨condition.writable_toJson, Block.writable_toJson ihthen, Block.writable_toJson ihelse, trivial⟩
  | either branches ih =>
    rw [Statement.toJson, Block.allToJson_eq_map]
    exact writable_ofTagged ⟨allWritable_map fun b hb => Block.writable_toJson (ih b hb), trivial⟩
  | forEach var domain body order ih =>
    exact writable_ofTagged ⟨trivial, domain.writable_toJson, Block.writable_toJson ih, order.writable_toJson, trivial⟩

/-- A written statement is read back. -/
theorem statementWith?_toJson (s : Statement) (fuel : Nat) (inside : Bool) (h : s.toJson.depth < fuel)
    (htree : s.toJson.depth < treeFuel) : statementWith? fuel inside s.toJson = some s := by
  induction fuel generalizing s inside with
  | zero => exact absurd h (Nat.not_lt_zero _)
  | succ fuel ih =>
    have hblock : ∀ b : List Statement, depthAll (Block.itemsToJson b) < fuel → depthAll (Block.itemsToJson b) < treeFuel →
        list? (statementWith? fuel true) (.arr (Block.itemsToJson b)) = some b := by
      intro b h htree
      rw [Block.itemsToJson_eq_map] at h htree ⊢
      exact list?_map fun s hs => ih s true (depth_lt_of_mem hs h) (depth_lt_of_mem hs htree)
    have hw := s.writable_toJson
    cases s <;> simp only [Statement.toJson, Block.allToJson_eq_map, depth_ofTagged, depthMembers, depth] at h htree hw ⊢ <;>
      rw [statementWith?]
    case create className var => cases var <;> rw [tagged?_ofTagged inside hw rfl rfl] <;> simp
    all_goals rw [tagged?_ofTagged inside hw rfl rfl]
    case assign var value => simp [objExpr?_toJson value true (by omega)]
    case delete objects => simp [objExpr?_toJson objects true (by omega)]
    case createTuple source relation target | deleteTuple source relation target =>
      simp [objExpr?_toJson source true (by omega), objExpr?_toJson target true (by omega)]
    case ifElse condition thenBlock elseBlock =>
      simp [formula?_toJson condition true (by omega), hblock thenBlock (by omega) (by omega), hblock elseBlock (by omega) (by omega)]
    case either branches =>
      have hbranches : list? (list? (statementWith? fuel true)) (.arr (branches.map Block.toJson)) = some branches := by
        refine list?_map fun b hb => ?_
        have hdepth := depth_le_depthAll (List.mem_map_of_mem (f := Block.toJson) hb)
        rw [Block.toJson, depth] at hdepth
        exact hblock b (by omega) (by omega)
      simp [hbranches]
    case forEach var domain body order =>
      simp [objExpr?_toJson domain true (by omega), hblock body (by omega) (by omega), loopKind?_toJson]

/-! ## Declarations -/

theorem word32?_toNat (n : UInt32) : word32? (.nat n.toNat) = some n := by
  rw [word32?, if_pos n.toNat_lt_size]
  simp

theorem Cardinality.writable_toJson (c : Cardinality) : c.toJson.Writable := by
  have hword : ∀ n : UInt32, (Json.nat n.toNat).Writable := fun n => Nat.lt_trans n.toNat_lt_size (by decide)
  rcases c with ⟨lower, _ | upper⟩
  · exact ⟨hword lower, trivial, trivial⟩
  · exact ⟨hword lower, hword upper, trivial⟩

theorem cardinality?_toJson (c : Cardinality) : cardinality? c.toJson = some c := by
  rcases c with ⟨lower, _ | upper⟩
  all_goals
    simp [cardinality?, Cardinality.toJson, word32?_toNat]

theorem texts?_ofTexts (texts : List String) : list? text? (ofTexts texts) = some texts := list?_map fun _ _ => rfl

theorem ClassDecl.writable_toJson (d : ClassDecl) : d.toJson.Writable :=
  ⟨trivial, allWritable_map (f := Json.str) fun _ _ => trivial, trivial⟩

theorem classDecl?_toJson (d : ClassDecl) : classDecl? d.toJson = some d := by
  simp [classDecl?, ClassDecl.toJson, texts?_ofTexts]

theorem RelationDecl.writable_toJson (d : RelationDecl) : d.toJson.Writable := by
  rcases d with ⟨source, name, target, cardinality, _ | inverse⟩
  · exact ⟨trivial, trivial, trivial, cardinality.writable_toJson, trivial⟩
  · exact ⟨trivial, trivial, trivial, cardinality.writable_toJson, trivial, trivial⟩

theorem relationDecl?_toJson (d : RelationDecl) : relationDecl? d.toJson = some d := by
  rcases d with ⟨source, name, target, cardinality, _ | inverse⟩
  all_goals
    simp [relationDecl?, RelationDecl.toJson, cardinality?_toJson]

theorem Param.writable_toJson (p : Param) : p.toJson.Writable := ⟨trivial, trivial, p.cardinality.writable_toJson, trivial⟩

theorem param?_toJson (p : Param) : param? p.toJson = some p := by
  simp [param?, Param.toJson, cardinality?_toJson]

theorem Action.writable_toJson (a : Action) : a.toJson.Writable :=
  ⟨trivial, allWritable_map fun p _ => p.writable_toJson, Block.writable_toJson fun s _ => s.writable_toJson, trivial⟩

theorem action?_toJson (a : Action) (h : a.toJson.depth < treeFuel) : action? a.toJson = some a := by
  simp only [Action.toJson, Block.toJson, depth, depthMembers] at h
  have hparams : list? param? (.arr (a.params.map Param.toJson)) = some a.params := list?_map fun p _ => param?_toJson p
  have hblock : block? (Block.toJson a.block) = some a.block := by
    rw [Block.itemsToJson_eq_map] at h
    rw [Block.toJson, Block.itemsToJson_eq_map]
    exact list?_map fun s hs =>
      statementWith?_toJson s treeFuel false (depth_lt_of_mem hs (by omega)) (depth_lt_of_mem hs (by omega))
  simp [action?, Action.toJson, hparams, hblock]

theorem Invariant.writable_toJson (i : Invariant) : i.toJson.Writable := by
  rcases i with ⟨name, formula, _ | description⟩
  · exact ⟨trivial, formula.writable_toJson, trivial⟩
  · exact ⟨trivial, formula.writable_toJson, trivial, trivial⟩

theorem invariant?_toJson (i : Invariant) (h : i.toJson.depth < treeFuel) : invariant? i.toJson = some i := by
  rcases i with ⟨name, formula, _ | description⟩
  all_goals
    simp only [Invariant.toJson, optionalMember, depth, List.cons_append, List.nil_append, depthMembers] at h
    have hformula := formula?_toJson formula false (by omega)
    simp [invariant?, Invariant.toJson, hformula]

theorem Spec.writable_toJson (s : Spec) : s.toJson.Writable :=
  ⟨allWritable_map fun d _ => d.writable_toJson, allWritable_map fun d _ => d.writable_toJson,
    allWritable_map fun a _ => a.writable_toJson, allWritable_map fun i _ => i.writable_toJson, trivial⟩

/-- A specification that does not nest too deep is read back from the value that it is written as. -/
theorem spec?_toJson (s : Spec) (h : s.toJson.depth < treeFuel) : spec? s.toJson = some s := by
  simp only [Spec.toJson, depth, depthMembers] at h
  have hclasses : list? classDecl? (.arr (s.classes.map ClassDecl.toJson)) = some s.classes :=
    list?_map fun d _ => classDecl?_toJson d
  have hrelations : list? relationDecl? (.arr (s.relations.map RelationDecl.toJson)) = some s.relations :=
    list?_map fun d _ => relationDecl?_toJson d
  have hactions : list? action? (.arr (s.actions.map Action.toJson)) = some s.actions :=
    list?_map fun a ha => action?_toJson a (depth_lt_of_mem ha (by omega))
  have hinvariants : list? invariant? (.arr (s.invariants.map Invariant.toJson)) = some s.invariants :=
    list?_map fun i hi => invariant?_toJson i (depth_lt_of_mem hi (by omega))
  simp [spec?, Spec.toJson, hclasses, hrelations, hactions, hinvariants]

end StoreCheck
