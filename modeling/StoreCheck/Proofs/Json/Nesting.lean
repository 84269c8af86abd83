import StoreCheck.Proofs.Json.Written

/-!
# Reading never deepens

What is read from a text nests at most as deep as the limit allows, since a value beyond it is ill. And what is read from a value
is written again with no more nesting than the value had: every form of a tree takes a level, and so does the form that it is
written in. Only defaults that are written out may nest deeper than what was read, and they stand near the top, where there is
room for them.
-/

namespace StoreCheck.Json

open Option

variable {n fuel : Nat} {body v : Json} {inside : Bool} {tag name : String} {fs : Json.Fields} {names : List String} {e : ObjExpr}

/-! ## Values -/

theorem depth_textValue (units : List TextUnit) : (textValue units).depth = 0 := by
  rw [textValue]
  split <;> rfl

theorem depth_value (l : NumberLiteral) : l.value.depth = 0 := by
  rw [NumberLiteral.value]
  split
  · rfl
  · split <;> rfl

variable {v : Json}

theorem depth_nested (h : v.depth ≤ room - 1 + 1) : (nested room v).depth ≤ room := by
  rw [nested]
  split
  · exact Nat.zero_le _
  · omega

theorem depthMembers_le (h : ∀ m ∈ members, m.2.depth ≤ n) : depthMembers members ≤ n := by
  induction members with
  | nil => exact Nat.zero_le _
  | cons m rest ih =>
    exact Nat.max_le.2 ⟨h m List.mem_cons_self, ih fun m' hm => h m' (List.mem_cons_of_mem m hm)⟩

theorem depth_objectValue (h : ∀ m ∈ members, m.2.depth ≤ n) : (objectValue members).depth ≤ n + 1 := by
  have hkeys : ∀ ms, memberKeys? members = some ms → depthMembers ms ≤ n := by
    induction members with
    | nil =>
      rintro ms ⟨⟩
      exact Nat.zero_le _
    | cons m rest ih =>
      intro ms hms
      simp only [memberKeys?, bind_eq_bind, bind_eq_some_iff, Option.pure_def, Option.some.injEq] at hms
      obtain ⟨cs, -, ms', hms', rfl⟩ := hms
      have hrest := ih (fun m' hm => h m' (List.mem_cons_of_mem m hm)) ms' hms'
      exact Nat.max_le.2 ⟨h m List.mem_cons_self, hrest⟩
  rw [objectValue]
  split
  · rename_i ms hms
    exact Nat.succ_le_succ (hkeys ms hms)
  · exact Nat.zero_le _

mutual

/-- A value that is read nests no deeper than there was room for. -/
theorem depth_readValue : ∀ {fuel room : Nat} {cs rest : List Char} {v : Json}, readValue fuel room cs = some (v, rest) →
    v.depth ≤ room
  | fuel + 1, _, _, _, _, h => by
    rw [readValue] at h
    split at h
    · cases h
      exact Nat.zero_le _
    · cases h
      exact Nat.zero_le _
    · cases h
      exact Nat.zero_le _
    · obtain ⟨p, -, heq⟩ := map_eq_some_iff.1 h
      cases heq
      rw [depth_textValue]
      exact Nat.zero_le _
    · split at h
      · cases h
        exact depth_nested (Nat.le_add_left _ _)
      · obtain ⟨p, hitems, heq⟩ := map_eq_some_iff.1 h
        cases heq
        exact depth_nested (Nat.succ_le_succ (depth_readItems hitems))
    · split at h
      · cases h
        exact depth_nested (Nat.le_add_left _ _)
      · obtain ⟨p, hmembers, heq⟩ := map_eq_some_iff.1 h
        cases heq
        exact depth_nested (depth_objectValue (depth_readMembers hmembers))
    · obtain ⟨p, -, heq⟩ := map_eq_some_iff.1 h
      cases heq
      rw [depth_value]
      exact Nat.zero_le _

theorem depth_readItems : ∀ {fuel room : Nat} {cs rest : List Char} {vs : List Json},
    readItems fuel room cs = some (vs, rest) → depthAll vs ≤ room
  | fuel + 1, _, _, _, _, h => by
    obtain ⟨⟨v, more⟩, hv, h⟩ := bind_eq_some_iff.1 h
    have hdepth := depth_readValue hv
    dsimp only at h
    split at h
    · obtain ⟨⟨vs', rest'⟩, hvs, heq⟩ := bind_eq_some_iff.1 h
      cases heq
      exact Nat.max_le.2 ⟨hdepth, depth_readItems hvs⟩
    · cases h
      exact Nat.max_le.2 ⟨hdepth, Nat.zero_le _⟩
    · cases h

theorem depth_readMembers : ∀ {fuel room : Nat} {cs rest : List Char} {ms : List (List TextUnit × Json)},
    readMembers fuel room cs = some (ms, rest) → ∀ m ∈ ms, m.2.depth ≤ room
  | fuel + 1, _, _, _, _, h => by
    rw [readMembers] at h
    split at h
    · obtain ⟨⟨k, more⟩, -, h⟩ := bind_eq_some_iff.1 h
      dsimp only at h
      split at h
      · obtain ⟨⟨v, more'⟩, hv, h⟩ := bind_eq_some_iff.1 h
        have hdepth := depth_readValue hv
        split at h
        · obtain ⟨⟨ms', rest'⟩, hms, heq⟩ := bind_eq_some_iff.1 h
          cases heq
          intro m hm
          rcases List.mem_cons.1 hm with rfl | hm
          · exact hdepth
          · exact depth_readMembers hms m hm
        · cases h
          intro m hm
          rw [List.mem_singleton.1 hm]
          exact hdepth
        · cases h
      · cases h
    · cases h

end

/-- The value of a text nests no deeper than the limit. -/
theorem depth_parse? (h : parse? text = some v) : v.depth ≤ maxNesting := by
  obtain ⟨⟨w, rest⟩, hread, h⟩ := bind_eq_some_iff.1 h
  dsimp only at h
  split at h
  · cases h
    exact depth_readValue hread
  · cases h

/-! ## Records and tagged values -/

theorem depth_le_depthMembers (h : m ∈ members) : m.2.depth ≤ depthMembers members := by
  induction h with
  | head rest => exact Nat.le_max_left _ _
  | tail m' _ ih => exact Nat.le_trans ih (Nat.le_max_right _ _)

theorem depthMembers_filter (p : String × Json → Bool) (members : Fields) :
    depthMembers (members.filter p) ≤ depthMembers members :=
  depthMembers_le fun _ hm => depth_le_depthMembers (List.mem_filter.1 hm).1

theorem depth_tagged? (h : tagged? tags inside v = some (tag, body)) : body.depth ≤ v.depth := by
  unfold tagged? at h
  split at h
  · cases h
  · split at h
    · split at h
      · obtain ⟨t, -, heq⟩ := map_eq_some_iff.1 h
        cases heq
        exact Nat.succ_le_succ (depthMembers_filter _ _)
      · cases h
    · obtain ⟨t, -, heq⟩ := map_eq_some_iff.1 h
      cases heq
      exact Nat.succ_le_succ (Nat.le_max_right _ _)
    · cases h

theorem depth_fields? (h : fields? names v = some fs) : depthMembers fs + 1 ≤ v.depth := by
  cases v with
  | obj members =>
    rw [fields?] at h
    split at h
    · cases h
      exact Nat.succ_le_succ (depthMembers_filter _ _)
    · cases h
  | arr items =>
    rw [fields?] at h
    split at h
    · cases h
      exact Nat.succ_le_succ (depthMembers_le fun m hm => depth_le_depthAll (List.of_mem_zip hm).2)
    · cases h
  | _ => cases h

theorem depthMembers_cons (hv : v.depth ≤ n) (hrest : depthMembers members ≤ n) : depthMembers ((name, v) :: members) ≤ n :=
  Nat.max_le.2 ⟨hv, hrest⟩

/-- A tagged value nests no deeper than what its members were read from. -/
theorem depth_ofTagged_le (hfs : fields? names body = some fs) (hbody : body.depth ≤ v.depth)
    (h : depthMembers members ≤ depthMembers fs) : (ofTagged tag members).depth ≤ v.depth := by
  have hfields := depth_fields? hfs
  rw [depth_ofTagged]
  omega

theorem depth_ofTagged_single (hfs : fields? names body = some fs) (hbody : body.depth ≤ v.depth) (h : w.depth ≤ depthMembers fs) :
    (ofTagged tag [(name, w)]).depth ≤ v.depth :=
  depth_ofTagged_le hfs hbody (depthMembers_cons h (Nat.zero_le _))

theorem depth_lookup {fs : List (String × Json)} (h : List.lookup name fs = some v) : v.depth ≤ depthMembers fs := by
  obtain ⟨l₁, l₂, rfl, -⟩ := List.lookup_eq_some_iff.1 h
  exact depth_le_depthMembers (m := (name, v)) (by simp)

namespace Fields

variable {α : Type} {fs : Fields} {name : String} {value? : Json → Option α} {a : α} {size : α → Nat}

theorem depth_required (hvalue : ∀ {v a}, value? v = some a → size a ≤ v.depth) (h : fs.required name value? = some a) :
    size a ≤ depthMembers fs := by
  obtain ⟨v, hv, ha⟩ := bind_eq_some_iff.1 h
  exact Nat.le_trans (hvalue ha) (depth_lookup hv)

theorem exists_of_withDefault {default : α} (h : fs.withDefault name default value? = some a) :
    a = default ∨ ∃ v, value? v = some a ∧ v.depth ≤ depthMembers fs := by
  rw [withDefault] at h
  split at h
  · cases h
    exact .inl rfl
  · rename_i v hv
    exact .inr ⟨v, h, depth_lookup hv⟩

theorem depth_withDefault {default : α} (hvalue : ∀ {v a}, value? v = some a → size a ≤ v.depth)
    (h : fs.withDefault name default value? = some a) : size a ≤ max (depthMembers fs) (size default) := by
  rcases exists_of_withDefault h with rfl | ⟨v, hv, hle⟩
  · exact Nat.le_max_right _ _
  · exact Nat.le_trans (hvalue hv) (Nat.le_trans hle (Nat.le_max_left _ _))

end Fields

section Lists

variable {α : Type} {item? : Json → Option α} {v : Json} {as : List α}

theorem exists_of_mapM {items : List Json} (h : items.mapM item? = some as) : ∀ a ∈ as, ∃ w ∈ items, item? w = some a := by
  induction items generalizing as with
  | nil =>
    cases h
    simp
  | cons w rest ih =>
    rw [List.mapM_cons] at h
    obtain ⟨a, ha, h⟩ := bind_eq_some_iff.1 h
    obtain ⟨as', has, heq⟩ := bind_eq_some_iff.1 h
    cases heq
    intro b hb
    rcases List.mem_cons.1 hb with rfl | hb
    · exact ⟨w, List.mem_cons_self, ha⟩
    · obtain ⟨w', hw, hitem⟩ := ih has b hb
      exact ⟨w', List.mem_cons_of_mem w hw, hitem⟩

theorem exists_of_list? (h : list? item? v = some as) :
    0 < v.depth ∧ ∀ a ∈ as, ∃ w, item? w = some a ∧ w.depth < v.depth := by
  cases v with
  | arr items =>
    refine ⟨Nat.succ_pos _, fun a ha => ?_⟩
    obtain ⟨w, hw, hitem⟩ := exists_of_mapM h a ha
    exact ⟨w, hitem, Nat.lt_succ_of_le (depth_le_depthAll hw)⟩
  | _ => cases h

theorem depthAll_map_le {f : α → Json} (as : List α) (n : Nat) (h : ∀ a ∈ as, (f a).depth ≤ n) : depthAll (as.map f) ≤ n := by
  induction as with
  | nil => exact Nat.zero_le _
  | cons a rest ih =>
    exact Nat.max_le.2 ⟨h a List.mem_cons_self, ih fun b hb => h b (List.mem_cons_of_mem a hb)⟩

theorem depth_list? (hitem : ∀ {w a}, item? w = some a → (f a).depth ≤ w.depth) (h : list? item? v = some as) :
    (Json.arr (as.map f)).depth ≤ v.depth := by
  obtain ⟨hpos, hitems⟩ := exists_of_list? h
  have hdepth : depthAll (as.map f) ≤ v.depth - 1 := by
    refine depthAll_map_le _ _ fun a ha => ?_
    obtain ⟨w, hw, hlt⟩ := hitems a ha
    have := hitem hw
    omega
  rw [depth]
  omega

end Lists

end StoreCheck.Json

namespace StoreCheck

open Json

/-! ## Expressions -/

/-- An expression that is read is not nested deeper than its text. -/
theorem depth_objExprWith? (h : objExprWith? fuel inside v = some e) : e.toJson.depth ≤ v.depth := by
  induction fuel generalizing inside v e with
  | zero => cases h
  | succ fuel ih =>
    obtain ⟨⟨tag, body⟩, htag, h⟩ := Option.bind_eq_some_iff.1 h
    have hbody := depth_tagged? htag
    dsimp only at h
    split at h
    case h_8 => cases h
    all_goals simp only [Option.bind_eq_bind, Option.bind_eq_some_iff, Option.pure_def, Option.some.injEq] at h
    case h_1 | h_2 | h_7 =>
      obtain ⟨fs, hfs, name, -, rfl⟩ := h
      exact depth_ofTagged_single hfs hbody (Nat.zero_le _)
    case h_3 | h_4 =>
      obtain ⟨fs, hfs, source, hsource, rfl⟩ := h
      have hdepth := Fields.depth_required ih hsource
      exact depth_ofTagged_single hfs hbody hdepth
    case h_5 =>
      obtain ⟨fs, hfs, parts, hparts, rfl⟩ := h
      rw [ObjExpr.toJson, ObjExpr.allToJson_eq_map]
      have hdepth := Fields.depth_required (depth_list? ih) hparts
      exact depth_ofTagged_single hfs hbody hdepth
    case h_6 =>
      obtain ⟨fs, hfs, source, hsource, relation, -, rfl⟩ := h
      have hdepth := Fields.depth_required ih hsource
      exact depth_ofTagged_le hfs hbody (depthMembers_cons hdepth (depthMembers_cons (Nat.zero_le _) (Nat.zero_le _)))

variable {v : Json}

theorem depth_objExpr? (h : objExpr? inside v = some e) : e.toJson.depth ≤ v.depth :=
  depth_objExprWith? h

/-! ## Formulas -/

theorem Truth.depth_toJson (t : Truth) : t.toJson.depth = 0 := by
  cases t <;> rfl

theorem depth_quantVar? (h : quantVar? v = some x) : x.toJson.depth ≤ v.depth := by
  simp only [quantVar?, Option.bind_eq_bind, Option.bind_eq_some_iff, Option.pure_def, Option.some.injEq] at h
  obtain ⟨fs, hfs, name, -, domain, hdomain, rfl⟩ := h
  have hfields := depth_fields? hfs
  have hdepth := Fields.depth_required depth_objExpr? hdomain
  simp only [QuantVar.toJson, depth, depthMembers]
  omega

/-- A formula that is read is not nested deeper than its text. -/
theorem depth_formulaWith? (h : formulaWith? fuel inside v = some f) : f.toJson.depth ≤ v.depth := by
  induction fuel generalizing inside v f with
  | zero => cases h
  | succ fuel ih =>
    obtain ⟨⟨tag, body⟩, htag, h⟩ := Option.bind_eq_some_iff.1 h
    have hbody := depth_tagged? htag
    dsimp only at h
    split at h
    case h_12 => cases h
    all_goals simp only [Option.bind_eq_bind, Option.bind_eq_some_iff, Option.pure_def, Option.some.injEq] at h
    case h_1 =>
      obtain ⟨fs, hfs, value, -, rfl⟩ := h
      exact depth_ofTagged_single hfs hbody (value.depth_toJson ▸ Nat.zero_le _)
    case h_2 =>
      obtain ⟨fs, hfs, part, hpart, rfl⟩ := h
      have hdepth := Fields.depth_required ih hpart
      exact depth_ofTagged_single hfs hbody hdepth
    case h_3 | h_4 | h_6 =>
      obtain ⟨fs, hfs, parts, hparts, rfl⟩ := h
      rw [FormulaExpr.toJson, FormulaExpr.allToJson_eq_map]
      have hdepth := Fields.depth_required (depth_list? ih) hparts
      exact depth_ofTagged_single hfs hbody hdepth
    case h_5 =>
      obtain ⟨fs, hfs, premise, hpremise, conclusion, hconclusion, rfl⟩ := h
      have hfirst := Fields.depth_required ih hpremise
      have hsecond := Fields.depth_required ih hconclusion
      exact depth_ofTagged_le hfs hbody (depthMembers_cons hfirst (depthMembers_cons hsecond (Nat.zero_le _)))
    case h_7 =>
      obtain ⟨fs, hfs, sets, hsets, rfl⟩ := h
      rw [FormulaExpr.toJson, ObjExpr.allToJson_eq_map]
      have hdepth := Fields.depth_required (depth_list? depth_objExpr?) hsets
      exact depth_ofTagged_single hfs hbody hdepth
    case h_8 =>
      obtain ⟨fs, hfs, set, hset, within, hwithin, rfl⟩ := h
      have hfirst := Fields.depth_required depth_objExpr? hset
      have hsecond := Fields.depth_required depth_objExpr? hwithin
      exact depth_ofTagged_le hfs hbody (depthMembers_cons hfirst (depthMembers_cons hsecond (Nat.zero_le _)))
    case h_9 =>
      obtain ⟨fs, hfs, set, hset, rfl⟩ := h
      have hdepth := Fields.depth_required depth_objExpr? hset
      exact depth_ofTagged_single hfs hbody hdepth
    case h_10 | h_11 =>
      obtain ⟨fs, hfs, vars, hvars, matrix, hmatrix, rfl⟩ := h
      have hfirst := Fields.depth_required (depth_list? depth_quantVar?) hvars
      have hsecond := Fields.depth_required ih hmatrix
      exact depth_ofTagged_le hfs hbody (depthMembers_cons hfirst (depthMembers_cons hsecond (Nat.zero_le _)))

theorem depth_formula? (h : formula? inside v = some f) : f.toJson.depth ≤ v.depth :=
  depth_formulaWith? h

/-! ## Statements -/

theorem depthMembers_optionalMember (name : String) (value : Option String) : depthMembers (optionalMember name value) = 0 := by
  cases value <;> rfl

theorem LoopKind.depth_toJson (order : LoopKind) : order.toJson.depth = 0 := by
  cases order <;> rfl

/-- A statement that is read is not nested deeper than its text. -/
theorem depth_statementWith? {inside : Bool} {v : Json} {s : Statement} (h : statementWith? fuel inside v = some s) :
    s.toJson.depth ≤ v.depth := by
  induction fuel generalizing inside v s with
  | zero => cases h
  | succ fuel ih =>
    have hblock : ∀ {w : Json} {b : List Statement}, list? (statementWith? fuel true) w = some b →
        (Block.toJson b).depth ≤ w.depth := by
      intro w b hb
      rw [Block.toJson, Block.itemsToJson_eq_map]
      exact depth_list? ih hb
    obtain ⟨⟨tag, body⟩, htag, h⟩ := Option.bind_eq_some_iff.1 h
    have hbody := depth_tagged? htag
    dsimp only at h
    split at h
    case h_9 => cases h
    all_goals simp only [Option.bind_eq_bind, Option.bind_eq_some_iff, Option.pure_def, Option.some.injEq] at h
    case h_1 =>
      obtain ⟨fs, hfs, var, -, value, hvalue, rfl⟩ := h
      have hdepth := Fields.depth_required depth_objExpr? hvalue
      exact depth_ofTagged_le hfs hbody (depthMembers_cons (Nat.zero_le _) (depthMembers_cons hdepth (Nat.zero_le _)))
    case h_2 =>
      obtain ⟨fs, hfs, className, -, var, -, rfl⟩ := h
      exact depth_ofTagged_le hfs hbody
        (depthMembers_cons (Nat.zero_le _) (depthMembers_optionalMember "var" var ▸ Nat.zero_le _))
    case h_3 =>
      obtain ⟨fs, hfs, objects, hobjects, rfl⟩ := h
      have hdepth := Fields.depth_required depth_objExpr? hobjects
      exact depth_ofTagged_single hfs hbody hdepth
    case h_4 | h_5 =>
      obtain ⟨fs, hfs, source, hsource, relation, -, target, htarget, rfl⟩ := h
      have hfirst := Fields.depth_required depth_objExpr? hsource
      have hsecond := Fields.depth_required depth_objExpr? htarget
      exact depth_ofTagged_le hfs hbody (depthMembers_cons hfirst (depthMembers_cons (Nat.zero_le _)
        (depthMembers_cons hsecond (Nat.zero_le _))))
    case h_6 =>
      obtain ⟨fs, hfs, condition, hcondition, thenBlock, hthen, elseBlock, helse, rfl⟩ := h
      -- a missing block is written as an empty one, which nests no deeper than the other block
      have hsecond := Fields.depth_required hblock hthen
      have hthird := Fields.depth_withDefault hblock helse
      simp only [Block.toJson, Block.itemsToJson, depth, depthAll] at hsecond hthird
      have hfirst := Fields.depth_required depth_formula? hcondition
      exact depth_ofTagged_le hfs hbody (depthMembers_cons hfirst (depthMembers_cons hsecond
        (depthMembers_cons (by rw [depth]; omega) (Nat.zero_le _))))
    case h_7 =>
      obtain ⟨fs, hfs, branches, hbranches, rfl⟩ := h
      rw [Statement.toJson, Block.allToJson_eq_map]
      have hdepth := Fields.depth_required (depth_list? hblock) hbranches
      exact depth_ofTagged_single hfs hbody hdepth
    case h_8 =>
      obtain ⟨fs, hfs, var, -, domain, hdomain, block, hbody', order, -, rfl⟩ := h
      have hfirst := Fields.depth_required depth_objExpr? hdomain
      have hsecond := Fields.depth_required hblock hbody'
      exact depth_ofTagged_le hfs hbody (depthMembers_cons (Nat.zero_le _) (depthMembers_cons hfirst
        (depthMembers_cons hsecond (depthMembers_cons (order.depth_toJson ▸ Nat.zero_le _) (Nat.zero_le _)))))

/-! ## Declarations -/

theorem Cardinality.depth_toJson (c : Cardinality) : c.toJson.depth = 1 := by
  rcases c with ⟨lower, _ | upper⟩ <;> rfl

theorem ClassDecl.depth_toJson (d : ClassDecl) : d.toJson.depth ≤ 2 := by
  have hparents := depthAll_map_le (f := Json.str) d.parents 0 fun _ _ => Nat.le_refl 0
  simp only [ClassDecl.toJson, ofTexts, depth, depthMembers]
  omega

theorem RelationDecl.depth_toJson (d : RelationDecl) : d.toJson.depth ≤ 2 := by
  simp only [RelationDecl.toJson, List.cons_append, List.nil_append, depth, depthMembers, d.cardinality.depth_toJson,
    depthMembers_optionalMember]
  omega

theorem Param.depth_toJson (p : Param) : p.toJson.depth ≤ 2 := by
  simp only [Param.toJson, depth, depthMembers, p.cardinality.depth_toJson]
  omega

theorem depth_action? {a : Action} (h : action? v = some a) : a.toJson.depth ≤ max v.depth 4 := by
  simp only [action?, Option.bind_eq_bind, Option.bind_eq_some_iff, Option.pure_def, Option.some.injEq] at h
  obtain ⟨fs, hfs, name, -, params, -, block, hblock, rfl⟩ := h
  have hfields := depth_fields? hfs
  have hparams := depthAll_map_le params 2 fun p _ => Param.depth_toJson p
  have hdepth := Fields.depth_withDefault (depth_list? depth_statementWith?) hblock
  simp only [List.map_nil, depth, depthAll] at hdepth
  simp only [Action.toJson, Block.toJson, Block.itemsToJson_eq_map, depth, depthMembers]
  omega

theorem depth_invariant? (h : invariant? v = some i) : i.toJson.depth ≤ v.depth := by
  simp only [invariant?, Option.bind_eq_bind, Option.bind_eq_some_iff, Option.pure_def, Option.some.injEq] at h
  obtain ⟨fs, hfs, name, -, formula, hformula, description, -, rfl⟩ := h
  have hfields := depth_fields? hfs
  have hdepth := Fields.depth_required depth_formula? hformula
  simp only [Invariant.toJson, List.cons_append, List.nil_append, depth, depthMembers, depthMembers_optionalMember]
  omega

/-- What is read from a value is written with no more nesting, but for the defaults of declarations. -/
theorem depth_spec? {s : Spec} (h : spec? v = some s) : s.toJson.depth ≤ max v.depth 6 := by
  simp only [spec?, Option.bind_eq_bind, Option.bind_eq_some_iff, Option.pure_def, Option.some.injEq] at h
  obtain ⟨fs, hfs, classes, -, relations, -, actions, hactions, invariants, hinvariants, rfl⟩ := h
  have hfields := depth_fields? hfs
  have hclasses := depthAll_map_le classes 2 fun d _ => ClassDecl.depth_toJson d
  have hrelations := depthAll_map_le relations 2 fun d _ => RelationDecl.depth_toJson d
  have hactions : depthAll (actions.map Action.toJson) ≤ max (depthMembers fs - 1) 4 := by
    rcases Fields.exists_of_withDefault hactions with rfl | ⟨w, hw, hle⟩
    · exact Nat.zero_le _
    · refine depthAll_map_le _ _ fun a ha => ?_
      obtain ⟨w', hw', hlt⟩ := (exists_of_list? hw).2 a ha
      have hdepth := depth_action? hw'
      omega
  have hinvariants := Fields.depth_withDefault (depth_list? depth_invariant?) hinvariants
  simp only [List.map_nil, depth, depthAll] at hinvariants
  simp only [Spec.toJson, depth, depthMembers]
  omega

end StoreCheck
