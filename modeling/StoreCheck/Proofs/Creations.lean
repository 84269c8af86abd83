import StoreCheck.Proofs.Encoding.Encoded
import StoreCheck.Proofs.Encoding.GoalMeaning
import StoreCheck.Proofs.Logic.Finite

/-!
# Created objects are unique

Every create statement of an action has a predicate that relates the positions of its context to the objects it makes there. In a
model of the action's theory it makes one object at every position where it runs and none elsewhere; the object is new and of
exactly the class and its ancestors; and no object is made twice (`created_objects_unique`).
-/

namespace StoreCheck

open List Encode Layout Store

variable {className : String} {made : Creation} {s : Session}

variable {M : Structure}

/-! ## Classes of created objects -/

variable {spec : Spec} {store : Store} {c : ClassId}

/-- In a structure that obeys the base axioms an object belongs to all ancestors of its class. -/
theorem Layout.Founds.isOf_ancestor (hspec : ofSpec spec = .ok store) (h : (ofStore store).1.Founds M)
    (hc : c.index < store.graph.size) (he : M.sort e = (ofStore store).1.classSort c)
    (hof : (ofStore store).1.IsOf M c e) : ∀ d ∈ store.graph.ancestorsOf c, (ofStore store).1.IsOf M d e := by
  have hwf := wellFormed_ofSpec hspec
  obtain ⟨decls, hdecls⟩ := graph_ofSpec hspec
  have hsort : ∀ {m p : ClassId}, p ∈ store.graph.parentsOf m →
      (ofStore store).1.classSort p = (ofStore store).1.classSort m := by
    intro m p hp
    exact congrArg (fun i => (ofStore store).1.componentSorts.getD i ⟨0⟩) (hwf.graph.parents m p hp).2
  -- membership goes along parent edges, which stay inside the sort
  have hancestors := ClassGraph.ancestorsOf_induction hdecls
    (P := fun d => d.index < store.graph.size ∧ (Layout.ofStore store).1.classSort d = (Layout.ofStore store).1.classSort c ∧
      (Layout.ofStore store).1.IsOf M d e) (c := c) ?_ ?_
  · intro d hd
    exact (hancestors d hd).2.2
  · intro p hp
    exact ⟨(hwf.graph.parents c p hp).1, hsort hp, h.inherits c (ClassGraph.mem_idsUpTo.2 hc) p hp e he hof⟩
  · rintro m ⟨hm, hmc, hme⟩ p hp
    exact ⟨(hwf.graph.parents m p hp).1, (hsort hp).trans hmc,
      h.inherits m (ClassGraph.mem_idsUpTo.2 hm) p hp e (he.trans hmc.symm) hme⟩

/-! ## One create statement -/

/-- What a model says of the objects that a create statement of a class makes where it stands in the session. -/
structure Creation.Exact (made : Creation) (M : Structure) (L : Layout) (s : Session) (c : ClassId) : Prop where
  /-- There is one object wherever the statement runs. -/
  one : ∀ es, s.Runs M es → ∃! e, made.Makes M es e
  /-- There is none anywhere else. -/
  none : ∀ es, ¬ s.Runs M es → ∀ e, ¬ made.Makes M es e
  /-- The objects did not exist initially. -/
  new : ∀ es e, made.Makes M es e → ¬ (L.initial.slot made.sort).At M [] e
  /-- Of the classes of the component they belong to the created one and its ancestors. -/
  classes : ∀ es e, made.Makes M es e → ∀ d ∈ L.graph.members (L.graph.componentOf c),
    (L.IsOf M d e ↔ L.graph.isSubclass c d = true)

theorem Encode.AddsCreation.lt (h : AddsCreation L s className c made) :
    c.index < L.graph.size := ClassGraph.resolveIn_lt h.resolved

/-- The axioms of a creation say that it is exact, over the base axioms. -/
theorem Encode.Creates.exact (hspec : ofSpec spec = .ok store) (hfounds : (ofStore store).1.Founds M)
    (hadds : AddsCreation (ofStore store).1 s className c made) (h : Creates M (ofStore store).1 s c made.pred) :
    made.Exact M (ofStore store).1 s c where
  one es hes := by
    obtain ⟨e, he, hp⟩ := h.made es hes
    refine ⟨e, ⟨hes.sorts.trans hadds.params.symm, he.trans hadds.sort.symm, hp⟩, ?_⟩
    rintro e' ⟨-, he', hp'⟩
    exact h.single es hes.sorts e' (he'.trans hadds.sort) e he hp' hp
  none es hes := by
    rintro e ⟨hsorts, he, hp⟩
    exact hes (h.only es (hsorts.trans hadds.params) e (he.trans hadds.sort) hp).1
  new := by
    rintro es e ⟨hsorts, he, hp⟩
    rw [hadds.sort]
    exact (h.only es (hsorts.trans hadds.params) e (he.trans hadds.sort) hp).2.1
  classes := by
    rintro es e ⟨hsorts, he, hp⟩ d hd
    have he' := he.trans hadds.sort
    obtain ⟨-, -, hof, hforeign⟩ := h.only es (hsorts.trans hadds.params) e he' hp
    simp only [ClassGraph.isSubclass, Bool.or_eq_true, decide_eq_true_eq]
    constructor
    · intro hd'
      by_contra hnot
      obtain ⟨hne, hnotmem⟩ := not_or.1 hnot
      exact hforeign d (mem_filter.2 ⟨hd, by simp [Ne.symm hne, hnotmem]⟩) hd'
    · rintro (rfl | hmem)
      · exact hof
      · exact hfounds.isOf_ancestor hspec hadds.lt he' hof d hmem

/-! ## All create statements of an action -/

section Action

variable {store : Store} {a : Action} (stages : Stages store a)

/-- A create statement that the encoding of the action comes to adds its creation, which has its place among all creations; a
model obeys its axioms. -/
theorem Stages.created_of_reaches (hM : ∀ ρ, M.Obeys ρ stages.final)
    (h : Reaches (ofStore store).1 stages.entered a.block s (.create className var :: rest)) :
    ∃ c made, AddsCreation (ofStore store).1 s className c made ∧
      Creates M (ofStore store).1 s c made.pred ∧ stages.walked.creations[s.creations.length]? = some made := by
  obtain ⟨u, hu, hext⟩ := encoded_of_reaches h rfl stages.block
  obtain ⟨c, made, s1, s2, hadds, hq, haxioms, hext2, hcreations⟩ := create_adds hu
  refine ⟨c, made, hadds, ?_, ?_⟩
  · have hobeys : M.Obeys (fun _ => (M.inhabited ⟨0⟩).choose) s2 :=
      (hM _).of_grows (hext2.axioms.trans (hext.axioms.trans stages.extends_walked.axioms))
    have hcreates := ((obeys_creationAxioms haxioms).1 hobeys).2
    -- nothing has moved between the start of the statement and the axioms
    constructor
    · intro es hes
      exact hcreates.made es (hes.later hq)
    · intro es hes e he hp
      obtain ⟨hruns, hfacts⟩ := hcreates.only es (hes.trans hq.paramSorts.symm) e he hp
      exact ⟨(Session.runs_iff_of_quiet hq).1 hruns, hfacts⟩
    · intro es hes
      exact hcreates.single es (hes.trans hq.paramSorts.symm)
  · obtain ⟨others, hothers⟩ := hext.creations
    rw [← hothers, hcreations]
    simp

/-- Creations at different places among all creations make different objects. -/
theorem Stages.makes_apart (hM : ∀ ρ, M.Obeys ρ stages.final) {i j : Nat} (hi : stages.walked.creations[i]? = some made)
    (hj : stages.walked.creations[j]? = some made') (hsort : made.sort ∈ (ofStore store).1.sorts)
    (hmade : made.Makes M es e) (hmade' : made'.Makes M es' e) : i = j ∧ es = es' := by
  have hobeys : M.Obeys (fun _ => (M.inhabited ⟨0⟩).choose) stages.distinguished :=
    (hM _).of_grows ((Keeps.forM (fun _ => quiet.finalSlot) _).of_ok stages.finals).axioms
  have hapart := ((obeys_distinctAxioms stages.distinct).1 hobeys).2 made.sort hsort
  have hsame : made'.sort = made.sort := hmade'.2.1.symm.trans hmade.2.1
  have hpairs := pairwise_filter.1 hapart.apart
  have hclash : ∀ {i j : Nat} {c d : Creation} {as bs : List M.Elem}, stages.walked.creations[i]? = some c →
      stages.walked.creations[j]? = some d → c.sort = made.sort → d.sort = made.sort → c.Makes M as e → d.Makes M bs e →
      ¬ i < j := by
    intro i j c d as bs hi hj hc hd hcm hdm hlt
    obtain ⟨hi', rfl⟩ := List.getElem?_eq_some_iff.1 hi
    obtain ⟨hj', rfl⟩ := List.getElem?_eq_some_iff.1 hj
    exact pairwise_iff_getElem.1 hpairs i j hi' hj' hlt (by simp [hc]) (by simp [hd]) as bs e hcm hdm
  have hij : i = j := by
    have h1 := hclash hi hj rfl hsame hmade hmade'
    have h2 := hclash hj hi hsame rfl hmade' hmade
    omega
  subst hij
  cases hi.symm.trans hj
  exact ⟨rfl, hapart.once made (mem_filter.2 ⟨mem_of_getElem? hi, by simp⟩) es es' e hmade hmade'⟩

end Action

/-- What a structure says of the objects that an action creates. -/
structure UniqueCreations (store : Store) (action : Action) (entered : Session) (M : Structure) : Prop where
  /-- At every create statement that the encoding comes to, the predicate of its creation is exact. -/
  exact : ∀ s className var rest,
    Reaches (Layout.ofStore store).1 entered action.block s (.create className var :: rest) →
    ∃ c made, AddsCreation (Layout.ofStore store).1 s className c made ∧ made.Exact M (Layout.ofStore store).1 s c
  /-- An object is made by one statement at one position. -/
  once : ∀ s className var rest c made s' className' var' rest' c' made',
    Reaches (Layout.ofStore store).1 entered action.block s (.create className var :: rest) →
    AddsCreation (Layout.ofStore store).1 s className c made →
    Reaches (Layout.ofStore store).1 entered action.block s' (.create className' var' :: rest') →
    AddsCreation (Layout.ofStore store).1 s' className' c' made' →
    ∀ es es' e, made.Makes M es e → made'.Makes M es' e →
      s = s' ∧ Statement.create className var :: rest = .create className' var' :: rest' ∧ es = es'

/-- For every valid store, every action whose theory can be made and every model of the theory: at every create statement that
the encoding comes to, the predicate of its creation relates each position to one object if the statement runs there and to none
otherwise; the object did not exist initially, and of the classes of its component it belongs to the created one and its ancestors;
and no object is made by two statements or at two positions. -/
theorem created_objects_unique (spec : Spec) (store : Store) (hspec : Store.ofSpec spec = .ok store) (action : Action)
    (assumed checked : List FormulaExpr) (name : String) (theory : Theory)
    (htheory : preservationTheory store action assumed checked name = .ok theory) (M : Structure) (hM : M.Models theory) :
    ∃ entered, action.params.forM (Encode.param (Layout.ofStore store).1) (Layout.ofStore store).2 = .ok ((), entered) ∧
      UniqueCreations store action entered M := by
  obtain ⟨stages, -, hobeys⟩ := Stages.of_models htheory hM
  have hfounds : (Layout.ofStore store).1.Founds M :=
    (Layout.obeys_start store).mp ((hobeys fun _ => (M.inhabited ⟨0⟩).choose).of_grows stages.extends_final.axioms)
  refine ⟨stages.entered, stages.params, ?_, ?_⟩
  · intro s className var rest h
    obtain ⟨c, made, hadds, hcreates, -⟩ := stages.created_of_reaches hobeys h
    exact ⟨c, made, hadds, hcreates.exact hspec hfounds hadds⟩
  · intro s className var rest c made s' className' var' rest' c' made' h hadds h' hadds' es es' e hmade hmade'
    obtain ⟨_, _, hadds1, -, hplace⟩ := stages.created_of_reaches hobeys h
    obtain ⟨rfl, rfl⟩ := hadds.unique hadds1
    obtain ⟨_, _, hadds1', -, hplace'⟩ := stages.created_of_reaches hobeys h'
    obtain ⟨rfl, rfl⟩ := hadds'.unique hadds1'
    have hlaid := Layout.laid_ofStore (Store.wellFormed_ofSpec hspec)
    have hsort : made.sort ∈ (Layout.ofStore store).1.sorts := by
      rw [hadds.sort]
      exact hlaid.mem_sorts.mpr (hlaid.classSort_lt hadds.lt)
    obtain ⟨hlength, hes⟩ := stages.makes_apart hobeys hplace hplace' hsort hmade hmade'
    rcases created_apart h rfl ⟨_, _, rfl⟩ ⟨_, _, rfl⟩ h' with ⟨hs, hrest⟩ | hlt | hlt
    · exact ⟨hs, hrest, hes⟩
    · omega
    · omega

/-- A table that passes is a model of the theory of a preservation goal. -/
theorem models_of_checks (hspec : ofSpec spec = .ok store) {action : Action}
    {assumed checked : List FormulaExpr} {name : String} {theory : Theory} {N : FiniteModel}
    (htheory : preservationTheory store action assumed checked name = .ok theory) (hchecks : N.checks theory = true) :
    N.toStructure.Models theory :=
  FiniteModel.models_of_checks (fun F hF => wellFormed_preservation (wellFormed_ofSpec hspec) (.inr fun _ _ => rfl)
    htheory F (mem_append_left _ hF)) hchecks

namespace Hotel

/-- A finite structure for the hotel: there is one stay for each guest and room, and a table says what the predicates hold of. -/
def model (guests rooms : Nat) (table : List (List (List Nat))) : FiniteModel where
  extra s := [guests - 1, rooms - 1, guests * rooms - 1].getD s.index 0
  result f := ⟨f.index⟩
  func f args := if f.index = 0 then args.headD 0 / rooms else args.headD 0 % rooms
  pred p args := (table.getD p.index []).contains args

/-- A regular guest is hired as host, and every arriving guest gets a new room. -/
def welcome : Action where
  name := "welcome"
  params := [⟨"arriving", "Guest", .any⟩]
  block := [
    .create "Regular" (some "host"),
    .forEach "g" (.var "arriving") [
      .create "Room" (some "r"),
      .createTuple (.iterator "g") "stays" (.var "r")] .flat]

/-- Two guests arrive at a hotel without rooms. -/
def arrival : FiniteModel := model 3 2 [
  [[0], [1], [2]], [[2]], [[0], [1]],
  [[0], [1]], [], [], [[0], [1]],
  [[2]], [[0], [1], [2]], [[0], [1]],
  [[0, 0], [1, 1]], [[0, 0], [1, 1]], [[0, 0], [1, 3]], [[0], [1]], [[0], [3]],
  [[0], [1], [2]], [[0], [1]], [[0], [3]]]

end Hotel

/-- When two guests arrive, there is one host, and all new objects are different. -/
theorem created_objects_unique_welcome :
    Store.ofSpec Hotel.spec = .ok Hotel.store ∧
    ∃ theory, preservationTheory Hotel.store Hotel.welcome [] [] "welcome" = .ok theory ∧
      Hotel.arrival.toStructure.Models theory ∧
      ∃ entered, UniqueCreations Hotel.store Hotel.welcome entered Hotel.arrival.toStructure ∧
        ∃ c made, AddsCreation (Layout.ofStore Hotel.store).1 entered "Regular" c made ∧
          ∃! e, made.Makes Hotel.arrival.toStructure [] e := by
  have hspec := Hotel.ofSpec_spec
  obtain ⟨theory, htheory, hchecks⟩ := exists_ok_of_any
    (x := preservationTheory Hotel.store Hotel.welcome [] [] "welcome") (p := fun t => Hotel.arrival.checks t) (by decide +kernel)
  have hmodels := models_of_checks hspec htheory hchecks
  obtain ⟨entered, hparams, hunique⟩ :=
    created_objects_unique Hotel.spec Hotel.store hspec Hotel.welcome [] [] "welcome" theory htheory _ hmodels
  obtain ⟨c, made, hadds, hexact⟩ := hunique.exact entered "Regular" (some "host") _ (.here _ _)
  have hgrows := (Keeps.forM (fun p => grows_param p) Hotel.welcome.params).of_ok hparams
  exact ⟨hspec, theory, htheory, hmodels, entered, hunique, c, made, hadds, hexact.one [] ((Layout.runs_of_grows hgrows []).mpr rfl)⟩

end StoreCheck
