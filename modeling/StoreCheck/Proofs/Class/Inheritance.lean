import StoreCheck.Proofs.Class.Search

/-!
# Inheritance: ancestors and cycles

`ClassDecl.Inherits` reads the parent edges off the declarations; where names are distinct, they are the edges that the search
follows (`edge_iff`). So a graph is built exactly if there is no cycle, and it has the ancestors that the declarations say.
-/

namespace StoreCheck

open List Relation ClassDecl

variable {g : ClassGraph} {d : ClassId}

/-- The first class names the second one among its parents. -/
def ClassDecl.Inherits (decls : List ClassDecl) (c p : ClassId) : Prop :=
  ∃ d q, decls[c.index]? = some d ∧ decls[p.index]? = some q ∧ q.name ∈ d.parents

theorem firstRepeat?_none : firstRepeat? seen names = none ↔ names.Nodup ∧ ∀ name ∈ names, name ∉ seen := by
  induction names generalizing seen with
  | nil => simp [firstRepeat?]
  | cons name rest ih =>
    rw [firstRepeat?, nodup_cons]
    split
    · rename_i hseen
      simp [hseen]
    · rename_i hseen
      rw [ih]
      constructor
      · rintro ⟨hnodup, hrest⟩
        exact ⟨⟨fun hmem => hrest name hmem (by simp), hnodup⟩, by simpa [hseen] using fun n hn hns => hrest n hn (by simp [hns])⟩
      · rintro ⟨⟨hname, hnodup⟩, hrest⟩
        refine ⟨hnodup, fun n hn hmem => ?_⟩
        rcases mem_cons.1 hmem with rfl | hmem
        · exact hname hn
        · exact hrest n (by simp [hn]) hmem

namespace ClassGraph

variable {c : ClassId} {names : List String} {name : String}

/-! ## Resolving parents -/

theorem resolveIn_ok : resolveIn names name = .ok c ↔ names.idxOf? name = some c.index := by
  unfold resolveIn lookupIn
  cases names.idxOf? name with
  | none => simp
  | some i =>
    constructor
    · intro h
      cases h
      rfl
    · intro h
      cases h
      rfl

/-- A name is resolved to a declared class. -/
theorem resolveIn_lt (h : resolveIn names name = .ok c) : c.index < names.length :=
  (idxOf?_eq_some_iff.1 (resolveIn_ok.1 h)).1

/-- Where names are distinct, a name stands for the class declared with it. -/
theorem resolveIn_iff (hnames : names.Nodup) : resolveIn names name = .ok c ↔ names[c.index]? = some name := by
  rw [resolveIn_ok, idxOf?_eq_some_iff]
  constructor
  · rintro ⟨hlt, heq, -⟩
    rw [getElem?_eq_getElem hlt, heq]
  · intro h
    obtain ⟨hlt, rfl⟩ := List.getElem?_eq_some_iff.1 h
    refine ⟨hlt, rfl, fun j hj heq => ?_⟩
    exact absurd (hnames.getElem_inj_iff.1 heq) (Nat.ne_of_lt hj)

variable {decls : List ClassDecl} {parents : List (List ClassId)}

theorem mem_resolveParents {parents : List String} (h : resolveParents names parents = .ok cs) :
    c ∈ cs ↔ ∃ name ∈ parents, resolveIn names name = .ok c := by
  obtain ⟨ds, hds, h⟩ := exceptBind_ok.1 h
  cases h
  rw [mem_eraseDups]
  have hall := exceptMapM_ok.1 hds
  constructor
  · intro hc
    obtain ⟨i, hi, rfl⟩ := mem_iff_getElem.1 hc
    exact ⟨_, getElem_mem _, hall.get (hall.length_eq ▸ hi) hi⟩
  · rintro ⟨name, hname, hc⟩
    obtain ⟨i, hi, rfl⟩ := mem_iff_getElem.1 hname
    have hget := hall.get hi (hall.length_eq ▸ hi)
    have heq := Except.ok.inj (hc.symm.trans hget)
    rw [heq]
    exact getElem_mem _

/-- The resolved parents are those that the declarations name. -/
theorem edge_iff (hnames : (decls.map (·.name)).Nodup)
    (h : decls.mapM (fun d => resolveParents (decls.map (·.name)) d.parents) = .ok parents) {p : ClassId} :
    Edge parents c p ↔ Inherits decls c p := by
  have hall := exceptMapM_ok.1 h
  rcases Nat.lt_or_ge c.index decls.length with hlt | hge
  · have hlt' : c.index < parents.length := hall.length_eq ▸ hlt
    have hresolve := mem_resolveParents (hall.get hlt hlt') (c := p)
    have hparents : parentsIn parents c = parents[c.index] := by simp [parentsIn, hlt']
    rw [Edge, hparents]
    refine hresolve.trans ?_
    simp only [resolveIn_iff hnames, getElem?_map, Option.map_eq_some_iff, Inherits, getElem?_eq_getElem hlt]
    constructor
    · rintro ⟨name, hname, q, hq, rfl⟩
      exact ⟨_, q, rfl, hq, hname⟩
    · rintro ⟨d, q, hd, hq, hname⟩
      cases hd
      exact ⟨q.name, hname, q, hq, rfl⟩
  · constructor
    · intro hedge
      exact absurd hedge.lt (by rw [← hall.length_eq]; omega)
    · rintro ⟨d, -, hd, -⟩
      rw [getElem?_eq_none hge] at hd
      cases hd

theorem edge_eq (hnames : (decls.map (·.name)).Nodup)
    (h : decls.mapM (fun d => resolveParents (decls.map (·.name)) d.parents) = .ok parents) :
    Edge parents = Inherits decls :=
  funext fun _ => funext fun _ => propext (edge_iff hnames h)

theorem edge_lt (h : decls.mapM (fun d => resolveParents (decls.map (·.name)) d.parents) = .ok parents) (c p : ClassId)
    (hedge : Edge parents c p) : p.index < parents.length := by
  have hall := exceptMapM_ok.1 h
  have hlt := hedge.lt
  have hlt' : c.index < decls.length := hall.length_eq ▸ hlt
  have hp : p ∈ parents[c.index] := by simpa [Edge, parentsIn, hlt] using hedge
  obtain ⟨name, -, hresolved⟩ := (mem_resolveParents (hall.get hlt' hlt)).1 hp
  rw [← hall.length_eq]
  simpa using resolveIn_lt hresolved

/-! ## The graph of the declarations -/

/-- The graph of the declarations, once their parents are resolved and the ancestors found. -/
def ofParents (names : List String) (parents ancestors : List (List ClassId)) : ClassGraph where
  names
  parents
  ancestors
  components := (componentsOf parents.length parents).1
  componentCount := (componentsOf parents.length parents).2

/-- Declarations whose names are distinct and whose parents are resolved give a graph if the search succeeds. -/
theorem ofDecls_of_search {found : Search} (hnames : (decls.map (·.name)).Nodup)
    (h : decls.mapM (fun d => resolveParents (decls.map (·.name)) d.parents) = .ok parents)
    (hsearch : search (parents.length + 1) parents = .ok found) :
    ofDecls decls = .ok (ofParents (decls.map (·.name)) parents found.ancestors) := by
  have hnone : firstRepeat? [] (decls.map (·.name)) = none := firstRepeat?_none.2 ⟨hnames, by simp⟩
  simp only [ofDecls, hnone, h]
  simp [hsearch, bind, Except.bind, pure, Except.pure, ofParents]

/-- They are refused for the class that the search meets on a cycle. -/
theorem ofDecls_of_cycle (hnames : (decls.map (·.name)).Nodup)
    (h : decls.mapM (fun d => resolveParents (decls.map (·.name)) d.parents) = .ok parents)
    (hsearch : search (parents.length + 1) parents = .error c) :
    ofDecls decls = .error (.cyclicInheritance ((decls.map (·.name)).getD c.index "")) := by
  have hnone : firstRepeat? [] (decls.map (·.name)) = none := firstRepeat?_none.2 ⟨hnames, by simp⟩
  simp only [ofDecls, hnone, h]
  simp [hsearch, bind, Except.bind, throw, throwThe, MonadExceptOf.throw]

/-- What a graph was built from. -/
theorem ofDecls_ok (h : ofDecls decls = .ok g) : (decls.map (·.name)).Nodup ∧
    decls.mapM (fun d => resolveParents (decls.map (·.name)) d.parents) = .ok g.parents ∧
    ∃ found, search (g.parents.length + 1) g.parents = .ok found ∧
      g = ofParents (decls.map (·.name)) g.parents found.ancestors := by
  have hnames : (decls.map (·.name)).Nodup := by
    cases hrepeat : firstRepeat? [] (decls.map (·.name)) with
    | none => exact (firstRepeat?_none.1 hrepeat).1
    | some name =>
      rw [ofDecls, hrepeat] at h
      cases h
  cases hparents : decls.mapM (fun d => resolveParents (decls.map (·.name)) d.parents) with
  | error e =>
    have hnone : firstRepeat? [] (decls.map (·.name)) = none := firstRepeat?_none.2 ⟨hnames, by simp⟩
    simp only [ofDecls, hnone, hparents] at h
    cases h
  | ok parents =>
    cases hsearch : search (parents.length + 1) parents with
    | error c =>
      rw [ofDecls_of_cycle hnames hparents hsearch] at h
      cases h
    | ok found =>
      rw [ofDecls_of_search hnames hparents hsearch] at h
      cases h
      exact ⟨hnames, rfl, found, hsearch, rfl⟩

/-- The ancestors of a class are the classes that the declared parents lead to. -/
theorem mem_ancestorsOf (h : ofDecls decls = .ok g) : d ∈ g.ancestorsOf c ↔ TransGen (Inherits decls) c d := by
  obtain ⟨hnames, hparents, found, hsearch, hg⟩ := ofDecls_ok h
  have hfound : g.ancestorsOf c = found.ancestorsOf c := by
    rw [hg]
    rfl
  rw [hfound, Search.mem_ancestorsOf_search (edge_lt hparents) (Nat.lt_succ_self _) hsearch, edge_eq hnames hparents]

/-- The ancestors of a class are listed in the order of the classes. -/
theorem ancestorsOf_sublist (h : ofDecls decls = .ok g) (c : ClassId) : (g.ancestorsOf c).Sublist g.ids := by
  obtain ⟨-, hparents, found, hsearch, hg⟩ := ofDecls_ok h
  have hsound := ((Search.search_spec (edge_lt hparents) (Nat.lt_succ_self _)).1 found hsearch).1
  have hids : g.ids = idsUpTo g.parents.length := by
    rw [ids, size, hg]
    simp [ofParents, (exceptMapM_ok.1 hparents).length_eq]
  have hfound : g.ancestorsOf c = found.ancestorsOf c := by
    rw [hg]
    rfl
  rw [hids, hfound]
  exact hsound.ordered c

/-- The descendants of a class are the classes from which the declared parents lead to it. -/
theorem mem_descendantsOf (h : ofDecls decls = .ok g) : c ∈ g.descendantsOf d ↔ TransGen (Inherits decls) c d := by
  rw [descendantsOf, mem_filter, decide_eq_true_iff, mem_ancestorsOf h, and_iff_right_iff_imp]
  intro hcd
  obtain ⟨-, ⟨e, -, he, -⟩, -⟩ := TransGen.head'_iff.1 hcd
  obtain ⟨-, -, found, -, hg⟩ := ofDecls_ok h
  rw [hg]
  exact mem_idsUpTo.2 (by simpa [size, ofParents] using (List.getElem?_eq_some_iff.1 he).1)

/-- A graph has no cycle. -/
theorem not_mem_ancestorsOf_self (h : ofDecls decls = .ok g) (c : ClassId) : c ∉ g.ancestorsOf c := by
  obtain ⟨hnames, hparents, found, hsearch, -⟩ := ofDecls_ok h
  rw [mem_ancestorsOf h, ← edge_eq hnames hparents]
  exact (Search.search_ok_iff (edge_lt hparents) (Nat.lt_succ_self _)).1 ⟨found, hsearch⟩ c

/-- Declared parents can be resolved. -/
theorem exists_resolved (hknown : ∀ d ∈ decls, ∀ p ∈ d.parents, p ∈ decls.map (·.name)) :
    ∃ parents, decls.mapM (fun d => resolveParents (decls.map (·.name)) d.parents) = .ok parents := by
  refine exists_exceptMapM_ok fun d hd => ?_
  obtain ⟨cs, hcs⟩ := exists_exceptMapM_ok (f := resolveIn (decls.map (·.name))) (l := d.parents) fun p hp => by
    obtain ⟨i, hi⟩ := Option.isSome_iff_exists.1 (isSome_idxOf?.2 (hknown d hd p hp))
    exact ⟨⟨i⟩, resolveIn_ok.2 hi⟩
  exact ⟨_, exceptBind_ok.2 ⟨cs, hcs, rfl⟩⟩

end ClassGraph

/-- For all class declarations with distinct names and declared parents: there is a graph exactly if no class inherits from
itself, directly or through others. Its ancestors are the classes that parent edges lead to, in one step or more, and its
descendants are their converse. Where there is no graph, the error names a class that lies on a cycle. The search ends on every
input: no more classes are on the way than there are, so that a larger depth changes nothing. -/
theorem graph_or_cycle (decls : List ClassDecl) (hnames : (decls.map (·.name)).Nodup)
    (hknown : ∀ d ∈ decls, ∀ p ∈ d.parents, p ∈ decls.map (·.name)) :
    ((∃ g, ClassGraph.ofDecls decls = .ok g) ↔ ∀ c, ¬ TransGen (ClassDecl.Inherits decls) c c) ∧
      (∀ g, ClassGraph.ofDecls decls = .ok g → ∀ c d,
        (d ∈ g.ancestorsOf c ↔ TransGen (ClassDecl.Inherits decls) c d) ∧
          (c ∈ g.descendantsOf d ↔ TransGen (ClassDecl.Inherits decls) c d)) ∧
      (∀ e, ClassGraph.ofDecls decls = .error e → ∃ (c : ClassId) (d : ClassDecl), decls[c.index]? = some d ∧
        TransGen (ClassDecl.Inherits decls) c c ∧ e = .cyclicInheritance d.name) ∧
      ∃ parents, decls.mapM (fun d => ClassGraph.resolveParents (decls.map (·.name)) d.parents) = .ok parents ∧
        ∀ depth, decls.length < depth → ClassGraph.search depth parents = ClassGraph.search (decls.length + 1) parents := by
  obtain ⟨parents, hparents⟩ := ClassGraph.exists_resolved hknown
  have hlength : parents.length = decls.length := (exceptMapM_ok.mp hparents).length_eq.symm
  have hiff := ClassGraph.Search.search_ok_iff (ClassGraph.edge_lt hparents) (Nat.lt_succ_self _)
  have hcycle := (ClassGraph.Search.search_spec (ClassGraph.edge_lt hparents) (Nat.lt_succ_self _)).2
  rw [ClassGraph.edge_eq hnames hparents] at hiff hcycle
  refine ⟨?_, fun g hg c d => ⟨ClassGraph.mem_ancestorsOf hg, ClassGraph.mem_descendantsOf hg⟩, fun e he => ?_,
    parents, hparents, fun depth hdepth => ?_⟩
  · rw [← hiff]
    constructor
    · rintro ⟨g, hg⟩
      obtain ⟨-, hparents', found, hsearch, -⟩ := ClassGraph.ofDecls_ok hg
      cases hparents.symm.trans hparents'
      exact ⟨found, hsearch⟩
    · rintro ⟨found, hsearch⟩
      exact ⟨_, ClassGraph.ofDecls_of_search hnames hparents hsearch⟩
  · cases hsearch : ClassGraph.search (parents.length + 1) parents with
    | ok found =>
      rw [ClassGraph.ofDecls_of_search hnames hparents hsearch] at he
      cases he
    | error c =>
      rw [ClassGraph.ofDecls_of_cycle hnames hparents hsearch] at he
      cases he
      obtain ⟨-, ⟨d, -, hd, -⟩, -⟩ := TransGen.head'_iff.mp (hcycle c hsearch)
      exact ⟨c, d, hd, hcycle c hsearch, by simp [hd]⟩
  · rw [← hlength] at hdepth ⊢
    exact ClassGraph.Search.search_depth (ClassGraph.edge_lt hparents) hdepth

namespace Kennel

/-- Dogs and cats are animals and pets, and puppies are dogs. -/
def classes : List ClassDecl :=
  [⟨"Animal", []⟩, ⟨"Pet", []⟩, ⟨"Dog", ["Animal", "Pet"]⟩, ⟨"Cat", ["Animal", "Pet"]⟩, ⟨"Puppy", ["Dog"]⟩, ⟨"Rock", []⟩]

/-- A puppy is an animal twice over: through dogs, and because every animal is a puppy. -/
def knot : List ClassDecl := [⟨"Toy", ["Dog"]⟩, ⟨"Animal", ["Puppy"]⟩, ⟨"Dog", ["Animal"]⟩, ⟨"Puppy", ["Dog", "Animal"]⟩]

end Kennel

/-- The knot is refused: some class of it lies on a cycle. -/
theorem graph_or_cycle_knot : (Kennel.knot.map (·.name)).Nodup ∧
    (∀ d ∈ Kennel.knot, ∀ p ∈ d.parents, p ∈ Kennel.knot.map (·.name)) ∧
    ClassGraph.ofDecls Kennel.knot = .error (.cyclicInheritance "Dog") ∧
    ∃ (c : ClassId) (d : ClassDecl), Kennel.knot[c.index]? = some d ∧ TransGen (ClassDecl.Inherits Kennel.knot) c c ∧
      TypeError.cyclicInheritance "Dog" = .cyclicInheritance d.name := by
  have hnames : (Kennel.knot.map (·.name)).Nodup := by decide
  have hknown : ∀ d ∈ Kennel.knot, ∀ p ∈ d.parents, p ∈ Kennel.knot.map (·.name) := by decide
  have hrefused : ClassGraph.ofDecls Kennel.knot = .error (.cyclicInheritance "Dog") := eq_error_of_errorOf? (by decide +kernel)
  exact ⟨hnames, hknown, hrefused, (graph_or_cycle Kennel.knot hnames hknown).2.2.1 _ hrefused⟩

end StoreCheck
