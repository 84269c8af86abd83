import Mathlib.Data.List.Nodup
import Mathlib.Data.List.Perm.Subperm
import StoreCheck.Logic.Formula

/-!
# Every symbol has a name of its own

Names are small letters, digits and underscores and start with a letter, so they differ from variables, which start with a
capital. The name that is picked for a hint is free: the candidates for a hint are different from each other, and there is one
more of them than there are names that can be taken. In a table that is built symbol by symbol no two symbols share a name
(`Symbols.Built.named`), whatever their kinds, and none has a reserved one. Along a history of requests, each name is found among
finitely many candidates and differs from all that were given before (`requested_names_apart`).
-/

namespace StoreCheck

open List

variable {name : String} {m n : Nat}

/-! ## Names -/

/-- A small letter, a digit or an underscore. -/
def isNameChar (c : Char) : Bool := isSmallLetter c || c.isDigit || c == '_'

/-- A small letter followed by small letters, digits and underscores. -/
def isName (name : String) : Bool :=
  match name.toList with
  | [] => false
  | c :: rest => isSmallLetter c && rest.all isNameChar

theorem isSmallLetter_iff (c : Char) : isSmallLetter c = true ↔ 97 ≤ c.toNat ∧ c.toNat ≤ 122 := by
  simp only [isSmallLetter, Char.le_def, Bool.and_eq_true, decide_eq_true_eq, UInt32.le_iff_toNat_le]
  rfl

variable {c : Char}

theorem isSmallLetter_toLower (h : 65 ≤ c.toNat ∧ c.toNat ≤ 90) : isSmallLetter c.toLower = true := by
  have hupper : c.val ≥ 'A'.val ∧ c.val ≤ 'Z'.val := by
    exact h
  have hlower : c.toLower.toNat = c.toNat + 32 := by
    unfold Char.toLower
    rw [dif_pos hupper]
    exact Nat.mod_eq_of_lt (by change c.toNat + 32 < _; omega)
  rw [isSmallLetter_iff, hlower]
  omega

theorem isUpper_iff (c : Char) : c.isUpper = true ↔ 65 ≤ c.toNat ∧ c.toNat ≤ 90 := by
  change decide (c.val ≥ 'A'.val ∧ c.val ≤ 'Z'.val) = true ↔ _
  simp only [ge_iff_le, decide_eq_true_eq, UInt32.le_iff_toNat_le]
  rfl

theorem isLower_iff (c : Char) : c.isLower = true ↔ 97 ≤ c.toNat ∧ c.toNat ≤ 122 := by
  change (decide (c.val ≥ 'a'.val) && decide (c.val ≤ 'z'.val)) = true ↔ _
  simp only [ge_iff_le, Bool.and_eq_true, decide_eq_true_eq, UInt32.le_iff_toNat_le]
  rfl

theorem isNameChar_nameChar (c : Char) : isNameChar (nameChar c) = true := by
  unfold nameChar
  split
  · rename_i h
    change ((c.isUpper || c.isLower) || c.isDigit) = true at h
    simp only [Bool.or_eq_true, isUpper_iff, isLower_iff] at h
    by_cases hupper : 65 ≤ c.toNat ∧ c.toNat ≤ 90
    · simp [isNameChar, isSmallLetter_toLower hupper]
    · have hsame : c.toLower = c := by
        refine dif_neg fun hval => hupper ?_
        exact hval
      rw [hsame]
      rcases h with (h | h) | h
      · exact absurd h hupper
      · simp [isNameChar, (isSmallLetter_iff c).2 h]
      · simp [isNameChar, h]
  · decide

theorem isNameChar_of_isSmallLetter (h : isSmallLetter c = true) : isNameChar c = true := by simp [isNameChar, h]

theorem isName_ofList (hc : isSmallLetter c = true) (hrest : ∀ d ∈ rest, isNameChar d = true) :
    isName (String.ofList (c :: rest)) = true := by
  simp only [isName, String.toList_ofList, hc, Bool.true_and, all_eq_true]
  exact hrest

theorem isName_nameOfHint (hint : String) : isName (nameOfHint hint) = true := by
  have hchars : ∀ d ∈ hint.toList.map nameChar, isNameChar d = true := by
    intro d hd
    obtain ⟨c, -, rfl⟩ := mem_map.1 hd
    exact isNameChar_nameChar c
  unfold nameOfHint
  revert hchars
  generalize hint.toList.map nameChar = cs
  intro hchars
  cases cs with
  | nil => decide
  | cons c rest =>
    dsimp only
    split
    · rename_i hc
      exact isName_ofList hc fun d hd => hchars d (mem_cons_of_mem c hd)
    · exact isName_ofList (by decide) hchars

/-- The characters of a name. -/
theorem isNameChar_of_isName (h : isName name = true) : ∀ c ∈ name.toList, isNameChar c = true := by
  unfold isName at h
  cases hname : name.toList with
  | nil => simp
  | cons c rest =>
    simp only [hname, Bool.and_eq_true, all_eq_true] at h
    exact forall_mem_cons.2 ⟨isNameChar_of_isSmallLetter h.1, h.2⟩

/-- A name is not a variable, which starts with a capital. -/
theorem ne_nameOf_of_isName (h : isName name = true) (n : Nat) : name ≠ VarGen.nameOf n := by
  rintro rfl
  have hlist : (VarGen.nameOf n).toList = 'V' :: (toString n).toList := by simp [VarGen.nameOf]
  simp only [isName, hlist, Bool.and_eq_true] at h
  exact absurd h.1 (by decide)

theorem toString_nat_injective (h : toString m = toString n) : m = n := by
  have hdigits : Nat.toDigits 10 m = Nat.toDigits 10 n := by simpa using congrArg String.toList h
  have hvalue := congrArg (fun l => Nat.ofDigitChars 10 l 0) hdigits
  simpa using hvalue

theorem isNameChar_toString_nat : ∀ c ∈ (toString n).toList, isNameChar c = true := by
  intro c hc
  have hdigit : c.isDigit = true := Nat.isDigit_of_mem_toDigits (b := 10) (n := n) (by decide) (by decide) (by simpa using hc)
  simp [isNameChar, hdigit]

/-! ## The name for a hint -/

namespace NameTable

theorem isName_candidate {base : String} (h : isName base = true) : ∀ n, isName (candidate base n) = true
  | 0 => h
  | n + 1 => by
    unfold isName at h
    cases hbase : base.toList with
    | nil => simp [hbase] at h
    | cons c rest =>
      simp only [hbase, Bool.and_eq_true, all_eq_true] at h
      have heq : candidate base (n + 1) = String.ofList (c :: (rest ++ '_' :: (toString (n + 2)).toList)) := by
        apply String.toList_injective
        simp [candidate, hbase]
      rw [heq]
      refine isName_ofList h.1 fun d hd => ?_
      rcases mem_append.1 hd with hd | hd
      · exact h.2 d hd
      · rcases mem_cons.1 hd with rfl | hd
        · decide
        · exact isNameChar_toString_nat d hd

theorem candidate_injective (base : String) {m n : Nat} (h : candidate base m = candidate base n) : m = n := by
  have hlong (k : Nat) : base ≠ candidate base (k + 1) := by
    intro heq
    have hlength := congrArg (fun name => name.toList.length) heq
    simp [candidate] at hlength
  cases m with
  | zero =>
    cases n with
    | zero => rfl
    | succ n => exact (hlong n h).elim
  | succ m =>
    cases n with
    | zero => exact (hlong m h.symm).elim
    | succ n =>
      have hlist : toString (m + 2) = toString (n + 2) := by
        apply String.toList_injective
        have h' := congrArg String.toList h
        simpa [candidate] using h'
      have := toString_nat_injective hlist
      omega

/-- The search passes over taken candidates only, and ends at a free one or at its last one. -/
theorem firstFree_cases (t : NameTable) (base : String) : ∀ fuel i, ∃ n, t.firstFree base fuel i = candidate base n ∧
    (∀ j, i ≤ j → j < n → t.isTaken (candidate base j) = true) ∧ (t.isTaken (candidate base n) = false ∨ n = i + fuel)
  | 0, i => ⟨i, rfl, fun j hj hlt => by omega, .inr rfl⟩
  | fuel + 1, i => by
    rw [firstFree]
    split
    · rename_i htaken
      obtain ⟨n, hn, hall, hend⟩ := firstFree_cases t base fuel (i + 1)
      refine ⟨n, hn, fun j hj hlt => ?_, hend.imp_right fun hlast => by omega⟩
      by_cases hji : j = i
      · rw [hji]
        exact htaken
      · exact hall j (by omega) hlt
    · rename_i hfree
      exact ⟨i, rfl, fun j hj hlt => by omega, .inl (by simpa using hfree)⟩

/-- The name that is picked is the first free candidate: there are more candidates than taken names. -/
theorem pick_first (t : NameTable) (hint : String) : ∃ n, t.pick hint = candidate (nameOfHint hint) n ∧
    t.isTaken (candidate (nameOfHint hint) n) = false ∧ ∀ j < n, t.isTaken (candidate (nameOfHint hint) j) = true := by
  obtain ⟨n, hn, hall, hend⟩ := firstFree_cases t (nameOfHint hint) (t.used.length + reservedWords.length) 0
  refine ⟨n, hn, ?_, fun j => hall j (Nat.zero_le j)⟩
  rcases hend with hfree | hlast
  · exact hfree
  · by_contra htaken
    -- with the last one, more candidates would be taken than there are names
    have hsubset : (List.range (n + 1)).map (candidate (nameOfHint hint)) ⊆ t.used ++ reservedWords := by
      intro name hname
      obtain ⟨j, hj, rfl⟩ := mem_map.1 hname
      have hj' : t.isTaken (candidate (nameOfHint hint) j) = true := by
        rcases Nat.lt_succ_iff_lt_or_eq.1 (mem_range.1 hj) with hlt | rfl
        · exact hall j (Nat.zero_le j) hlt
        · simpa using htaken
      simpa [isTaken] using hj'
    have hnodup : ((List.range (n + 1)).map (candidate (nameOfHint hint))).Nodup :=
      nodup_range.map fun i j hij => candidate_injective _ hij
    have hlength := hnodup.length_le_of_subset hsubset
    simp only [length_map, length_range, length_append] at hlength
    omega

theorem pick_free (t : NameTable) (hint : String) : t.pick hint ∉ t.used ∧ t.pick hint ∉ reservedWords := by
  obtain ⟨n, hn, hfree, -⟩ := t.pick_first hint
  rw [← hn] at hfree
  simpa [isTaken] using hfree

theorem isName_pick (t : NameTable) (hint : String) : isName (t.pick hint) = true := by
  obtain ⟨n, hn, -⟩ := t.pick_first hint
  rw [hn]
  exact isName_candidate (isName_nameOfHint hint) n

end NameTable

/-! ## Symbol tables -/

namespace Symbols

/-- The table was built symbol by symbol. -/
inductive Built : Symbols → Prop where
  | empty : Built .empty
  | addSort {s : Symbols} (h : Built s) (hint : String) : Built (s.addSort hint).2
  | addPredicate {s : Symbols} (h : Built s) (hint : String) (args : List SortId) : Built (s.addPredicate hint args).2
  | addFunction {s : Symbols} (h : Built s) (hint : String) (args : List SortId) (result : SortId) :
      Built (s.addFunction hint args result).2

/-- The names of all symbols. -/
def allNames (s : Symbols) : List String := s.sorts ++ (s.predicates.map (·.name) ++ s.functions.map (·.name))

/-- Every symbol has a name of its own, which is not reserved. -/
structure Named (s : Symbols) : Prop where
  nodup : s.allNames.Nodup
  isName : ∀ name ∈ s.allNames, isName name = true
  notReserved : ∀ name ∈ s.allNames, name ∉ reservedWords
  used : ∀ name ∈ s.allNames, name ∈ s.names.used

theorem Named.add {s t : Symbols} (h : s.Named) (hint : String) (hperm : t.allNames.Perm (s.names.pick hint :: s.allNames))
    (hused : t.names.used = s.names.pick hint :: s.names.used) : t.Named := by
  have hfree := s.names.pick_free hint
  refine ⟨hperm.nodup_iff.2 (nodup_cons.2 ⟨fun hmem => hfree.1 (h.used _ hmem), h.nodup⟩), ?_, ?_, ?_⟩
  · intro name hname
    rcases mem_cons.1 (hperm.mem_iff.1 hname) with rfl | hname
    · exact s.names.isName_pick hint
    · exact h.isName name hname
  · intro name hname
    rcases mem_cons.1 (hperm.mem_iff.1 hname) with rfl | hname
    · exact hfree.2
    · exact h.notReserved name hname
  · intro name hname
    rw [hused]
    rcases mem_cons.1 (hperm.mem_iff.1 hname) with rfl | hname
    · exact mem_cons_self
    · exact mem_cons_of_mem _ (h.used name hname)

/-- In a table that was built symbol by symbol every symbol has a name of its own. -/
theorem Built.named {s : Symbols} (h : s.Built) : s.Named := by
  induction h with
  | empty =>
    have hnone : Symbols.empty.allNames = [] := rfl
    refine ⟨?_, ?_, ?_, ?_⟩ <;> simp [hnone]
  | @addSort s _ hint ih =>
    refine ih.add hint ?_ rfl
    show ((s.sorts ++ [s.names.pick hint]) ++ _).Perm _
    rw [append_assoc]
    exact perm_middle
  | @addPredicate s _ hint args ih =>
    refine ih.add hint ?_ rfl
    show (s.sorts ++ (List.map PredSymbol.name (s.predicates ++ [⟨s.names.pick hint, args⟩]) ++ s.functions.map (·.name))).Perm _
    rw [map_append, append_assoc, ← append_assoc]
    refine perm_middle.trans (.of_eq ?_)
    simp [allNames]
  | @addFunction s _ hint args result ih =>
    refine ih.add hint ?_ rfl
    show (s.sorts ++
      (s.predicates.map (·.name) ++ List.map FuncSymbol.name (s.functions ++ [⟨s.names.pick hint, args, result⟩]))).Perm _
    rw [map_append, ← append_assoc, ← append_assoc]
    refine (perm_append_singleton _ _).trans (.of_eq ?_)
    simp [allNames]

variable {s : Symbols}

theorem sortName_eq {id : SortId} (h : id.index < s.sorts.length) : s.sortName id = s.sorts[id.index] := by
  simp [sortName, getElem?_eq_getElem h]

theorem sortName_mem_allNames {id : SortId} (h : id.index < s.sorts.length) : s.sortName id ∈ s.allNames := by
  rw [sortName_eq h]
  exact mem_append_left _ (getElem_mem h)

variable {p : PredId} {f : FuncId}

theorem predName_eq (h : p.index < (s.predicates.map (·.name)).length) :
    s.predName p = (s.predicates.map (·.name))[p.index] := by
  have h' : p.index < s.predicates.length := by simpa using h
  simp [predName, getElem?_eq_getElem h']

theorem funcName_eq (h : f.index < (s.functions.map (·.name)).length) : s.funcName f = (s.functions.map (·.name))[f.index] := by
  have h' : f.index < s.functions.length := by simpa using h
  simp [funcName, getElem?_eq_getElem h']

theorem mem_predName (h : p.index < s.predicates.length) : s.predName p ∈ s.predicates.map (·.name) := by
  rw [predName_eq (by simpa using h)]
  exact getElem_mem _

theorem mem_funcName (h : f.index < s.functions.length) : s.funcName f ∈ s.functions.map (·.name) := by
  rw [funcName_eq (by simpa using h)]
  exact getElem_mem _

theorem predName_mem_allNames (h : p.index < s.predicates.length) : s.predName p ∈ s.allNames :=
  mem_append_right _ (mem_append_left _ (mem_predName h))

theorem funcName_mem_allNames (h : f.index < s.functions.length) : s.funcName f ∈ s.allNames :=
  mem_append_right _ (mem_append_right _ (mem_funcName h))

theorem Named.sortName_injective (h : s.Named) {a b : SortId} (ha : a.index < s.sorts.length) (hb : b.index < s.sorts.length)
    (heq : s.sortName a = s.sortName b) : a = b := by
  have hnodup : s.sorts.Nodup := (nodup_append.1 h.nodup).1
  rw [sortName_eq ha, sortName_eq hb] at heq
  cases a
  cases b
  exact congrArg SortId.mk (hnodup.getElem_inj_iff.1 heq)

theorem Named.predName_injective (h : s.Named) {q : PredId} (hp : p.index < s.predicates.length)
    (hq : q.index < s.predicates.length) (heq : s.predName p = s.predName q) : p = q := by
  have hnodup := (nodup_append.1 (nodup_append.1 h.nodup).2.1).1
  rw [predName_eq (by simpa using hp), predName_eq (by simpa using hq)] at heq
  cases p
  cases q
  exact congrArg PredId.mk (hnodup.getElem_inj_iff.1 heq)

theorem Named.funcName_injective (h : s.Named) {g : FuncId} (hf : f.index < s.functions.length)
    (hg : g.index < s.functions.length) (heq : s.funcName f = s.funcName g) : f = g := by
  have hnodup := (nodup_append.1 (nodup_append.1 h.nodup).2.1).2.1
  rw [funcName_eq (by simpa using hf), funcName_eq (by simpa using hg)] at heq
  cases f
  cases g
  exact congrArg FuncId.mk (hnodup.getElem_inj_iff.1 heq)

theorem Named.predName_ne_funcName (h : s.Named) (hp : p.index < s.predicates.length)
    (hf : f.index < s.functions.length) : s.predName p ≠ s.funcName f :=
  (nodup_append.1 (nodup_append.1 h.nodup).2.1).2.2 _ (mem_predName hp) _ (mem_funcName hf)

end Symbols

/-! ## Histories of requests -/

/-- A request for a symbol. -/
inductive SymbolRequest where
  | sort (hint : String)
  | predicate (hint : String) (args : List SortId)
  | function (hint : String) (args : List SortId) (result : SortId)

/-- What the name of the symbol is made from. -/
def SymbolRequest.hint : SymbolRequest → String
  | .sort hint => hint
  | .predicate hint _ => hint
  | .function hint _ _ => hint

namespace Symbols

/-- Add the symbol that is asked for. Returns its name. -/
def serve (s : Symbols) : SymbolRequest → String × Symbols
  | .sort hint => let (id, t) := s.addSort hint; (t.sortName id, t)
  | .predicate hint args => let (id, t) := s.addPredicate hint args; (t.predName id, t)
  | .function hint args result => let (id, t) := s.addFunction hint args result; (t.funcName id, t)

/-- Add symbols one after another. Returns their names. -/
def serveAll (s : Symbols) : List SymbolRequest → List String × Symbols
  | [] => ([], s)
  | r :: rest =>
    let (name, t) := s.serve r
    let (names, u) := t.serveAll rest
    (name :: names, u)

theorem serve_name (s : Symbols) (r : SymbolRequest) :
    (s.serve r).1 = s.names.pick r.hint ∧ (s.serve r).2.names.used = s.names.pick r.hint :: s.names.used := by
  cases r with
  | sort hint => exact ⟨by simp [serve, addSort, sortName, NameTable.fresh, SymbolRequest.hint], rfl⟩
  | predicate hint args => exact ⟨by simp [serve, addPredicate, predName, NameTable.fresh, SymbolRequest.hint], rfl⟩
  | function hint args result => exact ⟨by simp [serve, addFunction, funcName, NameTable.fresh, SymbolRequest.hint], rfl⟩

/-- The table remembers all names that it has given. -/
theorem used_serveAll (rs : List SymbolRequest) (s : Symbols) :
    (s.serveAll rs).2.names.used = (s.serveAll rs).1.reverse ++ s.names.used := by
  induction rs generalizing s with
  | nil => rfl
  | cons r rest ih => simp [serveAll, ih, serve_name s r]

end Symbols

/-- After any history of requests for sorts, predicates and functions, with any hints, the search for the name of the next symbol
ends: its name is the first candidate that is free. It is a small letter followed by small letters, digits and underscores, no
reserved word, no variable, and none of the names given before. -/
theorem requested_names_apart (requests : List SymbolRequest) (r : SymbolRequest) :
    let history := Symbols.empty.serveAll requests
    let name := (history.2.serve r).1
    (∃ n, name = NameTable.candidate (nameOfHint r.hint) n ∧ history.2.names.isTaken name = false ∧
      ∀ j < n, history.2.names.isTaken (NameTable.candidate (nameOfHint r.hint) j) = true) ∧
    isName name = true ∧ name ∉ reservedWords ∧ name ∉ history.1 ∧ ∀ n, name ≠ VarGen.nameOf n := by
  intro history name
  have hname : name = history.2.names.pick r.hint := (history.2.serve_name r).1
  obtain ⟨n, hn, hfree, hbefore⟩ := history.2.names.pick_first r.hint
  obtain ⟨hnew, hreserved⟩ := history.2.names.pick_free r.hint
  have hsafe := history.2.names.isName_pick r.hint
  rw [← hname] at hn hnew hreserved hsafe
  rw [← hn] at hfree
  refine ⟨⟨n, hn, hfree, hbefore⟩, hsafe, hreserved, fun hmem => hnew ?_, ne_nameOf_of_isName hsafe⟩
  rw [Symbols.used_serveAll requests .empty]
  exact List.mem_append_left _ (List.mem_reverse.mpr hmem)

end StoreCheck
