import StoreCheck.Encoding.Session

/-!
# Lookups in variable maps and scopes

A variable map is used through its lookups. `find?_insert` says what a binding changes; the lemmas on `Scope.types` and
`Scope.locals` say that the two views of a scope are looked up as the scope itself.
-/

namespace StoreCheck

open List

namespace VarMap

variable {α β : Type}

theorem find?_nil (x : String) : find? ([] : VarMap α) x = none := rfl

theorem find?_cons (m : VarMap α) (n x : String) (a : α) :
    find? ((n, a) :: m) x = if x = n then some a else find? m x := by
  unfold find?
  rw [lookup_cons]
  by_cases h : x = n
  · subst h
    simp
  · have : (x == n) = false := by simpa using h
    simp [h, this]

/-- Removing the entries of a name changes no other lookup. -/
theorem find?_filter (m : VarMap α) (n x : String) :
    find? (m.filter (·.1 != n)) x = if x = n then none else find? m x := by
  induction m with
  | nil => simp [find?_nil]
  | cons p m ih =>
    obtain ⟨k, a⟩ := p
    by_cases hk : k = n
    · subst hk
      simp only [filter_cons, bne_self_eq_false, Bool.false_eq_true, if_false, ih, find?_cons]
      by_cases hx : x = k <;> simp [hx]
    · have : (k != n) = true := by simpa using hk
      simp only [filter_cons, this, if_true, find?_cons, ih]
      by_cases hx : x = k
      · subst hx
        simp [hk]
      · simp [hx]

/-- A binding changes the lookup of its name only. -/
theorem find?_insert (m : VarMap α) (n x : String) (a : α) :
    (m.insert n a).find? x = if x = n then some a else m.find? x := by
  unfold insert
  rw [find?_cons, find?_filter]
  by_cases hx : x = n <;> simp [hx]

/-- Looking up in a map whose values were changed. -/
theorem find?_map (m : VarMap α) (f : α → β) (x : String) :
    find? (m.map fun (name, a) => (name, f a)) x = (m.find? x).map f := by
  induction m with
  | nil => rfl
  | cons p m ih =>
    obtain ⟨k, a⟩ := p
    rw [map_cons, find?_cons, find?_cons, ih]
    by_cases hx : x = k <;> simp [hx]

/-- Looking up in a map that holds an entry for each of the names. -/
theorem find?_ofNames (names : List String) (f : String → α) (x : String) :
    find? (names.map fun name => (name, f name)) x = if x ∈ names then some (f x) else none := by
  induction names with
  | nil => rfl
  | cons n names ih =>
    rw [map_cons, find?_cons, ih]
    by_cases hx : x = n
    · subst hx
      simp
    · simp [hx]

/-- A name is among the bound names exactly if a lookup of it succeeds. -/
theorem mem_names_iff (m : VarMap α) (x : String) : x ∈ m.names ↔ (m.find? x).isSome = true := by
  induction m with
  | nil => simp [names, find?_nil]
  | cons p m ih =>
    obtain ⟨k, a⟩ := p
    rw [find?_cons]
    by_cases hx : x = k
    · simp [names, hx]
    · simp only [names, map_cons, mem_cons, hx, false_or, if_false]
      exact ih

theorem insert_map (m : VarMap α) (f : α → β) (n : String) (a : α) :
    (m.insert n a).map (fun (name, a) => (name, f a)) = insert (m.map fun (name, a) => (name, f a)) n (f a) := by
  unfold insert
  rw [map_cons, filter_map]
  rfl

/-! ### Maps with one entry for each name -/

/-- No name has two entries. -/
def Distinct (m : VarMap α) : Prop := m.names.Nodup

theorem distinct_nil : Distinct ([] : VarMap α) := nodup_nil

theorem Distinct.insert {m : VarMap α} (h : m.Distinct) (n : String) (a : α) : Distinct (m.insert n a) := by
  unfold Distinct names VarMap.insert
  rw [map_cons, nodup_cons]
  constructor
  · simp
  · exact .sublist (List.Sublist.map _ filter_sublist) h

theorem Distinct.tail {p : String × β} {m : List (String × β)} (h : Distinct (p :: m)) : Distinct m := (nodup_cons.1 h).2

theorem Distinct.find?_tail {m : VarMap α} (h : Distinct ((n, a) :: m)) : m.find? n = none := by
  have hn : n ∉ m.names := (nodup_cons.1 h).1
  rw [mem_names_iff] at hn
  simpa using hn

end VarMap

theorem perm_insertName (name : String) : ∀ names : List String, (insertName name names).Perm (name :: names)
  | [] => .refl _
  | n :: rest => by
    unfold insertName
    split
    · exact .refl _
    · exact ((perm_insertName name rest).cons n).trans (List.Perm.swap name n rest)

theorem perm_foldr_insertName : ∀ names : List String, (names.foldr insertName []).Perm names
  | [] => .refl _
  | n :: rest => (perm_insertName n _).trans ((perm_foldr_insertName rest).cons n)

/-- Sorting names neither adds nor loses one. -/
theorem mem_sortNames (names : List String) (x : String) : x ∈ sortNames names ↔ x ∈ names := by
  unfold sortNames
  rw [(perm_foldr_insertName names.eraseDups).mem_iff, mem_eraseDups]

theorem nodup_eraseDups (names : List String) : names.eraseDups.Nodup := by
  match names with
  | [] => exact nodup_nil
  | n :: rest =>
    rw [eraseDups_cons, nodup_cons]
    exact ⟨by simp, nodup_eraseDups _⟩
termination_by names.length
decreasing_by
  exact Nat.lt_succ_of_le (length_filter_le _ _)

/-- Sorting names leaves each once. -/
theorem nodup_sortNames (names : List String) : (sortNames names).Nodup := by
  exact (perm_foldr_insertName names.eraseDups).nodup_iff.2 (nodup_eraseDups names)

namespace Scope

theorem find?_types (s : Scope) (x : String) : s.types.find? x = (s.find? x).map (·.type) :=
  VarMap.find?_map s (·.type) x

theorem types_insert (s : Scope) (n : String) (b : Binding) :
    Scope.types (s.insert n b) = s.types.insert n b.type :=
  VarMap.insert_map s (·.type) n b

theorem names_types (s : Scope) : s.types.names = s.names := by
  simp [types, VarMap.names]

theorem distinct_types {s : Scope} (h : VarMap.Distinct s) : VarMap.Distinct s.types := by
  unfold VarMap.Distinct
  rw [names_types]
  exact h

theorem contains_types (s : Scope) (x : String) : s.types.contains x = s.contains x := by
  simp [VarMap.contains, find?_types]

end Scope

end StoreCheck
