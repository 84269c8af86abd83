import Mathlib.Data.List.Basic
import StoreCheck.Json.Reader
import StoreCheck.Json.Writer

/-!
# Spellings of JSON values

A value may be spelled with blanks between its tokens in many ways (`Json.Spells`). The reader reads every spelling of a value
that does not nest too deep (`parse?_of_spells`), and both writers spell the value that they write (`spells_compactChars`,
`spells_prettyChars`). Spellings that no writer makes, such as escapes of letters or numbers with exponents, are left out.
-/

namespace StoreCheck.Json

open Option

variable {n fuel room : Nat} {rest blanks cs body : List Char}

/-! ## Nesting -/

mutual

/-- How deep arrays and objects nest in the value. -/
def depth : Json → Nat
  | .arr items => depthAll items + 1
  | .obj members => depthMembers members + 1
  | _ => 0

/-- How deep arrays and objects nest in the values. -/
def depthAll : List Json → Nat
  | [] => 0
  | v :: rest => max v.depth (depthAll rest)

/-- How deep arrays and objects nest in the members' values. -/
def depthMembers : List (String × Json) → Nat
  | [] => 0
  | (_, v) :: rest => max v.depth (depthMembers rest)

end

/-! ## Strings -/

/-- The unit that a written character is read as: control characters without a letter of their own are read as codes. -/
def unitOf (c : Char) : TextUnit :=
  if c.toNat < 32 ∧ c ∉ ['\n', '\r', '\t', '\x08', '\x0c'] then .code c.toNat else .char c

variable {c : Char} {v : Json}

theorem unitsText?_code (hn : n < 0xD800) (units : List TextUnit) :
    unitsText? (.code n :: units) = (unitsText? units).map (Char.ofNat n :: ·) := by
  have hhigh : isHighSurrogate n = false := by simp [isHighSurrogate]; omega
  have hlow : isLowSurrogate n = false := by simp [isLowSurrogate]; omega
  cases units with
  | nil => simp [unitsText?, hhigh, hlow]
  | cons u rest => cases u <;> simp [unitsText?, hhigh, hlow]

theorem unitsText?_map_unitOf (cs : List Char) : unitsText? (cs.map unitOf) = some cs := by
  induction cs with
  | nil => rfl
  | cons c rest ih =>
    rw [List.map_cons]
    by_cases h : c.toNat < 32 ∧ c ∉ ['\n', '\r', '\t', '\x08', '\x0c']
    · rw [show unitOf c = .code c.toNat from if_pos h, unitsText?_code (by omega), ih]
      simp
    · rw [show unitOf c = .char c from if_neg h, unitsText?, ih]
      simp

/-- A character after a backslash. -/
theorem textUnits_escape (hu : e ≠ 'u') (h : escape? e = some c) (rest : List Char) :
    textUnits ('\\' :: e :: rest) = (textUnits rest).map fun p => (.char c :: p.1, p.2) := by
  rw [textUnits, h]
  · cases textUnits rest <;> rfl
  · intro _ _ _ _ _ he
    exact absurd he hu

/-- A code after a backslash. -/
theorem textUnits_code (h : hexCode? a b c d = some n) (rest : List Char) :
    textUnits ('\\' :: 'u' :: a :: b :: c :: d :: rest) = (textUnits rest).map fun p => (.code n :: p.1, p.2) := by
  rw [textUnits, h]
  cases textUnits rest <;> rfl

/-- A character that stands for itself. -/
theorem textUnits_plain (hquote : c ≠ '"') (hslash : c ≠ '\\') (hc : 32 ≤ c.toNat) (rest : List Char) :
    textUnits (c :: rest) = (textUnits rest).map fun p => (.char c :: p.1, p.2) := by
  have hplain : ¬ (decide (c.toNat < 32) || decide (c = '\\')) = true := by simp [hslash, hc]
  rw [textUnits, if_neg hplain]
  · cases textUnits rest <;> rfl
  · exact hquote
  · rintro _ _ _ _ _ rfl
    exact absurd rfl hslash
  · intro _ _ hc
    exact absurd hc hslash

/-- The two digits of a control character. -/
theorem hexCode?_control : ∀ n, n < 32 → hexCode? '0' '0' (hexDigit (n / 16)) (hexDigit (n % 16)) = some n := by
  decide

/-- A written character is read as one unit. -/
theorem textUnits_escapeChar (c : Char) (rest : List Char) :
    textUnits (escapeChar c ++ rest) = (textUnits rest).map fun p => (unitOf c :: p.1, p.2) := by
  by_cases hshort : c ∈ ['"', '\\', '\n', '\r', '\t', '\x08', '\x0c']
  · simp only [List.mem_cons, List.not_mem_nil, or_false] at hshort
    rcases hshort with rfl | rfl | rfl | rfl | rfl | rfl | rfl
    all_goals exact textUnits_escape (by decide) rfl rest
  · simp only [List.mem_cons, List.not_mem_nil, or_false, not_or] at hshort
    obtain ⟨hquote, hslash, hn, hr, ht, hb, hf⟩ := hshort
    simp only [escapeChar, hquote, hslash, hn, hr, ht, hb, hf, if_false]
    split
    · rename_i hcontrol
      rw [show unitOf c = .code c.toNat from if_pos ⟨hcontrol, by simp [hn, hr, ht, hb, hf]⟩]
      exact textUnits_code (hexCode?_control c.toNat hcontrol) rest
    · rename_i hcontrol
      rw [show unitOf c = .char c from if_neg fun h => hcontrol h.1]
      exact textUnits_plain hquote hslash (Nat.le_of_not_lt hcontrol) rest

/-- A string literal is read as the units of its characters. -/
theorem textUnits_literal (cs rest : List Char) :
    textUnits (cs.flatMap escapeChar ++ '"' :: rest) = some (cs.map unitOf, rest) := by
  induction cs with
  | nil => rfl
  | cons c more ih => rw [List.flatMap_cons, List.append_assoc, textUnits_escapeChar, ih]; rfl

/-! ## Numbers -/

/-- A number that ends in front of the text is not read further. -/
def EndsNumber (rest : List Char) : Prop := ∀ c ∈ rest.head?, c.isDigit = false ∧ c ≠ '.' ∧ c ≠ 'e' ∧ c ≠ 'E'

theorem isDigit_of_mem_digits (h : c ∈ Nat.toDigits 10 n) : c.isDigit = true :=
  Nat.isDigit_of_mem_toDigits (by decide) (by decide) h

/-- The digits of a number start with a zero only if that is all. -/
theorem head_digits (hn : 0 < n) : (Nat.toDigits 10 n).head? ≠ some '0' := by
  induction n using Nat.strongRecOn with
  | ind n ih =>
    rw [Nat.toDigits_eq_if (by decide)]
    split
    · rename_i hlt
      have hdigits : ∀ m, m < 10 → 0 < m → [Nat.digitChar m].head? ≠ some '0' := by decide
      exact hdigits n hlt hn
    · rename_i hle
      have hhead := ih (n / 10) (by omega) (by omega)
      rwa [List.head?_append_of_ne_nil _ Nat.toDigits_ne_nil]

theorem takeWhile_digits (n : Nat) (h : EndsNumber rest) :
    (Nat.toDigits 10 n ++ rest).takeWhile Char.isDigit = Nat.toDigits 10 n ∧
      (Nat.toDigits 10 n ++ rest).dropWhile Char.isDigit = rest := by
  have hdigits : ∀ c ∈ Nat.toDigits 10 n, c.isDigit = true := fun c => isDigit_of_mem_digits
  rw [List.takeWhile_append_of_pos hdigits, List.dropWhile_append_of_pos hdigits]
  cases rest with
  | nil => simp
  | cons c rest =>
    have hc := (h c rfl).1
    simp [hc]

theorem digits?_digits (n : Nat) (h : EndsNumber rest) :
    digits? (Nat.toDigits 10 n ++ rest) = some (Nat.toDigits 10 n, rest) := by
  obtain ⟨htake, hdrop⟩ := takeWhile_digits n h
  unfold digits?
  rw [htake, hdrop]
  split
  · rename_i hnil
    exact absurd hnil Nat.toDigits_ne_nil
  · rfl

theorem wholePart?_digits (n : Nat) (h : EndsNumber rest) :
    wholePart? (Nat.toDigits 10 n ++ rest) = some (Nat.toDigits 10 n, rest) := by
  rcases Nat.eq_zero_or_pos n with rfl | hn
  · cases rest with
    | nil => rfl
    | cons c rest => simp [wholePart?, (h c rfl).1]
  · have hhead := head_digits hn
    cases hdigits : Nat.toDigits 10 n with
    | nil => exact absurd hdigits Nat.toDigits_ne_nil
    | cons c ds =>
      have hc : c ≠ '0' := by simpa [hdigits] using hhead
      rw [List.cons_append, wholePart?, ← List.cons_append, ← hdigits]
      · exact digits?_digits n h
      · intro _ heq
        exact hc (List.cons.inj heq).1

/-- The digits of a number are read as the number. -/
theorem numberLiteral?_digits (n : Nat) (h : EndsNumber rest) :
    numberLiteral? (Nat.toDigits 10 n ++ rest) = some (⟨false, Nat.toDigits 10 n, [], none⟩, rest) := by
  have hsign : ((Nat.toDigits 10 n ++ rest).head? == some '-') = false := by
    cases hdigits : Nat.toDigits 10 n with
    | nil => exact absurd hdigits Nat.toDigits_ne_nil
    | cons c ds =>
      have hc : c.isDigit = true := isDigit_of_mem_digits (n := n) (by rw [hdigits]; exact List.mem_cons_self)
      simp only [List.cons_append, List.head?_cons, beq_eq_false_iff_ne, ne_eq, Option.some.injEq]
      rintro rfl
      cases hc
  have hfraction : fractionPart? rest = some ([], rest) := by
    cases rest with
    | nil => rfl
    | cons c rest =>
      rw [fractionPart?]
      intro _ heq
      exact (h c rfl).2.1 (List.cons.inj heq).1
  have hexponent : exponentPart? rest = some (none, rest) := by
    cases rest with
    | nil => rfl
    | cons c rest =>
      rw [exponentPart?]
      · intro _ heq
        exact (h c rfl).2.2.1 (List.cons.inj heq).1
      · intro _ heq
        exact (h c rfl).2.2.2 (List.cons.inj heq).1
  simp only [numberLiteral?, hsign, Bool.false_eq_true, if_false, wholePart?_digits n h, bind_eq_bind,
    bind_some, hfraction, hexponent, Option.pure_def]

theorem digitsValue_digits (n : Nat) : digitsValue (Nat.toDigits 10 n) = n := by
  have h : digitsValue (Nat.toDigits 10 n) = Nat.ofDigitChars 10 (Nat.toDigits 10 n) 0 := by
    rw [Nat.ofDigitChars_eq_foldl, digitsValue]
    simp only [Nat.mul_comm]
  rw [h, Nat.ofDigitChars_ten_toDigits]

/-- A number below 2^64 is read as itself. -/
theorem value_digits (hn : n < UInt64.size) : (NumberLiteral.mk false (Nat.toDigits 10 n) [] none).value = .nat n := by
  have hlength : (Nat.toDigits 10 n).length ≤ 20 := by
    rw [Nat.length_toDigits_le_iff (by decide) (by decide)]
    exact Nat.lt_trans hn (by decide)
  have hfits : (NumberLiteral.mk false (Nat.toDigits 10 n) [] none).overflows = false := by
    have hdrop := (List.dropWhile_sublist (fun c : Char => c = '0') (l := Nat.toDigits 10 n)).length_le
    simp only [NumberLiteral.overflows, List.append_nil, List.length_nil]
    split
    · rfl
    · rw [if_neg (by omega), if_pos (by omega)]
  simp [NumberLiteral.value, hfits, digitsValue_digits, hn]

/-! ## Values -/

/-- A text of blanks only. -/
def Blanks (cs : List Char) : Prop := ∀ c ∈ cs, isBlank c = true

mutual

/-- The text spells the value, without blanks around it. -/
inductive Spells : Json → List Char → Prop
  | null : Spells .null ['n', 'u', 'l', 'l']
  | boolTrue : Spells (.bool true) ['t', 'r', 'u', 'e']
  | boolFalse : Spells (.bool false) ['f', 'a', 'l', 's', 'e']
  | nat {n : Nat} : n < UInt64.size → Spells (.nat n) (Nat.toDigits 10 n)
  | str (s : String) : Spells (.str s) (literal s)
  | noItems : Spells (.arr []) ['[', ']']
  | arr {items : List Json} {body : List Char} : SpellsItems items body → Spells (.arr items) ('[' :: body)
  | noMembers : Spells (.obj []) ['\x7b', '\x7d']
  | obj {members : List (String × Json)} {body : List Char} :
      SpellsMembers members body → Spells (.obj members) ('\x7b' :: body)

/-- The text spells the items of an array, of which there is at least one, up to its closing bracket. -/
inductive SpellsItems : List Json → List Char → Prop
  | last {v : Json} {blanks cs blanks' : List Char} :
      Blanks blanks → Spells v cs → Blanks blanks' → SpellsItems [v] (blanks ++ (cs ++ (blanks' ++ [']'])))
  | cons {v : Json} {items : List Json} {blanks cs : List Char} (body : List Char) :
      Blanks blanks → Spells v cs → SpellsItems items body → SpellsItems (v :: items) (blanks ++ (cs ++ ',' :: body))

/-- The text spells the members of an object, of which there is at least one, up to its closing brace. -/
inductive SpellsMembers : List (String × Json) → List Char → Prop
  | last (k : String) {v : Json} {blanks blanks' cs blanks'' : List Char} :
      Blanks blanks → Blanks blanks' → Spells v cs → Blanks blanks'' →
      SpellsMembers [(k, v)] (blanks ++ (literal k ++ ':' :: (blanks' ++ (cs ++ (blanks'' ++ ['\x7d'])))))
  | cons (k : String) {v : Json} {members : List (String × Json)} {blanks blanks' cs : List Char} (body : List Char) :
      Blanks blanks → Blanks blanks' → Spells v cs → SpellsMembers members body →
      SpellsMembers ((k, v) :: members) (blanks ++ (literal k ++ ':' :: (blanks' ++ (cs ++ ',' :: body))))

end

/-! ## Reading a spelling -/

theorem skipBlanks_blanks (h : Blanks blanks) (cs : List Char) : skipBlanks (blanks ++ cs) = skipBlanks cs :=
  List.dropWhile_append_of_pos h

theorem skipBlanks_skipBlanks (cs : List Char) : skipBlanks (skipBlanks cs) = skipBlanks cs := by
  induction cs with
  | nil => rfl
  | cons c cs ih =>
    by_cases h : isBlank c = true
    · rw [show skipBlanks (c :: cs) = skipBlanks cs from List.dropWhile_cons_of_pos h, ih]
    · rw [show skipBlanks (c :: cs) = c :: cs from List.dropWhile_cons_of_neg h]
      exact List.dropWhile_cons_of_neg h

theorem readValue_skipBlanks (fuel room : Nat) (cs : List Char) :
    readValue fuel room (skipBlanks cs) = readValue fuel room cs := by
  cases fuel with
  | zero => rfl
  | succ fuel => rw [readValue, readValue, skipBlanks_skipBlanks]

theorem readValue_blanks (h : Blanks blanks) (fuel room : Nat) (cs : List Char) :
    readValue fuel room (blanks ++ cs) = readValue fuel room cs := by
  rw [← readValue_skipBlanks, skipBlanks_blanks h, readValue_skipBlanks]

theorem readItems_skipBlanks (fuel room : Nat) (cs : List Char) :
    readItems fuel room (skipBlanks cs) = readItems fuel room cs := by
  cases fuel with
  | zero => rfl
  | succ fuel => rw [readItems, readItems, readValue_skipBlanks]

theorem readMembers_skipBlanks (fuel room : Nat) (cs : List Char) :
    readMembers fuel room (skipBlanks cs) = readMembers fuel room cs := by
  cases fuel with
  | zero => rfl
  | succ fuel => rw [readMembers, readMembers, skipBlanks_skipBlanks]

theorem readValue_arr (h : (skipBlanks cs).head? ≠ some ']') : readValue (fuel + 1) room ('[' :: cs) =
      (readItems fuel (room - 1) cs).map fun p => (nested room (.arr p.1), p.2) := by
  have hskip : skipBlanks ('[' :: cs) = '[' :: cs := rfl
  rw [readValue, hskip, ← readItems_skipBlanks fuel (room - 1) cs]
  split
  case h_5 heq =>
    cases heq
    split
    · rename_i heq
      simp [heq] at h
    · rfl
  all_goals simp_all

theorem readValue_obj (h : (skipBlanks cs).head? ≠ some '\x7d') : readValue (fuel + 1) room ('\x7b' :: cs) =
      (readMembers fuel (room - 1) cs).map fun p => (nested room (objectValue p.1), p.2) := by
  have hskip : skipBlanks ('\x7b' :: cs) = '\x7b' :: cs := rfl
  rw [readValue, hskip, ← readMembers_skipBlanks fuel (room - 1) cs]
  split
  case h_6 heq =>
    cases heq
    split
    · rename_i heq
      simp [heq] at h
    · rfl
  all_goals simp_all

/-- A text that starts with a digit is read as a number. -/
theorem readValue_digit (hc : c.isDigit = true) :
    readValue (fuel + 1) room (c :: cs) = (numberLiteral? (c :: cs)).map fun p => (p.1.value, p.2) := by
  have hblank : skipBlanks (c :: cs) = c :: cs := by
    refine List.dropWhile_cons_of_neg ?_
    rintro h
    simp only [isBlank, Bool.or_eq_true, decide_eq_true_eq] at h
    rcases h with ((rfl | rfl) | rfl) | rfl <;> cases hc
  rw [readValue, hblank]
  split
  all_goals first
    | rename_i heq; cases heq; cases hc
    | rfl

/-- The first character of a spelling is neither a blank nor a closing bracket. -/
theorem Spells.head (h : Spells v cs) : ∃ c tail, cs = c :: tail ∧ isBlank c = false ∧ c ≠ ']' := by
  cases h with
  | nat hn =>
    rename_i n
    cases hdigits : Nat.toDigits 10 n with
    | nil => exact absurd hdigits Nat.toDigits_ne_nil
    | cons c tail =>
      have hc : c.isDigit = true := isDigit_of_mem_digits (n := n) (by rw [hdigits]; exact List.mem_cons_self)
      refine ⟨c, tail, rfl, ?_, ?_⟩
      · rw [Bool.eq_false_iff]
        intro h
        simp only [isBlank, Bool.or_eq_true, decide_eq_true_eq] at h
        rcases h with ((rfl | rfl) | rfl) | rfl <;> cases hc
      · rintro rfl
        cases hc
  | _ => exact ⟨_, _, rfl, by decide, by decide⟩

theorem skipBlanks_spells (h : Spells v cs) (rest : List Char) :
    skipBlanks (cs ++ rest) = cs ++ rest ∧ (cs ++ rest).head? ≠ some ']' := by
  obtain ⟨c, tail, rfl, hblank, hclose⟩ := h.head
  exact ⟨List.dropWhile_cons_of_neg (by simp [hblank]), by simpa using hclose⟩

theorem SpellsItems.head (h : SpellsItems items body) (rest : List Char) : (skipBlanks (body ++ rest)).head? ≠ some ']' := by
  cases h with
  | last hblanks hv hblanks' =>
    rw [List.append_assoc, skipBlanks_blanks hblanks, List.append_assoc, (skipBlanks_spells hv _).1]
    exact (skipBlanks_spells hv _).2
  | cons _ hblanks hv hitems =>
    rw [List.append_assoc, skipBlanks_blanks hblanks, List.append_assoc, (skipBlanks_spells hv _).1]
    exact (skipBlanks_spells hv _).2

theorem skipBlanks_literal (s : String) (rest : List Char) :
    skipBlanks (literal s ++ rest) = '"' :: (s.toList.flatMap escapeChar ++ '"' :: rest) := by
  have h : literal s ++ rest = '"' :: (s.toList.flatMap escapeChar ++ '"' :: rest) := by simp [literal]
  rw [h]
  exact List.dropWhile_cons_of_neg (by decide)

theorem SpellsMembers.head (h : SpellsMembers members body) (rest : List Char) :
    (skipBlanks (body ++ rest)).head? ≠ some '\x7d' := by
  cases h with
  | last _ hblanks =>
    rw [List.append_assoc, skipBlanks_blanks hblanks, List.append_assoc, skipBlanks_literal]
    simp
  | cons _ _ hblanks =>
    rw [List.append_assoc, skipBlanks_blanks hblanks, List.append_assoc, skipBlanks_literal]
    simp

/-- The members as the reader finds them, with the units of their keys. -/
def unitMembers (members : List (String × Json)) : List (List TextUnit × Json) :=
  members.map fun m => (m.1.toList.map unitOf, m.2)

theorem objectValue_unitMembers (members : List (String × Json)) : objectValue (unitMembers members) = .obj members := by
  have hkeys : memberKeys? (unitMembers members) = some members := by
    induction members with
    | nil => rfl
    | cons m rest ih =>
      rw [unitMembers] at ih
      simp [unitMembers, memberKeys?, unitsText?_map_unitOf, ih]
  rw [objectValue, hkeys]

theorem nested_of_pos (h : 0 < room) (v : Json) : nested room v = v := if_neg (by omega)

theorem endsNumber_cons (h : c.isDigit = false ∧ c ≠ '.' ∧ c ≠ 'e' ∧ c ≠ 'E') (cs : List Char) : EndsNumber (c :: cs) := by
  intro d hd
  cases hd
  exact h

theorem endsNumber_blanks (h : Blanks blanks) (hrest : EndsNumber rest) : EndsNumber (blanks ++ rest) := by
  cases blanks with
  | nil => exact hrest
  | cons c blanks =>
    refine endsNumber_cons ?_ _
    have hc := h c List.mem_cons_self
    simp only [isBlank, Bool.or_eq_true, decide_eq_true_eq] at hc
    rcases hc with ((rfl | rfl) | rfl) | rfl <;> decide

theorem readItems_last (hv : readValue fuel room cs = some (v, blanks ++ ']' :: rest)) (hblanks : Blanks blanks) :
    readItems (fuel + 1) room cs = some ([v], rest) := by
  have hskip : skipBlanks (blanks ++ ']' :: rest) = ']' :: rest := skipBlanks_blanks hblanks _
  rw [readItems, hv]
  simp only [Option.bind_eq_bind, Option.bind_some, hskip]
  rfl

theorem readItems_cons (hv : readValue fuel room cs = some (v, ',' :: rest)) :
    readItems (fuel + 1) room cs = (readItems fuel room rest).map fun p => (v :: p.1, p.2) := by
  rw [readItems, hv]
  have hskip : skipBlanks (',' :: rest) = ',' :: rest := rfl
  simp only [bind_eq_bind, bind_some, hskip]
  cases readItems fuel room rest <;> rfl

/-- A key up to its colon. -/
theorem textUnits_key (h : Blanks blanks) (k : String) (rest : List Char) :
    ∃ cs, skipBlanks (blanks ++ (literal k ++ ':' :: rest)) = '"' :: cs ∧
      textUnits cs = some (k.toList.map unitOf, ':' :: rest) := by
  refine ⟨_, ?_, textUnits_literal k.toList (':' :: rest)⟩
  rw [skipBlanks_blanks h, skipBlanks_literal]

theorem readMembers_last (k : String) (hblanks : Blanks blanks)
    (hv : readValue fuel room cs = some (v, blanks' ++ '\x7d' :: rest)) (hblanks' : Blanks blanks') :
    readMembers (fuel + 1) room (blanks ++ (literal k ++ ':' :: cs)) = some (unitMembers [(k, v)], rest) := by
  obtain ⟨tail, hkey, hunits⟩ := textUnits_key hblanks k cs
  have hcolon : skipBlanks (':' :: cs) = ':' :: cs := rfl
  have hbrace : skipBlanks (blanks' ++ '\x7d' :: rest) = '\x7d' :: rest := skipBlanks_blanks hblanks' _
  rw [readMembers, hkey]
  simp only [hunits, hcolon, hv, hbrace, bind_eq_bind, bind_some]
  rfl

theorem readMembers_cons (k : String) (hblanks : Blanks blanks) (hv : readValue fuel room cs = some (v, ',' :: rest)) :
    readMembers (fuel + 1) room (blanks ++ (literal k ++ ':' :: cs)) =
      (readMembers fuel room rest).map fun p => ((k.toList.map unitOf, v) :: p.1, p.2) := by
  obtain ⟨tail, hkey, hunits⟩ := textUnits_key hblanks k cs
  have hcolon : skipBlanks (':' :: cs) = ':' :: cs := rfl
  have hcomma : skipBlanks (',' :: rest) = ',' :: rest := rfl
  rw [readMembers, hkey]
  simp only [hunits, hcolon, hv, hcomma, bind_eq_bind, bind_some]
  cases readMembers fuel room rest <;> rfl

mutual

/-- Every spelling of a value is read as the value, if there is room for it to nest. Two units of fuel for each character are
enough. -/
theorem readValue_spells : ∀ {v : Json} {cs : List Char}, Spells v cs → ∀ (fuel room : Nat), v.depth ≤ room →
    2 * cs.length < fuel → ∀ {rest : List Char}, EndsNumber rest → readValue fuel room (cs ++ rest) = some (v, rest)
  | _, _, .null, fuel + 1, _, _, _, _, _ => rfl
  | _, _, .boolTrue, fuel + 1, _, _, _, _, _ => rfl
  | _, _, .boolFalse, fuel + 1, _, _, _, _, _ => rfl
  | _, _, .nat (n := n) hn, fuel + 1, _, _, _, _, hrest => by
    have hnumber := numberLiteral?_digits n hrest
    cases hdigits : Nat.toDigits 10 n with
    | nil => exact absurd hdigits Nat.toDigits_ne_nil
    | cons c tail =>
      have hc : c.isDigit = true := isDigit_of_mem_digits (n := n) (by rw [hdigits]; exact List.mem_cons_self)
      rw [List.cons_append, readValue_digit hc, ← List.cons_append, ← hdigits, hnumber]
      simp [value_digits hn]
  | _, _, .str s, fuel + 1, _, _, _, _, _ => by
    rw [readValue, skipBlanks_literal]
    simp [textUnits_literal, textValue, unitsText?_map_unitOf]
  | _, _, .noItems, fuel + 1, _, hdepth, _, rest, _ => by
    rw [depth] at hdepth
    exact congrArg (fun v => some (v, rest)) (nested_of_pos (by omega) _)
  | _, _, .arr hitems, fuel + 1, room, hdepth, hfuel, rest, _ => by
    rw [depth] at hdepth
    rw [List.length_cons] at hfuel
    have hread := readItems_spells hitems fuel (room - 1) (by omega) (by omega) rest
    rw [List.cons_append, readValue_arr (hitems.head rest), hread, map_some, nested_of_pos (by omega)]
  | _, _, .noMembers, fuel + 1, _, hdepth, _, rest, _ => by
    rw [depth] at hdepth
    exact congrArg (fun v => some (v, rest)) (nested_of_pos (by omega) _)
  | _, _, .obj hmembers, fuel + 1, room, hdepth, hfuel, rest, _ => by
    rw [depth] at hdepth
    rw [List.length_cons] at hfuel
    have hread := readMembers_spells hmembers fuel (room - 1) (by omega) (by omega) rest
    rw [List.cons_append, readValue_obj (hmembers.head rest), hread, map_some, nested_of_pos (by omega),
      objectValue_unitMembers]

theorem readItems_spells : ∀ {items : List Json} {body : List Char}, SpellsItems items body → ∀ (fuel room : Nat),
    depthAll items ≤ room → 2 * body.length < fuel → ∀ (rest : List Char),
    readItems fuel room (body ++ rest) = some (items, rest)
  | _, _, .last hblanks hv hblanks', fuel + 1, room, hdepth, hfuel, rest => by
    simp only [depthAll, Nat.max_le] at hdepth
    simp only [List.length_append, List.length_cons] at hfuel
    have hvalue := readValue_spells hv fuel room hdepth.1 (by omega)
      (endsNumber_blanks hblanks' (endsNumber_cons (c := ']') (by decide) rest))
    rw [← readValue_blanks hblanks] at hvalue
    refine readItems_last ?_ hblanks'
    simpa using hvalue
  | _, _, .cons body hblanks hv hitems, fuel + 1, room, hdepth, hfuel, rest => by
    simp only [depthAll, Nat.max_le] at hdepth
    simp only [List.length_append, List.length_cons] at hfuel
    have hvalue := readValue_spells hv fuel room hdepth.1 (by omega) (endsNumber_cons (c := ',') (by decide) (body ++ rest))
    have hrest := readItems_spells hitems fuel room hdepth.2 (by omega) rest
    rw [← readValue_blanks hblanks] at hvalue
    rw [readItems_cons (by simpa using hvalue), hrest, map_some]

theorem readMembers_spells : ∀ {members : List (String × Json)} {body : List Char}, SpellsMembers members body →
    ∀ (fuel room : Nat), depthMembers members ≤ room → 2 * body.length < fuel → ∀ (rest : List Char),
    readMembers fuel room (body ++ rest) = some (unitMembers members, rest)
  | _, _, .last k hblanks hblanks' hv hblanks'', fuel + 1, room, hdepth, hfuel, rest => by
    simp only [depthMembers, Nat.max_le] at hdepth
    simp only [List.length_append, List.length_cons] at hfuel
    have hvalue := readValue_spells hv fuel room hdepth.1 (by omega)
      (endsNumber_blanks hblanks'' (endsNumber_cons (c := '\x7d') (by decide) rest))
    rw [← readValue_blanks hblanks'] at hvalue
    simpa using readMembers_last k hblanks hvalue hblanks''
  | _, _, .cons k body hblanks hblanks' hv hmembers, fuel + 1, room, hdepth, hfuel, rest => by
    simp only [depthMembers, Nat.max_le] at hdepth
    simp only [List.length_append, List.length_cons] at hfuel
    have hvalue := readValue_spells hv fuel room hdepth.1 (by omega) (endsNumber_cons (c := ',') (by decide) (body ++ rest))
    have hrest := readMembers_spells hmembers fuel room hdepth.2 (by omega) rest
    rw [← readValue_blanks hblanks'] at hvalue
    have hread := readMembers_cons k hblanks hvalue
    rw [hrest, map_some] at hread
    simpa [unitMembers] using hread

end

/-- Every spelling of a value that does not nest too deep is the text of the value. -/
theorem parse?_of_spells (h : Spells v cs) (hdepth : v.depth ≤ maxNesting) : parse? (String.ofList cs) = some v := by
  have hends : EndsNumber [] := fun _ hc => by cases hc
  have hread := readValue_spells h (2 * cs.length + 2) maxNesting hdepth (by omega) hends
  rw [List.append_nil] at hread
  simp only [parse?, String.toList_ofList, hread, bind_eq_bind, bind_some]
  rfl

/-! ## Writing a spelling -/

mutual

/-- The value has a spelling: its numbers are in range and all its parts denote something. -/
def Writable : Json → Prop
  | .nat n => n < UInt64.size
  | .arr items => AllWritable items
  | .obj members => MembersWritable members
  | .decimal _ => False
  | .ill => False
  | _ => True

/-- All values have a spelling. -/
def AllWritable : List Json → Prop
  | [] => True
  | v :: rest => v.Writable ∧ AllWritable rest

/-- All members' values have a spelling. -/
def MembersWritable : List (String × Json) → Prop
  | [] => True
  | (_, v) :: rest => v.Writable ∧ MembersWritable rest

end

theorem blanks_nil : Blanks [] := fun _ h => by cases h

theorem blanks_space : Blanks [' '] := fun c hc => by rw [List.mem_singleton.1 hc]; rfl

theorem blanks_newLine (level : Nat) : Blanks (newLine level) := by
  intro c hc
  rcases List.mem_cons.1 hc with rfl | hc
  · rfl
  · rw [List.eq_of_mem_replicate hc]
    rfl

mutual

/-- A value is spelled without blanks. -/
theorem spells_compactChars : ∀ {v : Json}, v.Writable → Spells v v.compactChars
  | .null, _ => .null
  | .bool true, _ => .boolTrue
  | .bool false, _ => .boolFalse
  | .nat _, h => .nat h
  | .str s, _ => .str s
  | .arr [], _ => .noItems
  | .arr (v :: items), h => .arr (spells_compactItems (List.cons_ne_nil v items) h)
  | .obj [], _ => .noMembers
  | .obj (m :: members), h => .obj (spells_compactMembers (List.cons_ne_nil m members) h)

theorem spells_compactItems : ∀ {items : List Json}, items ≠ [] → AllWritable items → SpellsItems items (compactItems items)
  | [_], _, h => .last blanks_nil (spells_compactChars h.1) blanks_nil
  | _ :: w :: rest, _, h =>
    .cons _ blanks_nil (spells_compactChars h.1) (spells_compactItems (List.cons_ne_nil w rest) h.2)

theorem spells_compactMembers : ∀ {members : List (String × Json)}, members ≠ [] → MembersWritable members →
    SpellsMembers members (compactMembers members)
  | [(k, v)], _, h => by
    have hv := SpellsMembers.last k blanks_nil blanks_nil (spells_compactChars h.1) blanks_nil
    simpa [compactMembers] using hv
  | (k, v) :: m :: rest, _, h => by
    have hmembers := spells_compactMembers (List.cons_ne_nil m rest) h.2
    have hv := SpellsMembers.cons k _ blanks_nil blanks_nil (spells_compactChars h.1) hmembers
    simpa [compactMembers] using hv

end

mutual

/-- A value is spelled over indented lines. -/
theorem spells_prettyChars : ∀ {v : Json} (level : Nat), v.Writable → Spells v (v.prettyChars level)
  | .null, _, _ => .null
  | .bool true, _, _ => .boolTrue
  | .bool false, _, _ => .boolFalse
  | .nat _, _, h => .nat h
  | .str s, _, _ => .str s
  | .arr [], _, _ => .noItems
  | .arr (v :: items), level, h => by
    have hitems := spells_prettyItems level (spells_prettyChars (level + 1) h.1) h.2
    simpa [prettyChars] using Spells.arr hitems
  | .obj [], _, _ => .noMembers
  | .obj ((k, v) :: members), level, h => by
    have hmembers := spells_prettyMembers level k (spells_prettyChars (level + 1) h.1) h.2
    simpa [prettyChars] using Spells.obj hmembers

theorem spells_prettyItems : ∀ {items : List Json} (level : Nat) {v : Json} {cs : List Char}, Spells v cs → AllWritable items →
    SpellsItems (v :: items)
      (newLine (level + 1) ++ (cs ++ (prettyItems (level + 1) items ++ (newLine level ++ [']']))))
  | [], level, _, _, hv, _ => .last (blanks_newLine _) hv (blanks_newLine level)
  | _ :: _, level, _, _, hv, h => by
    have hitems := spells_prettyItems level (spells_prettyChars (level + 1) h.1) h.2
    simpa [prettyItems] using SpellsItems.cons _ (blanks_newLine (level + 1)) hv hitems

theorem spells_prettyMembers : ∀ {members : List (String × Json)} (level : Nat) (k : String) {v : Json} {cs : List Char},
    Spells v cs → MembersWritable members →
    SpellsMembers ((k, v) :: members)
      (newLine (level + 1) ++ (literal k ++ ':' :: ([' '] ++ (cs ++ (prettyMembers (level + 1) members ++
        (newLine level ++ ['\x7d']))))))
  | [], level, k, _, _, hv, _ => .last k (blanks_newLine _) blanks_space hv (blanks_newLine level)
  | (k', _) :: _, level, k, _, _, hv, h => by
    have hmembers := spells_prettyMembers level k' (spells_prettyChars (level + 1) h.1) h.2
    simpa [prettyMembers] using SpellsMembers.cons k _ (blanks_newLine (level + 1)) blanks_space hv hmembers

end

/-- Both writers write a text of the value. -/
theorem parse?_written (h : v.Writable) (hdepth : v.depth ≤ maxNesting) :
    parse? v.compact = some v ∧ parse? v.pretty = some v :=
  ⟨parse?_of_spells (spells_compactChars h) hdepth, parse?_of_spells (spells_prettyChars 0 h) hdepth⟩

end StoreCheck.Json
