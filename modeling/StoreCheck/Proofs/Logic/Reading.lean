import StoreCheck.Proofs.Logic.Naming

/-!
# Texts that can be read back

The text of a formula is a tree of words: a word alone, a word applied to trees, or a quantifier with its variables and a body. A
punctuation says how a word is put in front of its arguments and which characters separate and enclose. As words hold no such
character, a text says where each part of it ends, so that two trees with the same text are the same (`Tree.read_write`).
-/

namespace StoreCheck

open List

variable {w : String} {r r' : List Char}

/-! ## Words -/

/-- The character separates or encloses words. -/
def isDelimiter (c : Char) : Bool := c == '(' || c == ')' || c == '[' || c == ']' || c == ',' || c == ' '

/-- A word is not empty and holds no delimiter. -/
def IsWord (w : String) : Prop := w.toList ≠ [] ∧ ∀ c ∈ w.toList, isDelimiter c = false

theorem isWord_iff (w : String) : (!w.toList.isEmpty && w.toList.all fun c => !isDelimiter c) = true ↔ IsWord w := by
  simp [IsWord]

instance (w : String) : Decidable (IsWord w) := decidable_of_iff _ (isWord_iff w)

/-- The text is at its end or goes on with a delimiter. -/
def Delimited (r : List Char) : Prop := ∀ c ∈ r.head?, isDelimiter c = true

theorem isDelimiter_of_isNameChar (h : isNameChar c = true) : isDelimiter c = false := by
  by_contra hdelimiter
  simp only [Bool.not_eq_false, isDelimiter, Bool.or_eq_true, beq_iff_eq] at hdelimiter
  rcases hdelimiter with ((((rfl | rfl) | rfl) | rfl) | rfl) | rfl <;> revert h <;> decide

theorem isWord_of_isName (h : isName w = true) : IsWord w := by
  refine ⟨fun hnil => ?_, fun c hc => isDelimiter_of_isNameChar (isNameChar_of_isName h c hc)⟩
  simp [isName, hnil] at h

theorem isWord_nameOf (n : Nat) : IsWord (VarGen.nameOf n) := by
  have hlist : (VarGen.nameOf n).toList = 'V' :: (toString n).toList := by simp [VarGen.nameOf]
  refine ⟨by simp [hlist], fun c hc => ?_⟩
  rw [hlist] at hc
  rcases mem_cons.1 hc with rfl | hc
  · decide
  · exact isDelimiter_of_isNameChar (isNameChar_toString_nat c hc)

theorem IsWord.takeWhile (h : IsWord w) (hr : Delimited r) : (w.toList ++ r).takeWhile (fun c => !isDelimiter c) = w.toList := by
  rw [takeWhile_append_of_pos fun c hc => by simp [h.2 c hc]]
  cases r with
  | nil => simp
  | cons c r =>
    have hc := hr c (by simp)
    simp [hc]

/-- A word ends at the first delimiter. -/
theorem IsWord.read (h : IsWord w) (h' : IsWord w') (hr : Delimited r) (hr' : Delimited r')
    (heq : w.toList ++ r = w'.toList ++ r') : w = w' ∧ r = r' := by
  have hword : w.toList = w'.toList := by rw [← h.takeWhile hr, heq, h'.takeWhile hr']
  rw [hword] at heq
  exact ⟨String.toList_injective hword, append_cancel_left heq⟩

/-! ## Punctuation -/

/-- How trees of words are written. -/
structure Punctuation where
  /-- A word in front of its arguments. -/
  opening : String → List Char
  separator : Char
  /-- What encloses the variables of a quantifier. -/
  leftBracket : Char
  rightBracket : Char

namespace Punctuation

/-- The text is at its end, or goes on with a separator or a closing parenthesis. -/
def Ends (d : Punctuation) (r : List Char) : Prop := ∀ c ∈ r.head?, c = d.separator ∨ c = ')'

/-- What is needed to read texts back. -/
structure Lawful (d : Punctuation) : Prop where
  /-- An opening tells its word. -/
  opening : ∀ {w w' : String} {r r' : List Char}, IsWord w → IsWord w' → d.opening w ++ r = d.opening w' ++ r' → w = w' ∧ r = r'
  /-- A word that stands alone is not an opening. -/
  alone : ∀ {w w' : String} {r r' : List Char}, IsWord w → IsWord w' → d.Ends r → w.toList ++ r ≠ d.opening w' ++ r'
  separator : isDelimiter d.separator = true
  separator_ne_close : d.separator ≠ ')'
  separator_ne_bracket : d.separator ≠ d.rightBracket

theorem Lawful.delimited {d : Punctuation} (hd : d.Lawful) (h : d.Ends r) : Delimited r := by
  intro c hc
  rcases h c hc with rfl | rfl
  · exact hd.separator
  · decide

/-- Two words as a binder: the first one applied to the second. -/
def binder (d : Punctuation) (b : String × String) : List Char := d.opening b.1 ++ (b.2.toList ++ [')'])

/-- The binders after the first one, up to the closing bracket. -/
def binders (d : Punctuation) : List (String × String) → List Char
  | [] => [d.rightBracket]
  | b :: rest => d.separator :: (d.binder b ++ binders d rest)

variable {d : Punctuation}

theorem Lawful.read_binder (hd : d.Lawful) {b c : String × String} (hb : IsWord b.1 ∧ IsWord b.2) (hc : IsWord c.1 ∧ IsWord c.2)
    (heq : d.binder b ++ r = d.binder c ++ r') : b = c ∧ r = r' := by
  simp only [binder, append_assoc] at heq
  obtain ⟨hfirst, heq⟩ := hd.opening hb.1 hc.1 heq
  have hclose (r : List Char) : Delimited ([')'] ++ r) := by
    intro c hc
    cases hc
    decide
  obtain ⟨hsecond, heq⟩ := hb.2.read hc.2 (hclose r) (hclose r') heq
  exact ⟨Prod.ext hfirst hsecond, append_cancel_left heq⟩

theorem Lawful.read_binders (hd : d.Lawful) : ∀ (bs cs : List (String × String)) {r r' : List Char},
    (∀ b ∈ bs, IsWord b.1 ∧ IsWord b.2) → (∀ c ∈ cs, IsWord c.1 ∧ IsWord c.2) → d.binders bs ++ r = d.binders cs ++ r' →
    bs = cs ∧ r = r'
  | [], [], _, _, _, _, heq => ⟨rfl, append_cancel_left heq⟩
  | [], c :: cs, _, _, _, _, heq => (hd.separator_ne_bracket (List.cons.inj heq).1.symm).elim
  | b :: bs, [], _, _, _, _, heq => (hd.separator_ne_bracket (List.cons.inj heq).1).elim
  | b :: bs, c :: cs, _, _, hbs, hcs, heq => by
    simp only [binders, cons_append, append_assoc, List.cons.injEq, true_and] at heq
    obtain ⟨rfl, hrest⟩ := hd.read_binder (hbs b mem_cons_self) (hcs c mem_cons_self) heq
    obtain ⟨rfl, hafter⟩ := hd.read_binders bs cs (fun b' hb' => hbs b' (mem_cons_of_mem _ hb'))
      (fun c' hc' => hcs c' (mem_cons_of_mem _ hc')) hrest
    exact ⟨rfl, hafter⟩

end Punctuation

/-! ## Trees -/

/-- The words of a text, as a tree. -/
inductive Tree where
  | leaf (word : String)
  /-- A word applied to one or more trees. -/
  | node (word : String) (first : Tree) (rest : List Tree)
  /-- A quantifier over one or more variables, each given by two words. -/
  | quantifier (word : String) (first : String × String) (rest : List (String × String)) (body : Tree)

namespace Tree

/-- The word at the root. -/
def word : Tree → String
  | leaf w => w
  | node w _ _ => w
  | quantifier w _ _ _ => w

/-- The words of quantifiers. -/
def quantifiers : List String := ["forall", "exists"]

mutual

/-- The text of a tree. -/
def write (d : Punctuation) : Tree → List Char
  | leaf w => w.toList
  | node w first rest => d.opening w ++ (first.write d ++ writeRest d rest)
  | quantifier w first rest body =>
    d.opening w ++ d.leftBracket :: (d.binder first ++ (d.binders rest ++ d.separator :: (body.write d ++ [')'])))

/-- The arguments after the first one, up to the closing parenthesis. -/
def writeRest (d : Punctuation) : List Tree → List Char
  | [] => [')']
  | t :: rest => d.separator :: (t.write d ++ writeRest d rest)

end

mutual

/-- The tree consists of words, and quantifiers and other words are told apart. -/
def Readable : Tree → Prop
  | leaf w => IsWord w
  | node w first rest => IsWord w ∧ w ∉ quantifiers ∧ first.Readable ∧ AllReadable rest
  | quantifier w first rest body =>
    IsWord w ∧ w ∈ quantifiers ∧ (IsWord first.1 ∧ IsWord first.2) ∧ (∀ b ∈ rest, IsWord b.1 ∧ IsWord b.2) ∧ body.Readable

/-- All trees are readable. -/
def AllReadable : List Tree → Prop
  | [] => True
  | t :: rest => t.Readable ∧ AllReadable rest

end

variable {d : Punctuation}

theorem ends_writeRest (ts : List Tree) (r : List Char) : d.Ends (writeRest d ts ++ r) := by
  intro c hc
  cases ts with
  | nil =>
    cases hc
    exact .inr rfl
  | cons t ts =>
    cases hc
    exact .inl rfl

theorem ends_close (r : List Char) : d.Ends ([')'] ++ r) := by
  intro c hc
  cases hc
  exact .inr rfl

mutual

/-- Two readable trees whose texts begin alike are the same, and so is what comes after them. -/
theorem read_write (hd : d.Lawful) : ∀ (t u : Tree) {r r' : List Char}, t.Readable → u.Readable → d.Ends r → d.Ends r' →
    t.write d ++ r = u.write d ++ r' → t = u ∧ r = r'
  | leaf w, leaf w', _, _, ht, hu, hr, hr', heq => by
    obtain ⟨rfl, hrest⟩ := ht.read hu (hd.delimited hr) (hd.delimited hr') heq
    exact ⟨rfl, hrest⟩
  | leaf w, node w' first rest, _, _, ht, hu, hr, _, heq => by
    simp only [write, Readable, append_assoc] at heq ht hu
    exact (hd.alone ht hu.1 hr heq).elim
  | leaf w, quantifier w' first rest body, _, _, ht, hu, hr, _, heq => by
    simp only [write, Readable, append_assoc] at heq ht hu
    exact (hd.alone ht hu.1 hr heq).elim
  | node w first rest, leaf w', _, _, ht, hu, _, hr', heq => by
    simp only [write, Readable, append_assoc] at heq ht hu
    exact (hd.alone hu ht.1 hr' heq.symm).elim
  | node w first rest, node w' first' rest', _, _, ht, hu, _, _, heq => by
    simp only [write, Readable, append_assoc] at heq ht hu
    obtain ⟨rfl, harguments⟩ := hd.opening ht.1 hu.1 heq
    obtain ⟨rfl, hrest⟩ := read_write hd first first' ht.2.2.1 hu.2.2.1 (ends_writeRest _ _) (ends_writeRest _ _) harguments
    obtain ⟨rfl, hafter⟩ := read_writeRest hd rest rest' ht.2.2.2 hu.2.2.2 hrest
    exact ⟨rfl, hafter⟩
  | node w first rest, quantifier w' first' rest' body, _, _, ht, hu, _, _, heq => by
    simp only [write, Readable, append_assoc] at heq ht hu
    obtain ⟨rfl, -⟩ := hd.opening ht.1 hu.1 heq
    exact (ht.2.1 hu.2.1).elim
  | quantifier w first rest body, leaf w', _, _, ht, hu, _, hr', heq => by
    simp only [write, Readable, append_assoc] at heq ht hu
    exact (hd.alone hu ht.1 hr' heq.symm).elim
  | quantifier w first rest body, node w' first' rest', _, _, ht, hu, _, _, heq => by
    simp only [write, Readable, append_assoc] at heq ht hu
    obtain ⟨rfl, -⟩ := hd.opening ht.1 hu.1 heq
    exact (hu.2.1 ht.2.1).elim
  | quantifier w first rest body, quantifier w' first' rest' body', r, r', ht, hu, _, _, heq => by
    simp only [write, Readable, append_assoc, cons_append] at heq ht hu
    obtain ⟨rfl, hbrackets⟩ := hd.opening ht.1 hu.1 heq
    obtain ⟨rfl, hbinders⟩ := hd.read_binder ht.2.2.1 hu.2.2.1 (List.cons.inj hbrackets).2
    obtain ⟨rfl, hbody⟩ := hd.read_binders rest rest' ht.2.2.2.1 hu.2.2.2.1 hbinders
    obtain ⟨rfl, hafter⟩ :=
      read_write hd body body' ht.2.2.2.2 hu.2.2.2.2 (ends_close r) (ends_close r') (List.cons.inj hbody).2
    exact ⟨rfl, append_cancel_left hafter⟩

theorem read_writeRest (hd : d.Lawful) : ∀ (ts us : List Tree) {r r' : List Char}, AllReadable ts → AllReadable us →
    writeRest d ts ++ r = writeRest d us ++ r' → ts = us ∧ r = r'
  | [], [], _, _, _, _, heq => ⟨rfl, append_cancel_left heq⟩
  | [], u :: us, _, _, _, _, heq => by
    exact (hd.separator_ne_close (List.cons.inj heq).1.symm).elim
  | t :: ts, [], _, _, _, _, heq => by
    exact (hd.separator_ne_close (List.cons.inj heq).1).elim
  | t :: ts, u :: us, _, _, hts, hus, heq => by
    simp only [writeRest, AllReadable, cons_append, append_assoc, List.cons.injEq, true_and] at heq hts hus
    obtain ⟨rfl, hrest⟩ := read_write hd t u hts.1 hus.1 (ends_writeRest _ _) (ends_writeRest _ _) heq
    obtain ⟨rfl, hafter⟩ := read_writeRest hd ts us hts.2 hus.2 hrest
    exact ⟨rfl, hafter⟩

end

end Tree

end StoreCheck
