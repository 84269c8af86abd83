import StoreCheck.Logic.Dfg
import StoreCheck.Logic.SmtLib
import StoreCheck.Proofs.Induction
import StoreCheck.Proofs.Logic.Reading

/-!
# The renderings of a formula as trees of words

Both dialects write a formula as a tree of words. They differ in how trees are written, in the words for equality, equivalence and
implication, and in the order of the words of a binder (`Spelling`). The text of a formula is the text of its tree
(`Dfg.toList_formula`, `SmtLib.toList_formula`).
-/

namespace StoreCheck

open List StoreCheck.Tree Formula

variable {t : Tree} {texts args : List String} {ts : List Tree} {w : Spelling}

/-! ## Formulas as trees of words -/

/-- A dialect with the words that differ between dialects. -/
structure Spelling extends Punctuation where
  equal : String
  equiv : String
  implies : String
  /-- The two words of a binder, from the names of the variable and of its sort. -/
  binderWords : String → String → String × String

namespace Spelling

/-- The DFG dialect. -/
def dfg : Spelling where
  opening w := w.toList ++ ['(']
  separator := ','
  leftBracket := '['
  rightBracket := ']'
  equal := "equal"
  equiv := "equiv"
  implies := "implies"
  binderWords x a := (a, x)

/-- The SMT-LIB dialect. -/
def smtLib : Spelling where
  opening w := '(' :: (w.toList ++ [' '])
  separator := ' '
  leftBracket := '('
  rightBracket := ')'
  equal := "="
  equiv := "="
  implies := "=>"
  binderWords x a := (x, a)

end Spelling

namespace Tree

/-- A word applied to trees; without trees the word alone. -/
def apply (w : String) : List Tree → Tree
  | [] => .leaf w
  | t :: rest => .node w t rest

/-- A junction of trees: its unit without any, the tree itself for one. -/
def junction (w unit : String) : List Tree → Tree
  | [] => .leaf unit
  | [t] => t
  | t :: u :: rest => .node w t (u :: rest)

/-- A quantifier; without variables the body alone. -/
def quantify (w : String) (binders : List (String × String)) (body : Tree) : Tree :=
  match binders with
  | [] => body
  | b :: rest => .quantifier w b rest body

end Tree

mutual

/-- The words of a term. -/
def Term.tree (s : Symbols) : Term → Tree
  | .var name => .leaf name
  | .app f args => .apply (s.funcName f) (Term.trees s args)

/-- The words of terms. -/
def Term.trees (s : Symbols) : List Term → List Tree
  | [] => []
  | t :: rest => t.tree s :: Term.trees s rest

end

namespace Spelling

@[simp] theorem dfg_opening (w : String) : dfg.opening w = w.toList ++ ['('] := rfl

@[simp] theorem dfg_separator : dfg.separator = ',' := rfl

@[simp] theorem smtLib_opening (w : String) : smtLib.opening w = '(' :: (w.toList ++ [' ']) := rfl

@[simp] theorem smtLib_separator : smtLib.separator = ' ' := rfl

/-- The words of a binder. -/
def binderOf (w : Spelling) (s : Symbols) (b : Binder) : String × String := w.binderWords b.name (s.sortName b.sort)

end Spelling

mutual

/-- The words of a formula. -/
def Formula.tree (w : Spelling) (s : Symbols) : Formula → Tree
  | .top => .leaf "true"
  | .bot => .leaf "false"
  | .atom p args => .apply (s.predName p) (Term.trees s args)
  | .eq a b => .node w.equal (a.tree s) [b.tree s]
  | .not f => .node "not" (f.tree w s) []
  | .and parts => .junction "and" "true" (Formula.trees w s parts)
  | .or parts => .junction "or" "false" (Formula.trees w s parts)
  | .implies a b => .node w.implies (a.tree w s) [b.tree w s]
  | .iff a b => .node w.equiv (a.tree w s) [b.tree w s]
  | .forAll vars body => .quantify "forall" (vars.map (w.binderOf s)) (body.tree w s)
  | .forSome vars body => .quantify "exists" (vars.map (w.binderOf s)) (body.tree w s)

/-- The words of formulas. -/
def Formula.trees (w : Spelling) (s : Symbols) : List Formula → List Tree
  | [] => []
  | f :: rest => f.tree w s :: Formula.trees w s rest

end

theorem Formula.length_trees (w : Spelling) (s : Symbols) : ∀ fs : List Formula, (trees w s fs).length = fs.length
  | [] => rfl
  | f :: rest => by simp [trees, length_trees w s rest]

/-! ## The text of a formula is that of its tree -/

theorem intercalate_cons (c : Char) (x : List Char) : ∀ xs : List (List Char),
    List.intercalate [c] (x :: xs) = x ++ xs.flatMap (c :: ·)
  | [] => by simp [List.intercalate]
  | y :: rest => by
    have ih := intercalate_cons c y rest
    simp only [List.intercalate, intersperse_cons_cons, flatten_cons, flatMap_cons] at ih ⊢
    rw [ih]
    simp

theorem writeRest_eq (d : Punctuation) : ∀ ts : List Tree,
    writeRest d ts = (ts.map (write d)).flatMap (d.separator :: ·) ++ [')']
  | [] => rfl
  | t :: rest => by simp [writeRest, writeRest_eq d rest]

theorem binders_eq (d : Punctuation) : ∀ bs : List (String × String),
    d.binders bs = (bs.map d.binder).flatMap (d.separator :: ·) ++ [d.rightBracket]
  | [] => rfl
  | b :: rest => by simp [Punctuation.binders, binders_eq d rest]

/-- The strings are the texts of the trees. -/
def TextsOf (w : Spelling) (texts : List String) (ts : List Tree) : Prop := texts.map String.toList = ts.map (Tree.write w.toPunctuation)

theorem TextsOf.cons {text : String} (h : text.toList = t.write w.toPunctuation) (hrest : TextsOf w texts ts) :
    TextsOf w (text :: texts) (t :: ts) := by
  simp only [TextsOf, map_cons, h]
  exact congrArg _ hrest

theorem TextsOf.cases (h : TextsOf w texts ts) :
    (texts = [] ∧ ts = []) ∨ ∃ text t texts' ts', texts = text :: texts' ∧ ts = t :: ts' ∧ text.toList = t.write w.toPunctuation ∧
      TextsOf w texts' ts' := by
  cases texts with
  | nil =>
    refine .inl ⟨rfl, ?_⟩
    simpa [TextsOf] using h.symm
  | cons text texts =>
    cases ts with
    | nil => simp [TextsOf] at h
    | cons t ts => exact .inr ⟨text, t, texts, ts, rfl, rfl, (List.cons.inj h).1, (List.cons.inj h).2⟩

namespace Dfg

open Spelling

theorem toList_applied (head : String) (h : TextsOf dfg args ts) :
    (applied head args).toList = (apply head ts).write dfg.toPunctuation := by
  obtain ⟨rfl, rfl⟩ | ⟨a, t, args, ts, rfl, rfl, ha, hargs⟩ := h.cases
  · rw [applied, apply, write]
  · have hsep : ",".toList = [','] := rfl
    simp only [applied, String.toList_append, String.toList_intercalate, map_cons, ha, hsep, intercalate_cons]
    rw [hargs]
    simp [apply, write, writeRest_eq]

theorem toList_junction (op unit : String) (h : TextsOf dfg args ts) :
    (junction op unit args).toList = (Tree.junction op unit ts).write dfg.toPunctuation := by
  obtain ⟨rfl, rfl⟩ | ⟨a, t, args, ts, rfl, rfl, ha, hargs⟩ := h.cases
  · rw [junction, Tree.junction, Tree.write]
  · obtain ⟨rfl, rfl⟩ | ⟨b, u, args, ts, rfl, rfl, hb, hargs⟩ := hargs.cases
    · exact ha
    · exact toList_applied op (.cons ha (.cons hb hargs))

theorem toList_quantifier (s : Symbols) (op : String) (vars : List Binder) {body : String} {t : Tree}
    (h : body.toList = t.write dfg.toPunctuation) :
    (quantifier s op vars body).toList = (quantify op (vars.map (dfg.binderOf s)) t).write dfg.toPunctuation := by
  cases vars with
  | nil => exact h
  | cons b vars =>
    have hsep : ",".toList = [','] := rfl
    have hbinder (b : Binder) : (s.sortName b.sort ++ "(" ++ b.name ++ ")").toList = dfg.binder (dfg.binderOf s b) := by
      simp [Punctuation.binder, binderOf, dfg]
    simp only [quantifier, isEmpty_cons, Bool.false_eq_true, if_false, String.toList_append, String.toList_intercalate,
      map_cons, map_map, hbinder, hsep, intercalate_cons, h, Function.comp_def]
    simp [quantify, write, binders_eq, Function.comp_def, dfg]

mutual

theorem toList_term (s : Symbols) : ∀ t : Term, (term s t).toList = (t.tree s).write dfg.toPunctuation
  | .var name => by rw [term, Term.tree, write]
  | .app f args => by
    exact toList_applied _ (textsOf_terms s args)

theorem textsOf_terms (s : Symbols) : ∀ ts : List Term, TextsOf dfg (terms s ts) (Term.trees s ts)
  | [] => by
    rfl
  | t :: rest => by
    exact .cons (toList_term s t) (textsOf_terms s rest)

end

theorem textsOf_formulas {s : Symbols} : ∀ {fs : List Formula},
    (∀ f ∈ fs, (formula s f).toList = (f.tree dfg s).write dfg.toPunctuation) → TextsOf dfg (formulas s fs) (trees dfg s fs)
  | [], _ => rfl
  | _ :: _, h => .cons (h _ mem_cons_self) (textsOf_formulas (forall_mem_cons.1 h).2)

/-- The text of a formula in the DFG dialect. -/
theorem toList_formula (s : Symbols) (f : Formula) : (formula s f).toList = (f.tree dfg s).write dfg.toPunctuation := by
  induction f with
  | top | bot => rw [formula, tree, write]
  | atom p args => exact toList_applied _ (textsOf_terms s args)
  | eq a b => simp [formula, tree, write, writeRest, toList_term, dfg]
  | not f ih => simp [formula, tree, write, writeRest, ih, dfg]
  | and parts ih | or parts ih => exact toList_junction _ _ (textsOf_formulas ih)
  | implies a b iha ihb | iff a b iha ihb => simp [formula, tree, write, writeRest, iha, ihb, dfg]
  | forAll vars body ih | forSome vars body ih => exact toList_quantifier s _ vars ih

end Dfg

namespace SmtLib

open Spelling

theorem toList_applied (head : String) {a : String} (ha : a.toList = t.write smtLib.toPunctuation) (hargs : TextsOf smtLib args ts) :
    (applied head (a :: args)).toList = (node head t ts).write smtLib.toPunctuation := by
  have hsep : " ".toList = [' '] := rfl
  simp only [applied, String.toList_append, String.toList_intercalate, map_cons, ha, hsep, intercalate_cons]
  rw [hargs]
  simp [write, writeRest_eq]

theorem toList_symbolApplied (name : String) (h : TextsOf smtLib args ts) :
    (symbolApplied name args).toList = (apply name ts).write smtLib.toPunctuation := by
  obtain ⟨rfl, rfl⟩ | ⟨a, t, args, ts, rfl, rfl, ha, hargs⟩ := h.cases
  · rw [symbolApplied, apply, write]
  · exact toList_applied name ha hargs

theorem toList_junction (op unit : String) (h : TextsOf smtLib args ts) :
    (junction op unit args).toList = (Tree.junction op unit ts).write smtLib.toPunctuation := by
  obtain ⟨rfl, rfl⟩ | ⟨a, t, args, ts, rfl, rfl, ha, hargs⟩ := h.cases
  · rw [junction, Tree.junction, Tree.write]
  · obtain ⟨rfl, rfl⟩ | ⟨b, u, args, ts, rfl, rfl, hb, hargs⟩ := hargs.cases
    · exact ha
    · exact toList_applied op ha (.cons hb hargs)

theorem toList_quantifier (s : Symbols) (op : String) (vars : List Binder) {body : String} {t : Tree}
    (h : body.toList = t.write smtLib.toPunctuation) :
    (quantifier s op vars body).toList = (quantify op (vars.map (smtLib.binderOf s)) t).write smtLib.toPunctuation := by
  cases vars with
  | nil => exact h
  | cons b vars =>
    have hsep : " ".toList = [' '] := rfl
    have hbinder (b : Binder) : ("(" ++ b.name ++ " " ++ s.sortName b.sort ++ ")").toList = smtLib.binder (smtLib.binderOf s b) := by
      simp [Punctuation.binder, binderOf, smtLib]
    simp only [quantifier, isEmpty_cons, Bool.false_eq_true, if_false, String.toList_append, String.toList_intercalate,
      map_cons, map_map, hbinder, hsep, intercalate_cons, h, Function.comp_def]
    simp [quantify, write, binders_eq, Function.comp_def, smtLib]

mutual

theorem toList_term (s : Symbols) : ∀ t : Term, (term s t).toList = (t.tree s).write smtLib.toPunctuation
  | .var name => by rw [term, Term.tree, write]
  | .app f args => by
    exact toList_symbolApplied _ (textsOf_terms s args)

theorem textsOf_terms (s : Symbols) : ∀ ts : List Term, TextsOf smtLib (terms s ts) (Term.trees s ts)
  | [] => by
    rfl
  | t :: rest => by
    exact .cons (toList_term s t) (textsOf_terms s rest)

end

theorem textsOf_formulas {s : Symbols} : ∀ {fs : List Formula},
    (∀ f ∈ fs, (formula s f).toList = (f.tree smtLib s).write smtLib.toPunctuation) → TextsOf smtLib (formulas s fs) (trees smtLib s fs)
  | [], _ => rfl
  | _ :: _, h => .cons (h _ mem_cons_self) (textsOf_formulas (forall_mem_cons.1 h).2)

/-- The text of a formula in the SMT-LIB dialect. -/
theorem toList_formula (s : Symbols) (f : Formula) : (formula s f).toList = (f.tree smtLib s).write smtLib.toPunctuation := by
  induction f with
  | top | bot => rw [formula, tree, write]
  | atom p args => exact toList_symbolApplied _ (textsOf_terms s args)
  | eq a b => exact toList_applied _ (toList_term s a) (.cons (toList_term s b) rfl)
  | not f ih => exact toList_applied _ ih rfl
  | and parts ih | or parts ih => exact toList_junction _ _ (textsOf_formulas ih)
  | implies a b iha ihb | iff a b iha ihb => exact toList_applied _ iha (.cons ihb rfl)
  | forAll vars body ih | forSome vars body ih => exact toList_quantifier s _ vars ih

end SmtLib

end StoreCheck
