import StoreCheck.Proofs.Induction
import StoreCheck.Proofs.Logic.Rendering
import StoreCheck.Proofs.Logic.Simplified

/-!
# Renderings are unambiguous

Where every symbol has a name of its own, the tree of words of a formula tells the formula: a keyword is never the name of a symbol,
and a term never looks like a formula, so that an equation between terms and an equivalence can share a word. As a text tells its tree,
two formulas with the same text are the same, in each dialect. Junctions of fewer than two parts and quantifiers without variables are
the exceptions; the simplifying constructors do not make them.
-/

namespace StoreCheck

open List Formula StoreCheck.Tree Spelling Term Symbols

variable {name x unit : String} {body : Tree} {render : Formula → String}

/-! ## The words of a dialect -/

namespace Spelling

/-- The words for constants and connectives that all dialects share. -/
def shared : List String := ["true", "false", "not", "and", "or"]

/-- The words that stand for constants and connectives. -/
def keywords (w : Spelling) : List String := shared ++ [w.implies, w.equal, w.equiv]

/-- What is needed to tell a formula from its tree of words. -/
structure Lawful (w : Spelling) : Prop where
  punctuation : w.toPunctuation.Lawful
  words : ∀ x ∈ w.keywords, IsWord x ∧ x ∉ Tree.quantifiers
  /-- No symbol is called like a keyword. -/
  names : ∀ x ∈ w.keywords, isName x = true → x ∈ reservedWords
  notVariable : ∀ x ∈ w.keywords, x.toList.head? ≠ some 'V'
  implies : w.implies ∉ shared
  equal : w.equal ∉ w.implies :: shared
  equiv : w.equiv ∉ w.implies :: shared
  binderWords : ∀ {x y a b : String}, w.binderWords x a = w.binderWords y b → x = y ∧ a = b
  binderWords_words : ∀ {x a : String}, IsWord x → IsWord a → IsWord (w.binderWords x a).1 ∧ IsWord (w.binderWords x a).2

theorem lawful_dfg : dfg.Lawful where
  punctuation := by
    refine ⟨fun hw hw' heq => ?_, fun hw hw' hr heq => ?_, by decide, by decide, by decide⟩
    · simp only [dfg_opening, append_assoc, singleton_append] at heq
      obtain ⟨rfl, hrest⟩ := hw.read hw' (by simp [Delimited, isDelimiter]) (by simp [Delimited, isDelimiter]) heq
      exact ⟨rfl, (List.cons.inj hrest).2⟩
    · simp only [dfg_opening, append_assoc, singleton_append] at heq
      -- an opening parenthesis would come after the word
      have hr' : Delimited _ := fun c hc => by
        rcases hr c hc with rfl | rfl <;> decide
      obtain ⟨-, rfl⟩ := hw.read hw' hr' (by simp [Delimited, isDelimiter]) heq
      have hopen := hr '(' rfl
      revert hopen
      decide
  words := by decide
  names := by decide
  notVariable := by decide
  implies := by decide
  equal := by decide
  equiv := by decide
  binderWords := fun h => ⟨congrArg Prod.snd h, congrArg Prod.fst h⟩
  binderWords_words := fun hx ha => ⟨ha, hx⟩

theorem lawful_smtLib : smtLib.Lawful where
  punctuation := by
    refine ⟨fun hw hw' heq => ?_, fun {w w' r r'} hw hw' hr heq => ?_, by decide, by decide, by decide⟩
    · simp only [smtLib_opening, cons_append, append_assoc, List.cons.injEq, true_and] at heq
      obtain ⟨rfl, hrest⟩ := hw.read hw' (by simp [Delimited, isDelimiter]) (by simp [Delimited, isDelimiter]) heq
      exact ⟨rfl, (List.cons.inj hrest).2⟩
    · -- a word does not begin with a parenthesis
      obtain ⟨c, rest, hlist⟩ := exists_cons_of_ne_nil hw.1
      have hc := hw.2 c (by simp [hlist])
      rw [hlist] at heq
      simp only [smtLib_opening, cons_append, List.cons.injEq] at heq
      rw [heq.1] at hc
      revert hc
      decide
  words := by decide
  names := by decide
  notVariable := by decide
  implies := by decide
  equal := by decide
  equiv := by decide
  binderWords := fun h => ⟨congrArg Prod.fst h, congrArg Prod.snd h⟩
  binderWords_words := fun hx ha => ⟨hx, ha⟩

end Spelling

/-! ## The trees of formulas consist of words -/

section Words

variable {s : Symbols} {w : Spelling}

theorem Symbols.Named.isWord (hs : s.Named) (h : name ∈ s.allNames) : IsWord name :=
  isWord_of_isName (hs.isName name h)

theorem Symbols.Named.notQuantifier (hs : s.Named) (h : name ∈ s.allNames) : name ∉ quantifiers := by
  have hreserved : ∀ x ∈ quantifiers, x ∈ reservedWords := by decide
  exact fun hmem => hs.notReserved name h (hreserved name hmem)

theorem Tree.readable_apply (hx : IsWord x) (hquantifier : x ∉ quantifiers) : ∀ {ts : List Tree}, AllReadable ts →
    (apply x ts).Readable
  | [], _ => by
    exact hx
  | t :: ts, h => by
    exact ⟨hx, hquantifier, h⟩

theorem Tree.readable_junction (hx : IsWord x) (hquantifier : x ∉ quantifiers) (hunit : IsWord unit) :
    ∀ {ts : List Tree}, AllReadable ts → (junction x unit ts).Readable
  | [], _ => by
    exact hunit
  | [t], h => by
    exact h.1
  | t :: u :: ts, h => by
    exact ⟨hx, hquantifier, h⟩

theorem Tree.readable_quantify (hx : IsWord x) (hquantifier : x ∈ quantifiers) {body : Tree} (hbody : body.Readable) :
    ∀ {bs : List (String × String)}, (∀ b ∈ bs, IsWord b.1 ∧ IsWord b.2) → (quantify x bs body).Readable
  | [], _ => hbody
  | b :: bs, h => by
    obtain ⟨hb, hbs⟩ := forall_mem_cons.1 h
    exact ⟨hx, hquantifier, hb, hbs, hbody⟩

mutual

theorem Term.readable_tree (hs : s.Named) : ∀ t : Term, t.Over s → (t.tree s).Readable
  | .var x, h => by
    obtain ⟨n, rfl⟩ := h
    exact isWord_nameOf n
  | .app f args, h => by
    have hmem := funcName_mem_allNames h.1
    exact readable_apply (hs.isWord hmem) (hs.notQuantifier hmem) (readable_trees hs args h.2)

theorem Term.readable_trees (hs : s.Named) : ∀ ts : List Term, Term.AllOver s ts → Tree.AllReadable (trees s ts)
  | [], _ => by
    exact trivial
  | t :: rest, h => by
    exact ⟨readable_tree hs t h.1, readable_trees hs rest h.2⟩

end

theorem Spelling.Lawful.words_binders (hw : w.Lawful) (hs : s.Named) {vars : List Binder} (h : ∀ b ∈ vars, b.Over s) :
    ∀ b ∈ vars.map (w.binderOf s), IsWord b.1 ∧ IsWord b.2 := by
  intro _ hmem
  obtain ⟨b, hb, rfl⟩ := mem_map.1 hmem
  obtain ⟨hsort, n, hname⟩ := h b hb
  refine hw.binderWords_words ?_ (hs.isWord (sortName_mem_allNames hsort))
  rw [hname]
  exact isWord_nameOf n

theorem Formula.readable_trees (hfs : ∀ f ∈ fs, f.Over s → (f.tree w s).Readable) (h : Formula.AllOver s fs) :
    Tree.AllReadable (trees w s fs) := by
  induction fs with
  | nil => trivial
  | cons f rest ih =>
    obtain ⟨hf, hrest⟩ := forall_mem_cons.1 hfs
    exact ⟨hf h.1, ih hrest h.2⟩

theorem Formula.readable_tree (hw : w.Lawful) (hs : s.Named) (f : Formula) (h : f.Over s) : (f.tree w s).Readable := by
  induction f with
  | top | bot =>
    rw [Formula.tree, Tree.Readable]
    decide
  | atom p args =>
    have hmem := Symbols.predName_mem_allNames h.1
    exact Tree.readable_apply (hs.isWord hmem) (hs.notQuantifier hmem) (Term.readable_trees hs args h.2)
  | eq a b =>
    obtain ⟨hword, hquantifier⟩ := hw.words w.equal (by simp [Spelling.keywords, Spelling.shared])
    exact ⟨hword, hquantifier, Term.readable_tree hs a h.1, Term.readable_tree hs b h.2, trivial⟩
  | not f ih => exact ⟨by decide, by decide, ih h, trivial⟩
  | and parts ih | or parts ih =>
    exact Tree.readable_junction (by decide) (by decide) (by decide) (Formula.readable_trees ih h)
  | implies a b iha ihb =>
    obtain ⟨hword, hquantifier⟩ := hw.words w.implies (by simp [Spelling.keywords, Spelling.shared])
    exact ⟨hword, hquantifier, iha h.1, ihb h.2, trivial⟩
  | iff a b iha ihb =>
    obtain ⟨hword, hquantifier⟩ := hw.words w.equiv (by simp [Spelling.keywords, Spelling.shared])
    exact ⟨hword, hquantifier, iha h.1, ihb h.2, trivial⟩
  | forAll vars body ih | forSome vars body ih =>
    exact Tree.readable_quantify (by decide) (by decide) (ih h.2) (hw.words_binders hs h.1)

end Words

/-! ## A tree tells its formula -/

theorem Tree.apply_injective : ∀ {ts us : List Tree}, apply x ts = apply y us → x = y ∧ ts = us
  | [], [], h => ⟨leaf.inj h, rfl⟩
  | [], u :: us, h => by cases h
  | t :: ts, [], h => by cases h
  | t :: ts, u :: us, h => by
    obtain ⟨hx, ht, hts⟩ := node.inj h
    exact ⟨hx, by rw [ht, hts]⟩

theorem Tree.junction_injective : ∀ {ts us : List Tree}, 2 ≤ ts.length → 2 ≤ us.length →
    junction x unit ts = junction x unit us → ts = us
  | t :: t' :: ts, u :: u' :: us, _, _, h => by
    obtain ⟨-, ht, hts⟩ := node.inj h
    rw [ht, hts]

theorem Tree.quantify_injective : ∀ {bs cs : List (String × String)}, bs ≠ [] → cs ≠ [] →
    quantify x bs body = quantify x cs body' → bs = cs ∧ body = body'
  | b :: bs, c :: cs, _, _, h => by
    obtain ⟨-, hb, hbs, hbody⟩ := quantifier.inj h
    exact ⟨by rw [hb, hbs], hbody⟩
  | [], _, h, _, _ => (h rfl).elim
  | _ :: _, [], _, h, _ => (h rfl).elim

section Injective

variable {s : Symbols} {w : Spelling}

/-- A name is not a variable. -/
theorem Symbols.Named.ne_nameOf (hs : s.Named) (h : name ∈ s.allNames) (n : Nat) : name ≠ VarGen.nameOf n :=
  ne_nameOf_of_isName (hs.isName _ h) n

mutual

theorem Term.tree_injective (hs : s.Named) : ∀ t u : Term, t.Over s → u.Over s → t.tree s = u.tree s → t = u
  | .var x, .var y, _, _, h => by
    rw [leaf.inj h]
  | .var x, .app g us, ht, hu, h => by
    obtain ⟨n, rfl⟩ := ht
    have hname := (@Tree.apply_injective _ _ [] _ h).1
    exact (hs.ne_nameOf (funcName_mem_allNames hu.1) n hname.symm).elim
  | .app f ts, .var y, ht, hu, h => by
    obtain ⟨n, rfl⟩ := hu
    have hname := (@Tree.apply_injective _ _ _ [] h).1
    exact (hs.ne_nameOf (funcName_mem_allNames ht.1) n hname).elim
  | .app f ts, .app g us, ht, hu, h => by
    obtain ⟨hname, htrees⟩ := apply_injective h
    rw [hs.funcName_injective ht.1 hu.1 hname, trees_injective hs ts us ht.2 hu.2 htrees]

theorem Term.trees_injective (hs : s.Named) : ∀ ts us : List Term, Term.AllOver s ts → Term.AllOver s us →
    trees s ts = trees s us → ts = us
  | [], [], _, _, _ => rfl
  | [], u :: us, _, _, h => by
    cases h
  | t :: ts, [], _, _, h => by
    cases h
  | t :: ts, u :: us, ht, hu, h => by
    obtain ⟨hfirst, hrest⟩ := List.cons.inj h
    rw [tree_injective hs t u ht.1 hu.1 hfirst, trees_injective hs ts us ht.2 hu.2 hrest]

end

theorem Tree.word_apply (x : String) (ts : List Tree) : (apply x ts).word = x := by cases ts <;> rfl

theorem Tree.word_junction {ts : List Tree} (h : 2 ≤ ts.length) : (junction x unit ts).word = x := by
  match ts, h with
  | t :: u :: ts, _ => rfl

theorem Tree.word_quantify (h : bs ≠ []) : (quantify x bs body).word = x := by
  cases bs with
  | nil => exact (h rfl).elim
  | cons b bs => rfl

variable {f : Formula}

/-- The word at the root of a formula is a keyword, a quantifier or the name of a predicate. -/
theorem Formula.word_tree (hf : f.Plain) (hover : f.Over s) :
    (f.tree w s).word ∈ w.keywords ++ quantifiers ∨ ∃ p : PredId, p.index < s.predicates.length ∧ (f.tree w s).word = s.predName p := by
  cases f with
  | atom p args =>
    exact .inr ⟨p, hover.1, by rw [tree, word_apply]⟩
  | and parts =>
    rw [tree, word_junction (by rw [length_trees]; exact hf.1)]
    exact .inl (by simp [keywords, shared])
  | or parts =>
    rw [tree, word_junction (by rw [length_trees]; exact hf.1)]
    exact .inl (by simp [keywords, shared])
  | forAll vars body =>
    rw [tree, word_quantify (by simpa using hf.1)]
    exact .inl (by simp [quantifiers])
  | forSome vars body =>
    rw [tree, word_quantify (by simpa using hf.1)]
    exact .inl (by simp [quantifiers])
  | _ => exact .inl (by simp [tree, word, keywords, shared])

theorem Spelling.Lawful.notKeyword (hw : w.Lawful) (hs : s.Named) (h : name ∈ s.allNames) : name ∉ w.keywords :=
  fun hmem => hs.notReserved name h (hw.names name hmem (hs.isName name h))

/-- A term never looks like a formula. -/
theorem Term.tree_ne_tree (hw : w.Lawful) (hs : s.Named) {t : Term} (ht : t.Over s) (hf : f.Plain)
    (hover : f.Over s) : t.tree s ≠ f.tree w s := by
  intro heq
  have hword := word_tree (w := w) hf hover
  rw [← heq] at hword
  cases t with
  | var x =>
    obtain ⟨n, rfl⟩ := ht
    have hlist : (VarGen.nameOf n).toList.head? = some 'V' := by simp [VarGen.nameOf]
    have hquantifiers : ∀ x ∈ quantifiers, x.toList.head? ≠ some 'V' := by decide
    rcases hword with hmem | ⟨p, hp, hname⟩
    · rcases mem_append.1 hmem with hmem | hmem
      · exact hw.notVariable _ hmem hlist
      · exact hquantifiers _ hmem hlist
    · exact hs.ne_nameOf (predName_mem_allNames hp) n hname.symm
  | app g args =>
    rw [tree, word_apply] at hword
    have hname := funcName_mem_allNames ht.1
    rcases hword with hmem | ⟨p, hp, hpred⟩
    · rcases mem_append.1 hmem with hmem | hmem
      · exact hw.notKeyword hs hname hmem
      · exact hs.notQuantifier hname hmem
    · exact hs.predName_ne_funcName hp ht.1 hpred.symm

/-- What a formula says at its root; equations and equivalences count as the same. -/
inductive Formula.Kind where
  | top
  | bot
  | atom
  | equality
  | not
  | and
  | or
  | implies
  | forAll
  | forSome
  deriving DecidableEq

/-- The kind of a formula. -/
def Formula.kind : Formula → Formula.Kind
  | .top => .top
  | .bot => .bot
  | .atom _ _ => .atom
  | .eq _ _ => .equality
  | .not _ => .not
  | .and _ => .and
  | .or _ => .or
  | .implies _ _ => .implies
  | .iff _ _ => .equality
  | .forAll _ _ => .forAll
  | .forSome _ _ => .forSome

/-- The kind of the formula with the given word at its root; other words are names of predicates. -/
def Spelling.kindOf (w : Spelling) (x : String) : Formula.Kind :=
  if x = "true" then .top
  else if x = "false" then .bot
  else if x = "not" then .not
  else if x = "and" then .and
  else if x = "or" then .or
  else if x = "forall" then .forAll
  else if x = "exists" then .forSome
  else if x = w.implies then .implies
  else if x = w.equal ∨ x = w.equiv then .equality
  else .atom

/-- The word at the root tells the kind of a formula. -/
theorem Formula.kindOf_word (hw : w.Lawful) (hs : s.Named) (hf : f.Plain) (hover : f.Over s) :
    w.kindOf (f.tree w s).word = f.kind := by
  have himplies := hw.implies
  have hequal := hw.equal
  have hequiv := hw.equiv
  have hquantifiers (x : String) (hx : x ∈ w.keywords) := (hw.words x hx).2
  have hqimplies := hquantifiers w.implies (by simp [keywords])
  have hqequal := hquantifiers w.equal (by simp [keywords])
  have hqequiv := hquantifiers w.equiv (by simp [keywords])
  simp only [shared, quantifiers, mem_cons, not_mem_nil, or_false, not_or] at himplies hequal hequiv hqimplies hqequal hqequiv
  cases f with
  | top => rfl
  | bot => rfl
  | not f => rfl
  | atom p args =>
    have hmem := predName_mem_allNames hover.1
    have hkeyword := hw.notKeyword hs hmem
    have hquantifier := hs.notQuantifier hmem
    simp only [keywords, shared, quantifiers, mem_append, mem_cons, not_mem_nil, or_false,
      not_or] at hkeyword hquantifier
    rw [tree, word_apply]
    simp [kindOf, hkeyword, hquantifier, kind]
  | and parts =>
    rw [tree, word_junction (by rw [length_trees]; exact hf.1)]
    rfl
  | or parts =>
    rw [tree, word_junction (by rw [length_trees]; exact hf.1)]
    rfl
  | forAll vars body =>
    rw [tree, word_quantify (by simpa using hf.1)]
    rfl
  | forSome vars body =>
    rw [tree, word_quantify (by simpa using hf.1)]
    rfl
  | implies a b => simp [tree, word, kindOf, kind, himplies, hqimplies]
  | eq a b => simp [tree, word, kindOf, kind, hequal, hqequal]
  | iff a b => simp [tree, word, kindOf, kind, hequiv, hqequiv]

theorem Spelling.Lawful.binders_injective (hw : w.Lawful) (hs : s.Named) : ∀ {vars vars' : List Binder}, (∀ b ∈ vars, b.Over s) →
    (∀ b ∈ vars', b.Over s) → vars.map (w.binderOf s) = vars'.map (w.binderOf s) → vars = vars'
  | [], [], _, _, _ => rfl
  | [], _ :: _, _, _, h => by cases h
  | _ :: _, [], _, _, h => by cases h
  | b :: bs, c :: cs, hbs, hcs, h => by
    obtain ⟨hb, hbs⟩ := forall_mem_cons.1 hbs
    obtain ⟨hc, hcs⟩ := forall_mem_cons.1 hcs
    obtain ⟨hfirst, hrest⟩ := List.cons.inj h
    obtain ⟨hname, hsort⟩ := hw.binderWords hfirst
    have hsort := hs.sortName_injective hb.1 hc.1 hsort
    rw [hw.binders_injective hs hbs hcs hrest]
    cases b
    cases c
    cases hname
    cases hsort
    rfl

mutual

/-- Formulas with the same tree of words are the same. -/
theorem Formula.tree_injective (hw : w.Lawful) (hs : s.Named) : ∀ f g : Formula, f.Plain → g.Plain → f.Over s → g.Over s →
    f.tree w s = g.tree w s → f = g := by
  intro f g hf hg hfs hgs h
  -- the word at the root leaves one kind for both
  have hkind : f.kind = g.kind := by
    rw [← Formula.kindOf_word hw hs hf hfs, ← Formula.kindOf_word hw hs hg hgs, h]
  match f, g, hkind with
  | .top, .top, _ => rfl
  | .bot, .bot, _ => rfl
  | .atom p ts, .atom q us, _ =>
    obtain ⟨hname, htrees⟩ := Tree.apply_injective h
    rw [hs.predName_injective hfs.1 hgs.1 hname, Term.trees_injective hs ts us hfs.2 hgs.2 htrees]
  | .eq a b, .eq c d, _ =>
    obtain ⟨-, hleft, hright⟩ := Tree.node.inj h
    rw [Term.tree_injective hs a c hfs.1 hgs.1 hleft, Term.tree_injective hs b d hfs.2 hgs.2 (List.cons.inj hright).1]
  | .eq a b, .iff c d, _ =>
    exact (Term.tree_ne_tree hw hs hfs.1 hg.1 hgs.1 (Tree.node.inj h).2.1).elim
  | .iff a b, .eq c d, _ =>
    exact (Term.tree_ne_tree hw hs hgs.1 hf.1 hfs.1 (Tree.node.inj h).2.1.symm).elim
  | .iff a b, .iff c d, _ =>
    obtain ⟨-, hleft, hright⟩ := Tree.node.inj h
    rw [Formula.tree_injective hw hs a c hf.1 hg.1 hfs.1 hgs.1 hleft,
      Formula.tree_injective hw hs b d hf.2 hg.2 hfs.2 hgs.2 (List.cons.inj hright).1]
  | .not a, .not b, _ =>
    rw [Formula.tree_injective hw hs a b hf hg hfs hgs (Tree.node.inj h).2.1]
  | .and fs, .and gs, _ =>
    have htrees := Tree.junction_injective (by rw [Formula.length_trees]; exact hf.1) (by rw [Formula.length_trees]; exact hg.1) h
    rw [Formula.trees_injective hw hs fs gs hf.2 hg.2 hfs hgs htrees]
  | .or fs, .or gs, _ =>
    have htrees := Tree.junction_injective (by rw [Formula.length_trees]; exact hf.1) (by rw [Formula.length_trees]; exact hg.1) h
    rw [Formula.trees_injective hw hs fs gs hf.2 hg.2 hfs hgs htrees]
  | .implies a b, .implies c d, _ =>
    obtain ⟨-, hleft, hright⟩ := Tree.node.inj h
    rw [Formula.tree_injective hw hs a c hf.1 hg.1 hfs.1 hgs.1 hleft,
      Formula.tree_injective hw hs b d hf.2 hg.2 hfs.2 hgs.2 (List.cons.inj hright).1]
  | .forAll vs a, .forAll us b, _ =>
    obtain ⟨hbinders, hbody⟩ := Tree.quantify_injective (by simpa using hf.1) (by simpa using hg.1) h
    rw [hw.binders_injective hs hfs.1 hgs.1 hbinders, Formula.tree_injective hw hs a b hf.2 hg.2 hfs.2 hgs.2 hbody]
  | .forSome vs a, .forSome us b, _ =>
    obtain ⟨hbinders, hbody⟩ := Tree.quantify_injective (by simpa using hf.1) (by simpa using hg.1) h
    rw [hw.binders_injective hs hfs.1 hgs.1 hbinders, Formula.tree_injective hw hs a b hf.2 hg.2 hfs.2 hgs.2 hbody]

theorem Formula.trees_injective (hw : w.Lawful) (hs : s.Named) : ∀ fs gs : List Formula, AllPlain fs → AllPlain gs →
    Formula.AllOver s fs → Formula.AllOver s gs → trees w s fs = trees w s gs → fs = gs
  | [], [], _, _, _, _, _ => rfl
  | [], g :: gs, _, _, _, _, h => by
    cases h
  | f :: fs, [], _, _, _, _, h => by
    cases h
  | f :: fs, g :: gs, hf, hg, hfs, hgs, h => by
    obtain ⟨hfirst, hrest⟩ := List.cons.inj h
    rw [tree_injective hw hs f g hf.1 hg.1 hfs.1 hgs.1 hfirst,
      trees_injective hw hs fs gs hf.2 hg.2 hfs.2 hgs.2 hrest]

end

/-- Formulas with the same text are the same, if the text is that of their trees. -/
theorem Formula.eq_of_text (hw : w.Lawful) (hs : s.Named) (hrender : ∀ f, (render f).toList = (f.tree w s).write w.toPunctuation)
    {g : Formula} (hf : f.Plain) (hg : g.Plain) (hfs : f.Over s) (hgs : g.Over s) (h : render f = render g) : f = g := by
  have htext : (f.tree w s).write w.toPunctuation ++ [] = (g.tree w s).write w.toPunctuation ++ [] := by
    rw [← hrender f, ← hrender g, h]
  have hends : w.toPunctuation.Ends [] := fun c hc => by cases hc
  have htree := (read_write hw.punctuation _ _ (readable_tree hw hs f hfs) (readable_tree hw hs g hgs) hends hends
    htext).1
  exact tree_injective hw hs f g hf hg hfs hgs htree

end Injective

/-- The formula was made by the simplifying constructors, with the symbols of the table and the variables `V1`, `V2`, … -/
def Formula.BuiltOver (s : Symbols) (f : Formula) : Prop := f.Built ∧ f.Over s

/-- Where texts tell formulas there is a parser. -/
theorem exists_parse_of_injective (h : ∀ f g, f.BuiltOver s → g.BuiltOver s → render f = render g → f = g) :
    ∃ parse : String → Option Formula, ∀ f, f.BuiltOver s → parse (render f) = some f := by
  classical
  refine ⟨fun text => if hf : ∃ f, Formula.BuiltOver s f ∧ render f = text then some hf.choose else none, fun f hf => ?_⟩
  have hexists : ∃ g, Formula.BuiltOver s g ∧ render g = render f := ⟨f, hf, rfl⟩
  simp only [dif_pos hexists, Option.some.injEq]
  exact h _ _ hexists.choose_spec.1 hf hexists.choose_spec.2

/-- In each dialect, formulas over a table with the same text are the same, so that a parser gets every formula back from its
text. -/
theorem renderings_unambiguous (s : Symbols) (hs : s.Built) :
    (∀ f g : Formula, f.BuiltOver s → g.BuiltOver s →
      (Dfg.formula s f = Dfg.formula s g → f = g) ∧ (SmtLib.formula s f = SmtLib.formula s g → f = g)) ∧
    (∃ parse : String → Option Formula, ∀ f, f.BuiltOver s → parse (Dfg.formula s f) = some f) ∧
    ∃ parse : String → Option Formula, ∀ f, f.BuiltOver s → parse (SmtLib.formula s f) = some f := by
  have hdfg : ∀ f g : Formula, f.BuiltOver s → g.BuiltOver s → Dfg.formula s f = Dfg.formula s g → f = g := fun f g hf hg =>
    Formula.eq_of_text Spelling.lawful_dfg hs.named (Dfg.toList_formula s) hf.1.plain hg.1.plain hf.2 hg.2
  have hsmt : ∀ f g : Formula, f.BuiltOver s → g.BuiltOver s → SmtLib.formula s f = SmtLib.formula s g → f = g := fun f g hf hg =>
    Formula.eq_of_text Spelling.lawful_smtLib hs.named (SmtLib.toList_formula s) hf.1.plain hg.1.plain hf.2 hg.2
  exact ⟨fun f g hf hg => ⟨hdfg f g hf hg, hsmt f g hf hg⟩, exists_parse_of_injective hdfg, exists_parse_of_injective hsmt⟩

namespace Notices

/-- The table of a notice board, with hints that are keywords or look like variables. -/
def symbols : Symbols :=
  let rooms := (Symbols.empty.addSort "Room").2
  let closed := (rooms.addPredicate "not" [⟨0⟩]).2
  (closed.addPredicate "V1" []).2

theorem built_symbols : symbols.Built := ((Symbols.Built.empty.addSort "Room").addPredicate "not" [⟨0⟩]).addPredicate "V1" []

/-- Two rooms are the same. -/
def same : Formula := .mkEq (.var "V1") (.var "V2")

/-- Two rooms are both closed or both open. -/
def alike : Formula := .mkIff (.atom ⟨0⟩ [.var "V1"]) (.atom ⟨0⟩ [.var "V2"])

theorem builtOver_same : same.BuiltOver symbols := ⟨.mkEq _ _, ⟨1, rfl⟩, ⟨2, rfl⟩⟩

theorem builtOver_alike : alike.BuiltOver symbols :=
  ⟨.mkIff (.atom _ _) (.atom _ _), ⟨by decide, ⟨1, rfl⟩, trivial⟩, by decide, ⟨2, rfl⟩, trivial⟩

end Notices

/-- An equation and an equivalence are written with the same word, and yet their texts differ. -/
theorem renderings_unambiguous_notices :
    Notices.symbols.Built ∧ Notices.same.BuiltOver Notices.symbols ∧ Notices.alike.BuiltOver Notices.symbols ∧
      SmtLib.formula Notices.symbols Notices.same ≠ SmtLib.formula Notices.symbols Notices.alike := by
  refine ⟨Notices.built_symbols, Notices.builtOver_same, Notices.builtOver_alike, fun heq => ?_⟩
  have hsame := ((renderings_unambiguous Notices.symbols Notices.built_symbols).1 Notices.same Notices.alike Notices.builtOver_same
    Notices.builtOver_alike).2 heq
  exact absurd hsame (by decide)

end StoreCheck
