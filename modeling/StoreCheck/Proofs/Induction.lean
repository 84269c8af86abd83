import StoreCheck.Encoding.ObjValue

/-!
# Induction over formulas, expressions, statements and values

These types are nested: a formula may hold a list of formulas. Each principle has one case for each constructor, and where a
constructor holds a list, the property is assumed of all its members.
-/

namespace StoreCheck

open List

@[elab_as_elim, induction_eliminator]
theorem Formula.induction {motive : Formula → Prop} (top : motive .top) (bot : motive .bot)
    (atom : ∀ pred args, motive (.atom pred args)) (eq : ∀ left right, motive (.eq left right))
    (not : ∀ inner, motive inner → motive (.not inner))
    (and : ∀ parts, (∀ f ∈ parts, motive f) → motive (.and parts))
    (or : ∀ parts, (∀ f ∈ parts, motive f) → motive (.or parts))
    (implies : ∀ premise conclusion, motive premise → motive conclusion → motive (.implies premise conclusion))
    (iff : ∀ left right, motive left → motive right → motive (.iff left right))
    (forAll : ∀ vars body, motive body → motive (.forAll vars body))
    (forSome : ∀ vars body, motive body → motive (.forSome vars body)) (f : Formula) : motive f :=
  @Formula.rec motive (∀ f ∈ ·, motive f) top bot atom eq not and or implies iff forAll forSome (forall_mem_nil _)
    (fun _ _ h hs => forall_mem_cons.2 ⟨h, hs⟩) f

@[elab_as_elim, induction_eliminator]
theorem ObjExpr.induction {motive : ObjExpr → Prop} (allOf : ∀ className, motive (.allOf className))
    (var : ∀ name, motive (.var name)) (subset : ∀ source, motive source → motive (.subset source))
    (oneOf : ∀ source, motive source → motive (.oneOf source))
    (union : ∀ parts, (∀ e ∈ parts, motive e) → motive (.union parts))
    (deref : ∀ source relation, motive source → motive (.deref source relation))
    (iterator : ∀ name, motive (.iterator name)) (e : ObjExpr) : motive e :=
  @ObjExpr.rec motive (∀ e ∈ ·, motive e) allOf var subset oneOf union deref iterator (forall_mem_nil _)
    (fun _ _ h hs => forall_mem_cons.2 ⟨h, hs⟩) e

@[elab_as_elim, induction_eliminator]
theorem FormulaExpr.induction {motive : FormulaExpr → Prop} (literal : ∀ value, motive (.literal value))
    (not : ∀ formula, motive formula → motive (.not formula))
    (and : ∀ parts, (∀ f ∈ parts, motive f) → motive (.and parts))
    (or : ∀ parts, (∀ f ∈ parts, motive f) → motive (.or parts))
    (implies : ∀ premise conclusion, motive premise → motive conclusion → motive (.implies premise conclusion))
    (equiv : ∀ parts, (∀ f ∈ parts, motive f) → motive (.equiv parts)) (equal : ∀ sets, motive (.equal sets))
    (isIn : ∀ set within, motive (.isIn set within)) (isEmpty : ∀ set, motive (.isEmpty set))
    (forAll : ∀ vars body, motive body → motive (.forAll vars body))
    (forSome : ∀ vars body, motive body → motive (.forSome vars body)) (f : FormulaExpr) : motive f :=
  @FormulaExpr.rec motive (∀ f ∈ ·, motive f) literal not and or implies equiv equal isIn isEmpty forAll forSome
    (forall_mem_nil _)
    (fun _ _ h hs => forall_mem_cons.2 ⟨h, hs⟩) f

@[elab_as_elim, induction_eliminator]
theorem Statement.induction {motive : Statement → Prop} (assign : ∀ var value, motive (.assign var value))
    (create : ∀ className var, motive (.create className var)) (delete : ∀ objects, motive (.delete objects))
    (createTuple : ∀ source relation target, motive (.createTuple source relation target))
    (deleteTuple : ∀ source relation target, motive (.deleteTuple source relation target))
    (ifElse : ∀ condition thenBlock elseBlock, (∀ s ∈ thenBlock, motive s) → (∀ s ∈ elseBlock, motive s) →
      motive (.ifElse condition thenBlock elseBlock))
    (either : ∀ branches, (∀ b ∈ branches, ∀ s ∈ b, motive s) → motive (.either branches))
    (forEach : ∀ var domain body order, (∀ s ∈ body, motive s) → motive (.forEach var domain body order))
    (s : Statement) : motive s :=
  @Statement.rec motive (∀ s ∈ ·, motive s) (∀ b ∈ ·, ∀ s ∈ b, motive s) assign create delete createTuple deleteTuple ifElse
    either forEach (forall_mem_nil _) (fun _ _ h hs => forall_mem_cons.2 ⟨h, hs⟩) (forall_mem_nil _)
    (fun _ _ h hs => forall_mem_cons.2 ⟨h, hs⟩) s

@[elab_as_elim, induction_eliminator]
theorem ObjValue.induction {motive : ObjValue → Prop} (empty : motive .empty) (ofClass : ∀ c slot, motive (.ofClass c slot))
    (pred : ∀ p depth, motive (.pred p depth)) (param : ∀ level, motive (.param level)) (bound : ∀ t, motive (.bound t))
    (union : ∀ parts, (∀ v ∈ parts, motive v) → motive (.union parts))
    (deref : ∀ source relation flipped slot, motive source → motive (.deref source relation flipped slot))
    (merge : ∀ depth indicators values, (∀ v ∈ values, motive v) → motive (.merge depth indicators values))
    (boundary : ∀ context before inside, motive before → motive inside → motive (.boundary context before inside))
    (v : ObjValue) : motive v :=
  @ObjValue.rec motive (∀ v ∈ ·, motive v) empty ofClass pred param bound union deref merge boundary (forall_mem_nil _)
    (fun _ _ h hs => forall_mem_cons.2 ⟨h, hs⟩) v

end StoreCheck
