import StoreCheck.Encoding.Session

/-!
# Membership in object values

`ObjValue.member` is the formula that an object is in a value, at a position of a context. It takes fresh variables for the
tuples and iterations that it quantifies over.
-/

namespace StoreCheck

namespace ObjValue

/-- The far end of some existing tuple is the object, and its near end is in the source. -/
def derefMember (ts : TupleSort) (flipped : Bool) (slot : Slot) (params : List Term) (object : Term)
    (sourceMember : Term → FreshEncode Formula) : FreshEncode Formula := do
  let (b, t) ← FreshEncode.binder ts.sort
  let (near, far) := if flipped then (ts.rightOf t, ts.leftOf t) else (ts.leftOf t, ts.rightOf t)
  let inSource ← sourceMember near
  return .mkForSome [b] (.mkAnd [slot.holds params t, .mkEq far object, inSource])

/-- Some branch was taken and the object is in its value. -/
def mergeMember (depth : Nat) (indicators : List PredId) (params : List Term) (members : List Formula) : Formula :=
  .mkOr ((indicators.zip members).map fun (p, f) => .mkAnd [.atom p (params.take depth), f])

/-- No iteration comes before and the object was in the value before the loop, or the object was in the value at the end of
the iteration just before. -/
def boundaryMember (contexts : Contexts) (context : ContextId) (params : List Term)
    (beforeMember : FreshEncode Formula) (insideMember : List Term → FreshEncode Formula) : FreshEncode Formula := do
  let c := contexts.get context
  let sort := c.paramSorts.getD (c.level - 1) ⟨0⟩
  match c.kind with
  | .chained order =>
    let outer := params.take (c.level - 1)
    let (bp, p) ← FreshEncode.binder sort
    let precedes := contexts.before context context (outer ++ [p]) params .bot
    let isFirst := Formula.mkNot (.mkForSome [bp] precedes)
    let fromBefore ← beforeMember
    let (bq, q) ← FreshEncode.binder sort
    let fromInside ← insideMember (outer ++ [q])
    return .mkOr [.mkAnd [isFirst, fromBefore],
      .mkForSome [bq] (.mkAnd [.atom order.justBefore (outer ++ [q, paramAt params c.level]), fromInside])]
  | _ => throw (.internal .boundaryOutsideChain)

mutual

/-- The object is in the value at the position with the given parameters. -/
def member (L : Layout) (contexts : Contexts) : ObjValue → List Term → Term → FreshEncode Formula
  | .empty, _, _ => return .bot
  | .ofClass c slot, params, object => return .mkAnd [slot.holds params object, L.isClass c object]
  | .pred p depth, params, object => return .atom p (params.take depth ++ [object])
  | .param level, params, object => return .mkEq object (paramAt params level)
  | .bound t, _, object => return .mkEq object t
  | .union parts, params, object => do return .mkOr (← members L contexts parts params object)
  | .deref source relation flipped slot, params, object => do
    derefMember (← L.tupleSort relation) flipped slot params object (member L contexts source params)
  | .merge depth indicators values, params, object => do
    return mergeMember depth indicators params (← members L contexts values params object)
  | .boundary context before inside, params, object =>
    boundaryMember contexts context params (member L contexts before params object)
      (fun ps => member L contexts inside ps object)

/-- The object's membership in each of the values. -/
def members (L : Layout) (contexts : Contexts) : List ObjValue → List Term → Term → FreshEncode (List Formula)
  | [], _, _ => return []
  | v :: rest, params, object => do
    let f ← member L contexts v params object
    let fs ← members L contexts rest params object
    return f :: fs

end

end ObjValue

namespace Encode

/-- The object is in the value at the position with the given parameters. -/
def member (L : Layout) (v : ObjValue) (params : List Term) (object : Term) : Encode Formula := do
  let s ← get
  freshly (v.member L s.contexts params object)

/-- The predicate holds of the elements of the value. -/
def sameMembers (L : Layout) (sort : SortId) (p : PredId) (v : ObjValue) (ps : List Term) : Encode Formula := do
  let (b, o) ← binder sort
  let inValue ← member L v ps o
  return .mkForAll [b] (.mkIff (.atom p (ps ++ [o])) inValue)

/-- Name a value by a new predicate over the current context. -/
def define (L : Layout) (hint : String) (sort : SortId) (v : ObjValue) : Encode ObjValue := do
  let p ← freshPred hint [sort]
  let d ← depth
  axiomOver (sameMembers L sort p v)
  return .pred p d

end Encode

end StoreCheck
