import StoreCheck.Proofs.Class.Lattice
import StoreCheck.Proofs.WriteSet

/-!
# The order of alternatives

Where the paths of a free choice meet, the types that a variable has on them are joined one after another. The bottom is what
unrelated classes have in common, and it adds nothing to a join, so the order of the paths can matter (`handout_order_matters`).
It does not matter for a variable that one class covers on all paths (`merged_types_symmetric`).
-/

namespace StoreCheck

open List

variable {a : Signature} {c : ClassId} {decls : List ClassDecl}

namespace ClassGraph

variable {g : ClassGraph}

/-- The signature is canonical, and its objects belong to the class. -/
def Under (g : ClassGraph) (c : ClassId) (s : Signature) : Prop := g.canonical s.classes = s ∧ c ∈ g.closure s

theorem Under.isBottom (h : g.Under c a) : a.isBottom = false := by
  obtain ⟨-, m, hm, -⟩ := mem_closure.1 h.2
  exact List.isEmpty_eq_false_iff_exists_mem.2 ⟨m, hm⟩

theorem Under.join (h : ofDecls decls = .ok g) (ha : g.Under c a) (hb : g.Under c b) : g.Under c (g.join a b) := by
  refine ⟨?_, (mem_closure_join h ha.isBottom hb.isBottom).2 ⟨ha.2, hb.2⟩⟩
  rw [join_eq ha.isBottom hb.isBottom, canonical_canonical]

/-- The join over all paths has in common with each path what all of them have in common. -/
theorem mem_closure_joinPaths (h : ofDecls decls = .ok g) : ∀ (paths : List (Option Signature)) (start : Option Signature),
    (∀ s, some s ∈ start :: paths → g.Under c s) → ∀ s, paths.foldl g.joinPath start = some s →
      g.Under c s ∧ ∀ d, d ∈ g.closure s ↔ ∀ t, some t ∈ start :: paths → d ∈ g.closure t
  | [], start, hunder, s, hs => by
    obtain rfl : start = some s := hs
    exact ⟨hunder s mem_cons_self, fun d => by simp⟩
  | path :: paths, start, hunder, s, hs => by
    rw [foldl_cons] at hs
    cases start with
    | none =>
      obtain ⟨hs, hcommon⟩ := mem_closure_joinPaths h paths _ (fun t ht => hunder t (mem_cons_of_mem _ ht)) s hs
      exact ⟨hs, fun d => by simp [hcommon]⟩
    | some a =>
      cases path with
      | none =>
        obtain ⟨hs, hcommon⟩ := mem_closure_joinPaths h paths (some a) (fun t ht => hunder t (by simpa using ht)) s hs
        exact ⟨hs, fun d => by simp [hcommon]⟩
      | some b =>
        have ha := hunder a mem_cons_self
        have hb := hunder b (mem_cons_of_mem _ mem_cons_self)
        have hboth : ∀ t, some t ∈ some (g.join a b) :: paths → g.Under c t := by
          intro t ht
          rcases mem_cons.1 ht with ht | ht
          · exact Option.some.inj ht ▸ ha.join h hb
          · exact hunder t (mem_cons_of_mem _ (mem_cons_of_mem _ ht))
        obtain ⟨hs, hcommon⟩ := mem_closure_joinPaths h paths (some (g.join a b)) hboth s hs
        exact ⟨hs, fun d => by simp [hcommon, mem_closure_join h ha.isBottom hb.isBottom, and_assoc]⟩

theorem joinPaths_perm (h : ofDecls decls = .ok g) {paths paths' : List (Option Signature)} (hperm : paths.Perm paths')
    (hunder : ∀ s, some s ∈ paths → g.Under c s) : paths.foldl g.joinPath none = paths'.foldl g.joinPath none := by
  have hbound : (paths.foldl g.joinPath none).isSome = (paths'.foldl g.joinPath none).isSome := by
    rw [Flow.isSome_foldl_joinPath, Flow.isSome_foldl_joinPath, Bool.eq_iff_iff]
    simp [hperm.mem_iff]
  cases hs : paths.foldl g.joinPath none with
  | none =>
    rw [hs] at hbound
    exact (Option.not_isSome_iff_eq_none.1 (by simp [← hbound])).symm
  | some s =>
    obtain ⟨s', hs'⟩ := Option.isSome_iff_exists.1 (hbound.symm.trans (by rw [hs]; rfl))
    obtain ⟨⟨hcanon, -⟩, hcommon⟩ := mem_closure_joinPaths h paths none (by simpa using hunder) s hs
    obtain ⟨⟨hcanon', -⟩, hcommon'⟩ := mem_closure_joinPaths h paths' none (by simpa [hperm.mem_iff] using hunder) s' hs'
    rw [hs', ← hcanon, ← hcanon']
    refine congrArg some (canonical_of_closure_eq h (closure_eq_iff.2 fun d => ?_))
    rw [hcanon, hcanon', hcommon, hcommon']
    simp [hperm.mem_iff]

end ClassGraph

/-- A variable has the same signature after alternatives in whatever order their ends are merged, if some class covers what it
holds at the end of each of them that binds it. -/
theorem merged_types_symmetric (decls : List ClassDecl) (g : ClassGraph) (h : ClassGraph.ofDecls decls = .ok g) (x : String)
    (c : ClassId) (exits exits' : List (TypeEnv × VarMap Bool)) (hperm : exits.Perm exits')
    (hexits : ∀ e ∈ exits, VarMap.Distinct e.1 ∧
      ∀ s, TypeEnv.signatureOf? e.1 x = some s → g.canonical s.classes = s ∧ g.Covers c s) :
    TypeEnv.signatureOf? (exits.foldl (fun m e => Analysis.mergeTypes g m e.1) []) x =
      TypeEnv.signatureOf? (exits'.foldl (fun m e => Analysis.mergeTypes g m e.1) []) x := by
  have hmerged : ∀ l : List (TypeEnv × VarMap Bool), (∀ e ∈ l, VarMap.Distinct e.1) →
      TypeEnv.signatureOf? (l.foldl (fun m e => Analysis.mergeTypes g m e.1) []) x =
        (l.map fun e => TypeEnv.signatureOf? e.1 x).foldl g.joinPath none := by
    intro l hl
    rw [Analysis.signatureOf?_mergeAll g x l [] hl, foldl_map]
    rfl
  rw [hmerged exits fun e he => (hexits e he).1, hmerged exits' fun e he => (hexits e (hperm.mem_iff.2 he)).1]
  refine ClassGraph.joinPaths_perm (c := c) h (hperm.map _) fun s hs => ?_
  obtain ⟨e, he, hs⟩ := mem_map.1 hs
  obtain ⟨hcanon, hcovers⟩ := (hexits e he).2 s hs
  exact ⟨hcanon, (ClassGraph.mem_closure_iff h hcanon).2 hcovers⟩

namespace Hotel

/-- Something is picked from one of three classes and removed. -/
def handout (first second third : String) : Action where
  name := "handout"
  params := []
  block := [.either ([first, second, third].map fun c => [.assign "x" (.allOf c)]), .delete (.var "x")]

end Hotel

/-- The guests that one of the paths leaves in the variable are found to be removed or not, as the rooms come second or last. -/
theorem handout_order_matters : ∃ effects effects',
    (Hotel.handout "Guest" "Room" "Guest").effects Hotel.store = .ok effects ∧
    (Hotel.handout "Guest" "Guest" "Room").effects Hotel.store = .ok effects' ∧ effects.writes ≠ [] ∧ effects'.writes = [] := by
  obtain ⟨effects, heffects, hwrites⟩ := exists_ok_of_any (x := (Hotel.handout "Guest" "Room" "Guest").effects Hotel.store)
    (p := fun e => decide (e.writes ≠ [])) (by decide +kernel)
  obtain ⟨effects', heffects', hnone⟩ := exists_ok_of_any (x := (Hotel.handout "Guest" "Guest" "Room").effects Hotel.store)
    (p := fun e => decide (e.writes = [])) (by decide +kernel)
  exact ⟨effects, effects', heffects, heffects', of_decide_eq_true hwrites, of_decide_eq_true hnone⟩

end StoreCheck
