import StoreCheck.Proofs.Encoding.Sessions
import StoreCheck.Proofs.Faultless

/-!
# Every type names at most one hierarchy

A set of objects is encoded over the sort of its hierarchy, so its type may have classes of one component only. No expression and
no statement makes another type: joins climb to common ancestors and never leave a component, and where unrelated types meet the
result is the bottom. This is hereditary, so that it holds of the types in every session that the encoding of a goal comes to, and
the encoding never ends in the error that a type has no single hierarchy.
-/

namespace StoreCheck

open List

namespace ClassGraph

variable {decls : List ClassDecl} {g : ClassGraph}

/-- The signature has no member that is an ancestor of another one; it is the bottom, or its classes lie in one component. -/
structure OneHierarchy (g : ClassGraph) (s : Signature) : Prop where
  canonical : g.canonical s.classes = s
  uniform : g.Uniform s

theorem canonical_ofClass (h : ofDecls decls = .ok g) {c : ClassId} (hc : c.index < g.size) : g.canonical [c] = .ofClass c := by
  have hperm : (g.canonical [c]).classes.Perm [c] := by
    refine (perm_ext_iff_of_nodup ((nodup_idsUpTo _).filter _) (nodup_singleton c)).2 fun d => ?_
    refine mem_canonical.trans ?_
    rw [mem_singleton]
    constructor
    · exact fun hd => hd.2.1
    · rintro rfl
      exact ⟨mem_idsUpTo.2 hc, rfl, forall_mem_singleton.2 (not_mem_ancestorsOf_self h d)⟩
  exact congrArg Signature.mk (perm_singleton.1 hperm)

/-- Joins are canonical: they are the bottom's other side, or made canonical. -/
theorem hereditary_oneHierarchy (h : ofDecls decls = .ok g) : g.Hereditary g.OneHierarchy := by
  have huniform := (coherent_ofDecls h).hereditary_uniform
  refine ⟨⟨?_, huniform.bottom⟩, fun c hc => ⟨canonical_ofClass h hc, huniform.ofClass c hc⟩, fun {a b} ha hb => ⟨?_, ?_⟩⟩
  · simp [ClassGraph.canonical, Signature.bottom]
  · unfold join
    split
    · exact hb.canonical
    · split
      · exact ha.canonical
      · exact canonical_canonical _
  · exact huniform.join ha.uniform hb.uniform

end ClassGraph

/-- For every valid store, wherever the encoding of a goal comes to, the type of every variable names at most one hierarchy: its
signature is canonical, and it is the bottom or all its classes lie in one component. Typing keeps this for every expression, so
every type that is inferred has a sort, and no goal ends in the error that a type has no single hierarchy. -/
theorem types_name_one_hierarchy (spec : Spec) (store : Store) (hspec : Store.ofSpec spec = .ok store) :
    (∀ s, Reached store s → ∀ x b, s.scope.find? x = some b → store.graph.OneHierarchy b.type.signature) ∧
    (∀ env : TypeEnv, (∀ x t, env.find? x = some t → store.graph.OneHierarchy t.signature) →
      ∀ e t, infer store env e = .ok t →
        store.graph.OneHierarchy t.signature ∧ ∃ a, (Layout.ofStore store).1.sortOf t = .ok a) ∧
    ∀ name left,
      (∀ action assumed checked, preservationTheory store action assumed checked name ≠
        .error (.type (.incompatibleTypes left "a single class hierarchy"))) ∧
      ∀ formulas, consistencyTheory store formulas name ≠ .error (.type (.incompatibleTypes left "a single class hierarchy")) := by
  have hwf := Store.wellFormed_ofSpec hspec
  obtain ⟨decls, hgraph⟩ := Store.graph_ofSpec hspec
  have hP := ClassGraph.hereditary_oneHierarchy hgraph
  refine ⟨fun s hs x b hb => Scope.all_binding (hs.typed hwf hP).types hb, fun env henv e t ht => ?_, fun name left => ⟨?_, ?_⟩⟩
  · have hall : env.All store.graph.OneHierarchy := by
      intro x s hs
      obtain ⟨u, hu, rfl⟩ := Option.map_eq_some_iff.1 hs
      exact henv x u hu
    have htype := infer_hereditary hwf hP hall e ht
    exact ⟨htype, Layout.exists_sortOf_iff.2 htype.uniform⟩
  · intro action assumed checked
    have hnone : ¬ CoversUnplanned fun _ => False := by
      rintro ⟨_, _, hfault⟩
      exact hfault
    exact spares_preservation (fun _ => False) hwf (fun hcovers => (hnone hcovers).elim) assumed checked name _ rfl
  · exact fun formulas => spares_consistency hwf formulas name _ rfl

/-- At the end of checking out, the types of all variables name one hierarchy. -/
theorem types_name_one_hierarchy_checkout :
    Store.ofSpec Hotel.spec = .ok Hotel.store ∧
    ∃ s, Encode.walk (Layout.ofStore Hotel.store).1 Hotel.checkout (Layout.ofStore Hotel.store).2 = .ok ((), s) ∧
      Reached Hotel.store s ∧ (s.scope.any fun p => !p.2.type.signature.isBottom) = true ∧
      ∀ x b, s.scope.find? x = some b → Hotel.store.graph.OneHierarchy b.type.signature := by
  obtain ⟨⟨⟨⟩, s⟩, hwalk, hany⟩ := exists_ok_of_any (p := fun r => r.2.scope.any fun p => !p.2.type.signature.isBottom)
    (x := Encode.walk (Layout.ofStore Hotel.store).1 Hotel.checkout (Layout.ofStore Hotel.store).2) (by decide +kernel)
  obtain ⟨⟨⟩, s1, hparams, hblock⟩ := bind_ok.1 hwalk
  have hreached : Reached Hotel.store s := .statement hparams (Encode.reaches_end _ hblock)
  refine ⟨Hotel.ofSpec_spec, s, hwalk, hreached, hany, ?_⟩
  exact (types_name_one_hierarchy Hotel.spec Hotel.store Hotel.ofSpec_spec).1 s hreached

end StoreCheck
