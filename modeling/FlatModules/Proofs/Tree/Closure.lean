import FlatModules.Proofs.Tree.Tidy

/-!
# Trees — closures

What the digest of a namespace covers, in the tree of a project whose source directories are apart:
exactly the namespaced files of its directory, under their virtual paths, and the root modules of
the namespaces directly in it (`Tidy.mem_closure`), one after the other (`Tidy.closure_perm`).
-/

namespace FlatModules

open Naming Path

namespace Tree.Tidy

variable {sources : List Path} {Done : Path → List String → Entry → Prop} {t : Tree}

section

variable (h : Tidy sources Done t)

include h

theorem scopeAt?_eq {s : Scope} (hs : s ∈ t.scopes) : t.scopeAt? s.ns.dir = some s :=
  h.shaped.scopeAt?_eq hs rfl

theorem exists_scope {ns : Namespace} (hn : ns ∈ t.namespaces) :
    ∃ s ∈ t.scopes, s.ns = ns ∧ t.scopeAt? ns.dir = some s := by
  obtain ⟨s, hs, rfl⟩ := List.mem_map.1 hn
  exact ⟨s, hs, rfl, h.scopeAt?_eq hs⟩

theorem scope_eq_of_dir {s s' : Scope} (hs : s ∈ t.scopes) (hs' : s' ∈ t.scopes)
    (e : s.ns.dir.parts = s'.ns.dir.parts) : s = s' :=
  Option.some.inj ((h.scopeAt?_eq hs).symm.trans (h.shaped.scopeAt?_eq hs' e))

/-- Namespaces are told apart by their module names. -/
theorem scope_eq_of_moduleName {s s' : Scope} (hs : s ∈ t.scopes) (hs' : s' ∈ t.scopes)
    (e : s.ns.moduleName = s'.ns.moduleName) : s = s' := by
  obtain ⟨c, hc, module, owner⟩ := h.owned s.ns (List.mem_map_of_mem hs)
  obtain ⟨c', hc', module', owner'⟩ := h.owned s'.ns (List.mem_map_of_mem hs')
  obtain rfl : c = c' := List.inj_on_of_nodup_map h.shaped.differ hc hc'
    (module.trans (e.trans module'.symm))
  exact h.scope_eq_of_dir hs hs' (owner.symm.trans owner')

theorem mem_childScopes {s c : Scope} (hs : s ∈ t.scopes) :
    c ∈ t.childScopes s ↔ c ∈ t.scopes ∧ c.ns.parent = some s.ns.dir := by
  rw [childScopes, List.mem_filterMap]
  constructor
  · rintro ⟨q, hq, found⟩
    obtain ⟨ns, hn, parent, rfl⟩ := (h.child_iff s hs q).1 hq
    obtain ⟨s', hs', rfl, found'⟩ := h.exists_scope hn
    obtain rfl := Option.some.inj (found'.symm.trans found)
    exact ⟨hs', parent⟩
  · rintro ⟨hc, parent⟩
    exact ⟨c.ns.dir, (h.child_iff s hs _).2 ⟨c.ns, List.mem_map_of_mem hc, parent, rfl⟩,
      h.scopeAt?_eq hc⟩

theorem memberFiles_child {s c : Scope} (hc : c ∈ t.scopes) {m : Member}
    (hm : c.member? = some m) : t.memberFiles s m = [c.ns.rootFile] := by
  obtain ⟨name, -, rfl⟩ := Option.map_eq_some_iff.1 hm
  have found : t.scopes.find? (·.ns.moduleName = c.ns.moduleName) = some c :=
    find?_eq_some_of_unique hc (by simp) fun s' hs' e =>
      h.scope_eq_of_moduleName hs' hc (by simpa using e)
  simp only [memberFiles, found]

theorem exists_member? {c : Scope} (hc : c ∈ t.scopes) : ∃ m, c.member? = some m := by
  obtain ⟨source, -, lies⟩ := h.shaped.below c.ns (List.mem_map_of_mem hc)
  obtain ⟨front, last, e, -⟩ := lies.exists_last
  simp [Scope.member?, Scope.shortName?, e]

/-- Leaves are told apart by their module names. -/
theorem leaf_eq_of_virtualModule {s : Scope} (hs : s ∈ t.scopes) {l l' : Leaf} (hl : l ∈ s.leaves)
    (hl' : l' ∈ s.leaves) (e : l.virtualModule = l'.virtualModule) : l = l' := by
  obtain ⟨source, -, lies⟩ := h.shaped.below s.ns (List.mem_map_of_mem hs)
  obtain ⟨valid, named⟩ := (h.neat s hs).named l hl
  obtain ⟨valid', named'⟩ := (h.neat s hs).named l' hl'
  have comps (stem : String) (hv : isComponent stem = true) :
      ∀ c ∈ s.ns.components ++ [stem], isComponent c = true := by
    simpa [or_imp, forall_and, hv] using lies.valid
  -- names of one namespace begin alike, so that their capitals do not matter
  have flat : flatName (s.ns.components ++ [l.stem]) = flatName (s.ns.components ++ [l'.stem]) := by
    rw [named, named'] at e
    obtain ⟨c, cs, first⟩ := List.exists_cons_of_ne_nil lies.isStem.isName.ne_nil
    have spelled (stem : String) : ∃ rest, (flatName (s.ns.components ++ [stem])).toList =
        c :: rest := by
      rw [flatName_append_singleton lies.ne_nil, ← lies.flatName_eq]
      exact ⟨cs ++ separator.toList ++ stem.toList, by simp [flatName, Text.joinWith, first]⟩
    obtain ⟨rest, spell⟩ := spelled l.stem
    obtain ⟨rest', spell'⟩ := spelled l'.stem
    simp only [moduleName, spell, spell'] at e
    have tails := List.cons.inj (String.ofList_injective e)
    exact String.toList_inj.1 (by rw [spell, spell', tails.2])
  have stems := flatName_inj (by simp) (by simp) (comps _ valid) (comps _ valid') flat
  have stem : l.stem = l'.stem := List.singleton_inj.1 (List.append_cancel_left stems)
  exact eq_of_pairwise_lt (c := fun a b : Leaf => compare a.stem b.stem) (h.neat s hs).ordered
    hl hl' (by rw [stem]; exact Std.ReflOrd.compare_self)

theorem memberFiles_leaf {s : Scope} (hs : s ∈ t.scopes) {l : Leaf} (hl : l ∈ s.leaves) :
    t.memberFiles s l.member = l.files := by
  have found : s.leaves.find? (·.virtualModule = l.virtualModule) = some l :=
    find?_eq_some_of_unique hl (by simp) fun l' hl' e =>
      h.leaf_eq_of_virtualModule hs hl' hl (by simpa using e)
  simp only [memberFiles, Leaf.member]
  split
  case h_1 l' found' => exact congrArg Leaf.files (Option.some.inj (found'.symm.trans found))
  case h_2 missing => exact absurd (missing.symm.trans found) (by simp)

/-- The digest of a namespace covers the files of its directory and the roots of the namespaces in
it, and nothing else. -/
theorem mem_closure {ns : Namespace} (hn : ns ∈ t.namespaces) {q : Path} :
    q ∈ t.closure ns ↔
      (∃ f ∈ t.files, f.dir = ns.dir ∧ q = f.virtualPath) ∨
        ∃ c ∈ t.namespaces, c.parent = some ns.dir ∧ q = c.rootFile := by
  obtain ⟨s, hs, rfl, found⟩ := h.exists_scope hn
  have mem (m : Member) : m ∈ t.scopeMembers s ↔
      (∃ l ∈ s.leaves, l.member = m) ∨ ∃ c ∈ t.childScopes s, c.member? = some m := by
    rw [scopeMembers, mem_sortBy, List.mem_append, List.mem_map, List.mem_filterMap]
  have made (f : NamespacedFile) (hf : f ∈ t.files) (e : f.dir = s.ns.dir) :
      ∃ stem, f.Made s.ns.components stem := by
    obtain ⟨source, components, stem, entry, -, -, -, lies, mem⟩ := h.file f hf
    obtain ⟨s', hs', same, -⟩ := h.exists_scope mem
    obtain rfl : s' = s := h.scope_eq_of_dir hs' hs (by rw [same, ← e, lies.dir_eq]; rfl)
    refine ⟨stem, ?_⟩
    rw [same]
    exact lies.made
  rw [closure, found]
  simp only [List.mem_flatMap, mem]
  constructor
  · rintro ⟨m, ⟨l, hl, rfl⟩ | ⟨c, hc, hm⟩, hq⟩
    · rw [h.memberFiles_leaf hs hl] at hq
      obtain ⟨f, hf, e, -, rfl⟩ := (h.leaf_iff s hs l.stem q).1 ⟨l, hl, rfl, hq⟩
      exact .inl ⟨f, hf, e, rfl⟩
    · obtain ⟨hc, parent⟩ := (h.mem_childScopes hs).1 hc
      rw [h.memberFiles_child hc hm, List.mem_singleton] at hq
      exact .inr ⟨c.ns, List.mem_map_of_mem hc, parent, hq⟩
  · rintro (⟨f, hf, e, rfl⟩ | ⟨c, hc, parent, rfl⟩)
    · obtain ⟨stem, made⟩ := made f hf e
      obtain ⟨l, hl, -, hv⟩ := (h.leaf_iff s hs stem f.virtualPath).2 ⟨f, hf, e, made, rfl⟩
      refine ⟨l.member, .inl ⟨l, hl, rfl⟩, ?_⟩
      rw [h.memberFiles_leaf hs hl]
      exact hv
    · obtain ⟨c', hc', rfl, -⟩ := h.exists_scope hc
      obtain ⟨m, hm⟩ := h.exists_member? hc'
      refine ⟨m, .inr ⟨c', (h.mem_childScopes hs).2 ⟨hc', parent⟩, hm⟩, ?_⟩
      rw [h.memberFiles_child hc' hm]
      exact List.mem_singleton_self _

theorem flatMap_memberFiles_leaves {s : Scope} (hs : s ∈ t.scopes) :
    (s.leaves.map Leaf.member).flatMap (t.memberFiles s) = s.leaves.flatMap Leaf.files := by
  rw [List.flatMap_map]
  exact List.flatMap_congr fun l hl => h.memberFiles_leaf hs hl

theorem flatMap_memberFiles_children {s : Scope} {children : List Scope}
    (below : ∀ c ∈ children, c ∈ t.scopes) :
    (children.filterMap Scope.member?).flatMap (t.memberFiles s) =
      children.map fun c => c.ns.rootFile := by
  induction children with
  | nil => rfl
  | cons c children ih =>
    obtain ⟨m, hm⟩ := h.exists_member? (below c List.mem_cons_self)
    rw [List.filterMap_cons_some hm, List.flatMap_cons, List.map_cons,
      h.memberFiles_child (below c List.mem_cons_self) hm,
      ih fun c' hc' => below c' (List.mem_cons_of_mem _ hc')]
    rfl

/-- The files that a digest covers are those of the leaves and the root modules of the namespaces in
it. -/
theorem closure_perm {s : Scope} (hs : s ∈ t.scopes) :
    (t.closure s.ns).Perm
      (s.leaves.flatMap Leaf.files ++ (t.childScopes s).map fun c => c.ns.rootFile) := by
  have below (c : Scope) (hc : c ∈ t.childScopes s) : c ∈ t.scopes :=
    ((h.mem_childScopes hs).1 hc).1
  rw [closure, h.scopeAt?_eq hs, ← h.flatMap_memberFiles_leaves hs,
    ← h.flatMap_memberFiles_children (s := s) below, ← List.flatMap_append]
  exact (sortBy_perm _ _).flatMap_right _

end

end Tree.Tidy
end FlatModules
