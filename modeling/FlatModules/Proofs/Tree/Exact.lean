import FlatModules.Proofs.Tree.Inside

/-!
# Trees — what a closure lists

In a project whose source directories are disjoint the members of a namespace are the stems and the
directories directly in it (`Tree.At.mem_members_iff`).  The closure of the namespace lists for each
member, in their order, what it consists of (`Tree.Consists`): the source files of the stem, or the root
module of the sub-namespace.  All these are different, so that each is listed once
(`Tree.closure_exact`).
-/

namespace FlatModules

open Naming FlatModules.Path

namespace Tree

variable {d : Disk} {root source : Path} {sources : List Path} {t : Tree} {s c : Scope}
  {cs : List String} {m : Member}

/-- What a member of the namespace that names lead to consists of. -/
inductive Consists (d : Disk) (root source : Path) (cs : List String) : Member → List Path → Prop
  | leaf {stem : String} {files : List Path} (some_ : files ≠ [])
      (exact_ : ∀ q, q ∈ files ↔ ∃ kind, HasSource d root source cs stem kind ∧
        q = (recordOf source cs stem kind).virtualPath) :
      Consists d root source cs
        ⟨moduleName stem, moduleName (flatName (cs ++ [stem])), .leafModule⟩ files
  | directory {name : String} (enters : Enters d root source (cs ++ [name])) :
      Consists d root source cs
        ⟨moduleName name, moduleName (flatName (cs ++ [name])), .subNamespace⟩
        [(namespaceIn source (cs ++ [name])).rootFile]

section Members

variable (after : After sources (visits d root sources) t)

include after

theorem After.memberFiles_leaf (hs : s ∈ t.scopes) {l : Leaf} (hl : l ∈ s.leaves) :
    t.memberFiles s l.member = l.files := by
  have found : s.leaves.find? (·.virtualModule = l.virtualModule) = some l :=
    find?_eq_some_of_unique hl (by simp) fun l' hl' e =>
      (after.leaf_eq hs hs hl' hl (by simpa using e)).2
  simp only [memberFiles, Leaf.member]
  split
  case h_1 l' found' => exact congrArg Leaf.files (Option.some.inj (found'.symm.trans found))
  case h_2 missing => exact absurd (missing.symm.trans found) (by simp)

theorem After.memberFiles_child (hc : c ∈ t.scopes) (hm : c.member? = some m) :
    t.memberFiles s m = [c.ns.rootFile] := by
  obtain ⟨name, -, rfl⟩ := Option.map_eq_some_iff.1 hm
  have found : t.scopes.find? (·.ns.moduleName = c.ns.moduleName) = some c :=
    find?_eq_some_of_unique hc (by simp) fun s' hs' e =>
      after.scope_eq_of_moduleName hs' hc (by simpa using e)
  simp only [memberFiles, found]

/-- The member that a leaf of a namespace is. -/
theorem At.member_leaf (h : At d root sources t s source cs) {l : Leaf} (hl : l ∈ s.leaves) :
    l.member = ⟨moduleName l.stem, moduleName (flatName (cs ++ [l.stem])), .leafModule⟩ := by
  obtain ⟨-, -, named, -⟩ := after.leaf_named h.mem hl
  rw [Leaf.member, named, h.components]

omit after in
/-- The member that a sub-namespace is. -/
theorem At.member_child {name : String} (h : At d root sources t c source (cs ++ [name])) :
    c.member? = some ⟨moduleName name, moduleName (flatName (cs ++ [name])), .subNamespace⟩ := by
  have module : c.ns.moduleName = moduleName (flatName (cs ++ [name])) := by
    rw [h.lies.moduleName_eq, h.lies.flatName_eq, h.components]
  simp [Scope.member?, Scope.shortName?, h.components, module]

end Members

section Scanned

variable (sound : d.Sound) (scattered : Scattered d root sources)
  (after : After sources (visits d root sources) t)

include sound scattered after

/-- A member of a namespace is a leaf, or a namespace directly in it. -/
theorem At.mem_scopeMembers (h : At d root sources t s source cs) :
    m ∈ t.scopeMembers s ↔ (∃ l ∈ s.leaves, m = l.member) ∨
      ∃ c name, At d root sources t c source (cs ++ [name]) ∧ c.member? = some m := by
  rw [Tree.mem_scopeMembers]
  refine or_congr (exists_congr fun l => and_congr_right fun _ => eq_comm) ?_
  constructor
  · rintro ⟨c, hc, hm⟩
    obtain ⟨name, inner⟩ := (h.mem_childScopes_iff sound scattered after).1 hc
    exact ⟨c, name, inner, hm⟩
  · rintro ⟨c, name, inner, hm⟩
    exact ⟨c, (h.mem_childScopes_iff sound scattered after).2 ⟨name, inner⟩, hm⟩

/-- What the members of a namespace consist of is listed for them. -/
theorem At.consists (named : t.LeavesMade) (h : At d root sources t s source cs)
    (hm : m ∈ t.scopeMembers s) : Consists d root source cs m (t.memberFiles s m) := by
  rcases (h.mem_scopeMembers sound scattered after).1 hm with ⟨l, hl, rfl⟩ | ⟨c, name, inner, found⟩
  · rw [after.memberFiles_leaf h.mem hl, h.member_leaf after hl]
    obtain ⟨⟨q₀, some_, -⟩, -⟩ := named s h.mem l hl
    exact .leaf (List.ne_nil_of_mem some_) fun q => h.mem_files_iff sound scattered after named hl
  · rw [after.memberFiles_child inner.mem found, inner.eq]
    obtain rfl := Option.some.inj (inner.member_child.symm.trans found)
    exact .directory inner.enters

/-- What a closure lists, in another order. -/
theorem At.closure_perm (h : At d root sources t s source cs) :
    (t.closure s.ns).Perm
      (s.leaves.flatMap Leaf.files ++ (t.childScopes s).map fun c => c.ns.rootFile) := by
  have leaves : (s.leaves.map Leaf.member).flatMap (t.memberFiles s) = s.leaves.flatMap Leaf.files := by
    rw [List.flatMap_map]
    exact List.flatMap_congr fun l hl => after.memberFiles_leaf h.mem hl
  have children : ((t.childScopes s).filterMap Scope.member?).flatMap (t.memberFiles s) =
      (t.childScopes s).map fun c => c.ns.rootFile := by
    have inner : ∀ c ∈ t.childScopes s, ∃ m, c.member? = some m ∧ t.memberFiles s m = [c.ns.rootFile] := by
      intro c hc
      obtain ⟨name, inner⟩ := (h.mem_childScopes_iff sound scattered after).1 hc
      exact ⟨_, inner.member_child, after.memberFiles_child inner.mem inner.member_child⟩
    generalize t.childScopes s = children at inner
    induction children with
    | nil => rfl
    | cons c children ih =>
      obtain ⟨m, found, files⟩ := inner c List.mem_cons_self
      rw [List.filterMap_cons_some found, List.flatMap_cons, List.map_cons, files,
        ih fun c' hc' => inner c' (List.mem_cons_of_mem _ hc')]
      rfl
  rw [closure, after.shaped.scopeAt?_eq h.mem rfl, ← leaves, ← children, ← List.flatMap_append]
  exact (sortBy_perm _ _).flatMap_right _

/-- What a closure lists. -/
theorem At.mem_closure (h : At d root sources t s source cs) {q : Path} :
    q ∈ t.closure s.ns ↔
      (∃ stem kind, HasSource d root source cs stem kind ∧
        q = (recordOf source cs stem kind).virtualPath) ∨
      ∃ name, Enters d root source (cs ++ [name]) ∧
        q = (namespaceIn source (cs ++ [name])).rootFile := by
  rw [(h.closure_perm sound scattered after).mem_iff, List.mem_append,
    h.mem_flatMap_files sound scattered after, List.mem_map]
  refine or_congr Iff.rfl ⟨?_, ?_⟩
  · rintro ⟨c, hc, rfl⟩
    obtain ⟨name, inner⟩ := (h.mem_childScopes_iff sound scattered after).1 hc
    exact ⟨name, inner.enters, by rw [inner.eq]⟩
  · rintro ⟨name, enters, eq⟩
    obtain ⟨c, inner⟩ := exists_scope_at sound scattered after h.mem_sources enters (by simp)
    exact ⟨c, (h.mem_childScopes_iff sound scattered after).2 ⟨name, inner⟩, by rw [inner.eq, eq]⟩

/-- A closure lists nothing twice. -/
theorem At.nodup_closure (h : At d root sources t s source cs) : (t.closure s.ns).Nodup := by
  have it := itinerary_visits sound root sources
  have child {c : Scope} (hc : c ∈ t.childScopes s) := (after.parts_childScopes it h.mem hc).1
  rw [(h.closure_perm sound scattered after).nodup_iff]
  refine List.nodup_append.2 ⟨h.nodup_files sound scattered after, ?_, ?_⟩
  · -- root modules are named for their namespaces
    refine List.pairwise_map.2 ((after.pairwise_childScopes it h.mem).imp_of_mem ?_)
    intro c c' hc hc' ne same
    obtain ⟨source, -, lies⟩ := after.shaped.below c.ns (List.mem_map_of_mem (child hc))
    obtain ⟨source', -, lies'⟩ := after.shaped.below c'.ns (List.mem_map_of_mem (child hc'))
    rw [lies.rootFile_eq, lies'.rootFile_eq] at same
    have names := congrArg Path.fileName? same
    rw [lies.fileName?_target (by decide), lies'.fileName?_target (by decide)] at names
    have flat := (String.append_left_inj _).1 (Option.some.inj names)
    have scopes := after.scope_eq_of_moduleName (child hc) (child hc')
      (by rw [lies.moduleName_eq, lies'.moduleName_eq, flat])
    exact ne (by rw [scopes])
  · -- no source file is seen where a root module belongs
    rintro q hq _ hr rfl
    obtain ⟨stem, kind, has, eq⟩ := (h.mem_flatMap_files sound scattered after).1 hq
    have hf := (files_iff sound scattered after).2
      ⟨source, h.mem_sources, cs, stem, kind, h.ne_nil, has, rfl⟩
    obtain ⟨c, hc, same⟩ := List.mem_map.1 hr
    obtain ⟨source', -, lies⟩ := after.shaped.below c.ns (List.mem_map_of_mem (child hc))
    have none_ := after.shaped.fileAt?_target (List.mem_map_of_mem (child hc)) (.inl rfl)
    rw [← lies.rootFile_eq, same, eq, after.shaped.fileAt?_virtualPath hf] at none_
    simp at none_

end Scanned

/-- A closure lists once each, and in the order of the members, all source files directly in its
namespace and the root modules of the namespaces directly in it, and nothing else; the files of one stem
are side by side. -/
theorem closure_exact {config : Config} (sound : d.Sound)
    (disjoint : Disjoint d root config.sourceDirs) (ok : scan d root config = .ok t) {ns : Namespace}
    (hn : ns ∈ t.namespaces) :
    ∃ source ∈ config.sourceDirs, ∃ cs, Enters d root source cs ∧ ns = namespaceIn source cs ∧
      (t.closure ns).Nodup ∧
      (∀ q, q ∈ t.closure ns ↔
        (∃ stem kind, HasSource d root source cs stem kind ∧
          q = (recordOf source cs stem kind).virtualPath) ∨
        ∃ name, Enters d root source (cs ++ [name]) ∧
          q = (namespaceIn source (cs ++ [name])).rootFile) ∧
      ∃ blocks, t.closure ns = blocks.flatten ∧
        List.Forall₂ (Consists d root source cs) (t.members ns) blocks := by
  have after := After.scan sound ok
  have scattered := disjoint.scattered
  obtain ⟨s, hs, rfl⟩ := List.mem_map.1 hn
  obtain ⟨source, cs, h⟩ := exists_at sound scattered after hs
  refine ⟨source, h.mem_sources, cs, h.enters, h.eq, h.nodup_closure sound scattered after,
    fun q => h.mem_closure sound scattered after, (t.scopeMembers s).map (t.memberFiles s), ?_, ?_⟩
  · rw [closure, after.shaped.scopeAt?_eq hs rfl]
    exact List.flatMap_def
  · rw [members_eq after.shaped hs, List.forall₂_map_right_iff, List.forall₂_same]
    exact fun m hm => h.consists sound scattered after (leavesMade_of_scan sound ok) hm

set_option maxRecDepth 100000 in
/-- The closure of a namespace with two leaves and a sub-namespace. -/
theorem closure_exact_roomDisk :
    let t := sampleTree roomDisk roomConfig
    roomDisk.Sound ∧ Disjoint roomDisk ⟨"/p"⟩ roomConfig.sourceDirs ∧
      scan roomDisk ⟨"/p"⟩ roomConfig = .ok t ∧
      ∃ ns ∈ t.namespaces, t.closure ns = [⟨"lib/foo/foo__a.ml"⟩, ⟨"lib/foo/foo__a.mli"⟩,
          ⟨"lib/foo/foo__b.mli"⟩, ⟨"lib/foo/foo__bar.ml"⟩] ∧
        ∃ source cs blocks, ns = namespaceIn source cs ∧ t.closure ns = blocks.flatten ∧
          List.Forall₂ (Consists roomDisk ⟨"/p"⟩ source cs) (t.members ns) blocks := by
  intro t
  obtain ⟨sound, disjoint, accepted⟩ := accepted_roomDisk
  obtain ⟨ns, hn, listed⟩ : ∃ ns ∈ t.namespaces, t.closure ns = [⟨"lib/foo/foo__a.ml"⟩,
      ⟨"lib/foo/foo__a.mli"⟩, ⟨"lib/foo/foo__b.mli"⟩, ⟨"lib/foo/foo__bar.ml"⟩] := by
    decide +kernel
  obtain ⟨source, -, cs, -, eq, -, -, blocks, flat, consist⟩ :=
    closure_exact sound disjoint accepted hn
  exact ⟨sound, disjoint, accepted, ns, hn, listed, source, cs, blocks, eq, flat, consist⟩

end Tree
end FlatModules
