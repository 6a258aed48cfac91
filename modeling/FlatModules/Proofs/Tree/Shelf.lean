import FlatModules.Proofs.Tree.Inside
import FlatModules.Proofs.Tree.Marks

/-!
# Trees — what is listed for a library

What a library has of one namespace (`Tree.Contributes`) is its alias module, its leaves that have an
implementation, and its root module.  A library is made of what it has of the namespace that it is
declared for and of all namespaces below that one (`Tree.At.mem_collect`): as deep as there are
namespaces is deep enough (`Tree.At.enough`).  What it has of a namespace encloses what it has of
those below (`Tree.At.collect_split`).
-/

namespace FlatModules

open Naming FlatModules.Path

namespace Tree

variable {d : Disk} {root source : Path} {sources : List Path} {t : Tree} {s r : Scope}
  {cs rest : List String} {n : Nat} {x : String}

/-! ### What a library has of one namespace -/

/-- What a library has of the namespace that names lead to: its alias module, its leaves that have an
implementation, and its root module, extensions apart. -/
inductive Contributes (d : Disk) (root source : Path) (cs : List String) : String → Prop
  | aliases : Contributes d root source cs (aliasesPath (namespaceIn source cs).rootPath).text
  | leaf {stem : String} (has : HasSource d root source cs stem .implementation) :
      Contributes d root source cs
        ((recordOf source cs stem .implementation).virtualPath.withExtension "").text
  | root : Contributes d root source cs (namespaceIn source cs).rootPath.text

section Scanned

variable (sound : d.Sound) (scattered : Scattered d root sources)
  (after : After sources (visits d root sources) t)

include sound scattered after

/-- The leaves of a namespace that have an implementation. -/
theorem At.mem_implemented (named : t.LeavesMade) (h : At d root sources t s source cs) :
    x ∈ (s.leaves.filter Leaf.hasImplementation).map (·.virtualRoot.text) ↔
      ∃ stem, HasSource d root source cs stem .implementation ∧
        x = ((recordOf source cs stem .implementation).virtualPath.withExtension "").text := by
  have files {l : Leaf} (hl : l ∈ s.leaves) {q : Path} :=
    h.mem_files_iff (q := q) sound scattered after named hl
  have kind {stem : String} {kind : SourceKind} (has : HasSource d root source cs stem kind) :
      SourceKind.ofPath? (recordOf source cs stem kind).virtualPath = some kind := by
    have made := has.made sound h.ne_nil
    rw [made.virtualPath_eq]
    exact ofPath?_of_parts made.isStem kind (parts_div made.isName)
  -- whichever file the leaf began with, its path is that of all of them
  have virtualRoot {l : Leaf} (hl : l ∈ s.leaves)
      (has : HasSource d root source cs l.stem .implementation) : l.virtualRoot =
        (recordOf source cs l.stem .implementation).virtualPath.withExtension "" := by
    obtain ⟨⟨q, hq, root⟩, -⟩ := named s h.mem l hl
    obtain ⟨kind, has', eq⟩ := (files hl).1 hq
    rw [root, eq, (has.made sound h.ne_nil).withExtension_virtualPath,
      (has'.made sound h.ne_nil).withExtension_virtualPath]
    rfl
  simp only [List.mem_map, List.mem_filter]
  constructor
  · rintro ⟨l, ⟨hl, implemented⟩, rfl⟩
    obtain ⟨q, hq, ofPath⟩ := List.any_eq_true.1 implemented
    obtain ⟨kind', has, eq⟩ := (files hl).1 hq
    rw [eq] at ofPath
    obtain rfl := Option.some.inj ((kind has).symm.trans (of_decide_eq_true ofPath))
    exact ⟨l.stem, has, by rw [virtualRoot hl has]⟩
  · rintro ⟨stem, has, eq⟩
    obtain ⟨l, hl, rfl⟩ := (h.exists_leaf_iff sound scattered after named).2 ⟨_, has⟩
    refine ⟨l, ⟨hl, List.any_eq_true.2 ⟨_, (files hl).2 ⟨_, has, rfl⟩, ?_⟩⟩,
      by rw [virtualRoot hl has, eq]⟩
    exact decide_eq_true (kind has)

/-! ### Down to the deepest -/

omit sound scattered after in
/-- Whether no namespace below the one that names lead to is as deep as some number. -/
def Enough (d : Disk) (root : Path) (sources : List Path) (t : Tree) (source : Path)
    (cs : List String) (n : Nat) : Prop :=
  ∀ rest r, At d root sources t r source (cs ++ rest) → rest.length < n

/-- No namespace is as deep as there are namespaces. -/
theorem At.enough (h : At d root sources t s source cs) :
    Enough d root sources t source cs t.scopes.length := by
  intro rest r inner
  have short := inner.length_le sound scattered after
  have positive := List.length_pos_of_ne_nil h.ne_nil
  rw [List.length_append] at short
  omega

omit sound scattered after in
theorem Enough.inner {name : String} (enough : Enough d root sources t source cs (n + 1)) :
    Enough d root sources t source (cs ++ [name]) n := by
  intro rest r inner
  have short := enough (name :: rest) r (by simpa using inner)
  simpa using short

omit sound scattered after in
theorem Enough.exists_succ (enough : Enough d root sources t source cs n)
    (h : At d root sources t s source cs) : ∃ k, n = k + 1 :=
  Nat.exists_eq_succ_of_ne_zero (Nat.ne_of_gt (enough [] s (by simpa using h)))

/-- What is listed for a namespace within what is listed around it. -/
theorem At.collect_split (h : At d root sources t s source cs)
    (enough : Enough d root sources t source cs n)
    (inner : At d root sources t r source (cs ++ rest)) :
    ∃ k pre post, Enough d root sources t source (cs ++ rest) k ∧
      t.collect n s = pre ++ t.collect k r ++ post := by
  induction rest generalizing s cs n with
  | nil =>
    rw [List.append_nil] at inner ⊢
    obtain rfl := h.scope_eq after.shaped inner
    exact ⟨n, [], [], enough, by simp⟩
  | cons name rest ih =>
    obtain ⟨k, rfl⟩ := enough.exists_succ h
    have split : cs ++ name :: rest = cs ++ [name] ++ rest := by simp
    rw [split] at inner ⊢
    obtain ⟨c, child⟩ := inner.above sound scattered after (List.prefix_append _ rest) (by simp)
    obtain ⟨front, back, children⟩ := List.append_of_mem
      ((h.mem_childScopes_iff sound scattered after).2 ⟨name, child⟩)
    obtain ⟨k', pre, post, enough', e⟩ := ih child enough.inner inner
    refine ⟨k', [(aliasesPath s.ns.rootPath).text] ++
      (s.leaves.filter Leaf.hasImplementation).map (·.virtualRoot.text) ++
        front.flatMap (t.collect k) ++ pre,
      post ++ back.flatMap (t.collect k) ++ [s.ns.rootPath.text], enough', ?_⟩
    rw [collect, children, List.flatMap_append, List.flatMap_cons, e]
    simp

/-- What is listed for the namespaces in a namespace. -/
theorem At.mem_flatMap_collect (h : At d root sources t s source cs) (k : Nat) :
    x ∈ (t.childScopes s).flatMap (t.collect k) ↔
      ∃ name c, At d root sources t c source (cs ++ [name]) ∧ x ∈ t.collect k c := by
  rw [List.mem_flatMap]
  constructor
  · rintro ⟨c, hc, hx⟩
    obtain ⟨name, inner⟩ := (h.mem_childScopes_iff sound scattered after).1 hc
    exact ⟨name, c, inner, hx⟩
  · rintro ⟨name, c, inner, hx⟩
    exact ⟨c, (h.mem_childScopes_iff sound scattered after).2 ⟨name, inner⟩, hx⟩

/-- A library is made of what it has of its namespace and of those below. -/
theorem At.mem_collect (named : t.LeavesMade) (h : At d root sources t s source cs)
    (enough : Enough d root sources t source cs n) :
    x ∈ t.collect n s ↔
      ∃ rest r, At d root sources t r source (cs ++ rest) ∧ Contributes d root source (cs ++ rest) x := by
  induction n generalizing s cs with
  | zero => exact absurd (enough [] s (by simpa using h)) (by simp)
  | succ n ih =>
    rw [collect, List.mem_append, List.mem_append, List.mem_append, List.mem_singleton,
      List.mem_singleton, h.mem_implemented sound scattered after named,
      h.mem_flatMap_collect sound scattered after, h.eq]
    constructor
    · have own (part : Contributes d root source cs x) : ∃ rest r,
          At d root sources t r source (cs ++ rest) ∧ Contributes d root source (cs ++ rest) x :=
        ⟨[], s, by simpa using h, by simpa using part⟩
      rintro (((eq | ⟨stem, has, eq⟩) | ⟨name, c, inner, hx⟩) | eq)
      · exact own (eq ▸ .aliases)
      · exact own (eq ▸ .leaf has)
      · obtain ⟨rest, r, deeper, part⟩ := (ih inner enough.inner).1 hx
        exact ⟨name :: rest, r, by simpa using deeper, by simpa using part⟩
      · exact own (eq ▸ .root)
    · rintro ⟨rest, r, inner, part⟩
      cases rest with
      | nil =>
        rw [List.append_nil] at part
        cases part with
        | aliases => exact .inl (.inl (.inl rfl))
        | leaf has => exact .inl (.inl (.inr ⟨_, has, rfl⟩))
        | root => exact .inr rfl
      | cons name rest =>
        have split : cs ++ name :: rest = cs ++ [name] ++ rest := by simp
        rw [split] at inner part
        obtain ⟨c, child⟩ := inner.above sound scattered after (List.prefix_append _ rest) (by simp)
        exact .inl (.inr ⟨name, c, child, (ih child enough.inner).2 ⟨rest, r, inner, part⟩⟩)

/-- What is listed between the alias module and the root module of a namespace: its leaves, and all that
the library has of the namespaces below. -/
theorem At.collect_within (named : t.LeavesMade) (h : At d root sources t s source cs)
    (enough : Enough d root sources t source cs n) :
    ∃ inner, t.collect n s = (aliasesPath (namespaceIn source cs).rootPath).text ::
        (inner ++ [(namespaceIn source cs).rootPath.text]) ∧
      ∀ x, x ∈ inner ↔ (∃ stem, HasSource d root source cs stem .implementation ∧
          x = ((recordOf source cs stem .implementation).virtualPath.withExtension "").text) ∨
        ∃ name more r, At d root sources t r source (cs ++ name :: more) ∧
          Contributes d root source (cs ++ name :: more) x := by
  obtain ⟨k, rfl⟩ := enough.exists_succ h
  refine ⟨(s.leaves.filter Leaf.hasImplementation).map (·.virtualRoot.text) ++
    (t.childScopes s).flatMap (t.collect k), ?_, fun x => ?_⟩
  · rw [collect, h.eq]
    simp
  · rw [List.mem_append, h.mem_implemented sound scattered after named,
      h.mem_flatMap_collect sound scattered after]
    refine or_congr Iff.rfl (exists_congr fun name => ?_)
    constructor
    · rintro ⟨c, child, hx⟩
      obtain ⟨more, r, inner, part⟩ :=
        (child.mem_collect sound scattered after named enough.inner).1 hx
      exact ⟨more, r, by simpa using inner, by simpa using part⟩
    · rintro ⟨more, r, inner, part⟩
      have split : cs ++ name :: more = cs ++ [name] ++ more := by simp
      rw [split] at inner part
      obtain ⟨c, child⟩ := inner.above sound scattered after (List.prefix_append _ more) (by simp)
      exact ⟨c, child, (child.mem_collect sound scattered after named enough.inner).2
        ⟨more, r, inner, part⟩⟩

end Scanned

/-- A declared library is made of different modules: the alias module and the root module of its
namespace and of every namespace below, and the leaves in these that have an implementation.  All that it
has of the leaves and of the sub-namespaces of a namespace is between the alias module and the root
module. -/
theorem library_exact {config : Config} (sound : d.Sound)
    (disjoint : Disjoint d root config.sourceDirs) (ok : scan d root config = .ok t) {library : Path}
    (declared : library ∈ config.libraries) :
    ∃ source ∈ config.sourceDirs, ∃ cs members,
      namespaceIn source cs ∈ t.namespaces ∧ (namespaceIn source cs).dir.same library = true ∧
      t.libraryMembers? (namespaceIn source cs) = some members ∧
      members.Nodup ∧ (members.map fun m => moduleOfPath ⟨m⟩).Nodup ∧
      (∀ x, x ∈ members ↔ ∃ rest, namespaceIn source (cs ++ rest) ∈ t.namespaces ∧
        Contributes d root source (cs ++ rest) x) ∧
      ∀ rest, namespaceIn source (cs ++ rest) ∈ t.namespaces → ∃ pre inner post,
        members = pre ++ (aliasesPath (namespaceIn source (cs ++ rest)).rootPath).text ::
          (inner ++ (namespaceIn source (cs ++ rest)).rootPath.text :: post) ∧
        ∀ x, x ∈ inner ↔
          (∃ stem, HasSource d root source (cs ++ rest) stem .implementation ∧ x =
            ((recordOf source (cs ++ rest) stem .implementation).virtualPath.withExtension "").text) ∨
          ∃ name more, namespaceIn source (cs ++ rest ++ name :: more) ∈ t.namespaces ∧
            Contributes d root source (cs ++ rest ++ name :: more) x := by
  have after := After.scan sound ok
  have it := itinerary_visits sound root config.sourceDirs
  have scattered := disjoint.scattered
  have named := leavesMade_of_scan sound ok
  obtain ⟨source, cs, has, same⟩ := ((scan_ok_iff sound scattered).1 ⟨t, ok⟩).2 library declared
  cases has with
  | directory hs enters ne =>
    obtain ⟨s, h⟩ := exists_scope_at sound scattered after hs enters ne
    have enough := h.enough sound scattered after
    have at_iff {ds : List String} : namespaceIn source ds ∈ t.namespaces ↔
        ∃ r, At d root config.sourceDirs t r source ds :=
      ⟨At.of_mem sound scattered after hs (Enters.of_append sound (by simpa using enters)),
        fun ⟨_, inner⟩ => inner.mem_namespaces⟩
    have isLibrary : t.isLibrary (namespaceIn source cs) = true :=
      List.any_eq_true.2 ⟨library, (mem_libraries sound ok).2 declared, same_iff.2 (same_iff.1 same).symm⟩
    have modules := after.nodup_modules it (leavesNamed_of_scan sound ok) t.scopes.length h.mem
    refine ⟨source, hs, cs, t.collect t.scopes.length s, h.mem_namespaces, same, ?_,
      .of_map _ modules, modules, fun x => ?_, fun rest mem => ?_⟩
    · rw [libraryMembers?, if_pos isLibrary, ← h.eq, after.shaped.scopeAt?_eq h.mem rfl]
      rfl
    · rw [h.mem_collect sound scattered after named enough]
      simp only [at_iff, exists_and_right]
    · obtain ⟨r, inner⟩ := at_iff.1 mem
      obtain ⟨k, pre, post, enough', split⟩ := h.collect_split sound scattered after enough inner
      obtain ⟨within, e, mem_within⟩ := inner.collect_within sound scattered after named enough'
      refine ⟨pre, within, post, ?_, fun x => ?_⟩
      · rw [split, e]
        simp
      · rw [mem_within]
        simp only [at_iff, exists_and_right]

set_option maxRecDepth 100000 in
/-- The members of the library that a project declares. -/
theorem library_exact_roomDisk :
    let t := sampleTree roomDisk roomConfig
    roomDisk.Sound ∧ Disjoint roomDisk ⟨"/p"⟩ roomConfig.sourceDirs ∧
      scan roomDisk ⟨"/p"⟩ roomConfig = .ok t ∧ ⟨"lib/foo"⟩ ∈ roomConfig.libraries ∧
      t.namespaces.map t.libraryMembers? = [some ["lib/foo___aliases", "lib/foo/foo__a",
        "lib/foo/foo__bar___aliases", "lib/foo/bar/foo__bar__c", "lib/foo/foo__bar", "lib/foo"], none] ∧
      ∃ source cs members, (namespaceIn source cs).dir.same ⟨"lib/foo"⟩ = true ∧
        t.libraryMembers? (namespaceIn source cs) = some members ∧
        ∀ x, x ∈ members ↔ ∃ rest, namespaceIn source (cs ++ rest) ∈ t.namespaces ∧
          Contributes roomDisk ⟨"/p"⟩ source (cs ++ rest) x := by
  intro t
  obtain ⟨sound, disjoint, accepted⟩ := accepted_roomDisk
  have declared : ⟨"lib/foo"⟩ ∈ roomConfig.libraries := List.mem_cons_self
  obtain ⟨source, -, cs, members, -, same, listed, -, -, made, -⟩ :=
    library_exact sound disjoint accepted declared
  exact ⟨sound, disjoint, accepted, declared, by decide +kernel, source, cs, members, same, listed, made⟩

end Tree
end FlatModules
