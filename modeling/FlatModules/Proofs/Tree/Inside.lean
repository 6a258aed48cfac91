import FlatModules.Proofs.Tree.Entities
import FlatModules.Proofs.Tree.Library

/-!
# Trees — what is directly in a namespace

In a project whose source directories are disjoint each namespace is at one directory (`Tree.At`).
Its leaves are the stems of the source files directly in that directory, with these files
(`Tree.At.mem_files_iff`), and its sub-namespaces are at the directories directly in it
(`Tree.At.mem_childScopes_iff`).  What is below a namespace is at longer names, no more than there are
namespaces (`Tree.At.length_le`).
-/

namespace FlatModules

open Naming FlatModules.Path

/-- A source file's path under its flat name, extension apart. -/
theorem NamespacedFile.Made.withExtension_virtualPath {f : NamespacedFile} {components : List String}
    {stem : String} (h : f.Made components stem) :
    f.virtualPath.withExtension "" = f.dir / ⟨flatName (components ++ [stem])⟩ := by
  rw [h.virtualPath_eq, withExtension_empty h.isStem f.kind.noDot_extension f.kind.noSlash_extension]

namespace Tree

/-! ### The files of leaves -/

/-- Each leaf has files, which are named for the namespace and the leaf's stem, and its path is that
of one of them, extension apart. -/
def LeavesMade (t : Tree) : Prop :=
  ∀ s ∈ t.scopes, ∀ l ∈ s.leaves, (∃ q ∈ l.files, l.virtualRoot = q.withExtension "") ∧
    ∀ q ∈ l.files, ∃ f : NamespacedFile, f.Made s.ns.components l.stem ∧ q = f.virtualPath

section Filed

variable {sources : List Path} {t t' : Tree} {v : Visit}

theorem LeavesMade.added (h : t.LeavesMade) (shaped : Shaped sources t) (added : Added t v t') :
    t'.LeavesMade := by
  intro s' hs' l hl
  cases added with
  | directory _ _ _ scopes =>
    rcases (scopes s').1 hs' with rfl | ⟨s, hs, -, rfl⟩
    · simp at hl
    · have same : (v.enlistIn s).ns = s.ns ∧ (v.enlistIn s).leaves = s.leaves := by
        unfold Visit.enlistIn
        split <;> exact ⟨rfl, rfl⟩
      rw [same.1]
      exact h s hs l (same.2 ▸ hl)
  | plain _ _ _ _ scopes => exact h s' (scopes ▸ hs') l hl
  | @leaf kind stem s source hs here _ _ scopes =>
    rcases (scopes s').1 hs' with rfl | ⟨hs', -⟩
    · obtain ⟨src, -, lies⟩ := shaped.below s.ns (List.mem_map_of_mem hs)
      have new : (∃ q ∈ (v.leafIn s.ns kind stem).files,
            (v.leafIn s.ns kind stem).virtualRoot = q.withExtension "") ∧
          ∀ q ∈ (v.leafIn s.ns kind stem).files,
            ∃ f : NamespacedFile, f.Made s.ns.components stem ∧ q = f.virtualPath := by
        have made := v.made_fileIn lies source
        refine ⟨⟨_, List.mem_singleton_self _, ?_⟩,
          fun q hq => ⟨_, made, List.mem_singleton.1 hq⟩⟩
        rw [made.withExtension_virtualPath, flatName_append_singleton lies.ne_nil, ← lies.flatName_eq]
        rfl
      change l ∈ addToLeaf (v.leafIn s.ns kind stem) s.leaves at hl
      unfold addToLeaf at hl
      split at hl
      · obtain ⟨l₀, mem, rfl⟩ := List.mem_map.1 hl
        obtain ⟨⟨q₀, some_, root⟩, made⟩ := h s hs l₀ mem
        split
        case isTrue same =>
          have same : l₀.stem = stem := same
          refine ⟨⟨q₀, List.mem_append_left _ some_, root⟩, fun q hq => ?_⟩
          rcases List.mem_append.1 hq with hq | hq
          · exact made q hq
          · exact same ▸ new.2 q hq
        case isFalse => exact ⟨⟨q₀, some_, root⟩, made⟩
      · rcases mem_of_mem_insertInOrder hl with rfl | mem
        · exact new
        · exact h s hs l mem
    · exact h s' hs' l hl
  | skipped _ _ same => exact h s' (same ▸ hs') l hl

theorem leavesMade_of_scan {d : Disk} {root : Path} {config : Config} (sound : d.Sound)
    (ok : scan d root config = .ok t) : t.LeavesMade := by
  obtain ⟨t₀, libraries, rfl, run⟩ := exists_run_of_scan ok
  have it := itinerary_visits sound root config.sourceDirs
  have both : Shaped config.sourceDirs t₀ ∧ t₀.LeavesMade := by
    refine foldlM_ok_induction (P := fun t => Shaped config.sourceDirs t ∧ t.LeavesMade)
      (fun t v t' hv ⟨shaped, named⟩ ok => ?_) ⟨.start _, by simp [LeavesMade]⟩ run
    obtain ⟨-, added⟩ := addVisit_ok shaped (it.ne_nil v hv) (it.isName v hv) ok
    exact ⟨shaped.addEntry (it.source v hv) (it.ne_nil v hv) (it.visible v hv) ok,
      named.added shaped added⟩
  exact both.2

end Filed

/-! ### Where namespaces are -/

variable {d : Disk} {root source source' : Path} {sources : List Path} {t : Tree}
  {s s' c : Scope} {cs ds : List String} {name stem : String} {kind : SourceKind} {q : Path}

/-- A namespace of a tree is the directory that names below a source directory lead to. -/
structure At (d : Disk) (root : Path) (sources : List Path) (t : Tree) (s : Scope) (source : Path)
    (cs : List String) : Prop where
  mem : s ∈ t.scopes
  mem_sources : source ∈ sources
  enters : Enters d root source cs
  ne_nil : cs ≠ []
  eq : s.ns = namespaceIn source cs

theorem Enters.valid (h : Enters d root source cs) : ∀ c ∈ cs, isComponent c = true := by
  obtain ⟨-, -, -, valid⟩ := h
  exact valid

/-- The record of a source file is named for the directory and the stem. -/
theorem HasSource.made (sound : d.Sound) (has : HasSource d root source cs stem kind) (ne : cs ≠ []) :
    (recordOf source cs stem kind).Made cs stem := by
  obtain ⟨v, hv, source_eq, names, source?⟩ :=
    visited_of_hasSource sound (List.mem_singleton_self source) has
  have isName := (itinerary_visits sound root [source]).isName v hv
  rw [← source_eq, ← recordOf_eq names isName ne rfl]
  exact v.made_fileIn (namespaceIn_lies ne (has.enters sound).valid) source?

namespace At

variable (h : At d root sources t s source cs)

include h

theorem isName : ∀ c ∈ cs, IsName c := h.enters.isName

theorem mem_namespaces : namespaceIn source cs ∈ t.namespaces := h.eq ▸ List.mem_map_of_mem h.mem

theorem components : s.ns.components = cs := by rw [h.eq, namespaceIn_components]

theorem lies : s.ns.LiesBelow source := h.eq ▸ namespaceIn_lies h.ne_nil h.enters.valid

theorem parts_dir : s.ns.dir.parts = source.parts ++ cs.map Part.name := by
  rw [h.eq, namespaceIn_dir, parts_below h.isName]

/-- Names that lead to one directory are the same. -/
theorem names_eq (sound : d.Sound) (scattered : Scattered d root sources)
    (h' : At d root sources t s' source' ds) (same : s.ns.dir.parts = s'.ns.dir.parts) :
    source = source' ∧ cs = ds := by
  rw [h.parts_dir, h'.parts_dir] at same
  exact scattered.eq sound h.mem_sources h'.mem_sources h.enters h'.enters same

theorem scope_eq (shaped : Shaped sources t) (h' : At d root sources t s' source cs) : s = s' := by
  have found := shaped.scopeAt?_eq h.mem rfl
  rw [h.eq, ← h'.eq, shaped.scopeAt?_eq h'.mem rfl] at found
  exact (Option.some.inj found).symm

end At

section Scanned

variable (sound : d.Sound) (scattered : Scattered d root sources)
  (after : After sources (visits d root sources) t)

include sound scattered after

/-- Each namespace is at the directory of some names. -/
theorem exists_at (hs : s ∈ t.scopes) : ∃ source cs, At d root sources t s source cs := by
  obtain ⟨source, cs, has, eq⟩ := (namespaces_iff sound scattered after).1 (List.mem_map_of_mem hs)
  cases has with
  | directory mem enters ne => exact ⟨source, cs, hs, mem, enters, ne, eq⟩

/-- At each directory that a scan enters there is a namespace. -/
theorem exists_scope_at (hs : source ∈ sources) (enters : Enters d root source cs) (ne : cs ≠ []) :
    ∃ s, At d root sources t s source cs := by
  have mem := (namespaces_iff sound scattered after).2 ⟨source, cs, .directory hs enters ne, rfl⟩
  obtain ⟨s, mem, eq⟩ := List.mem_map.1 mem
  exact ⟨s, mem, hs, enters, ne, eq⟩

/-- Around a namespace there are namespaces. -/
theorem At.above (h : At d root sources t s source cs) (up : ds <+: cs) (ne : ds ≠ []) :
    ∃ s', At d root sources t s' source ds := by
  obtain ⟨rest, rfl⟩ := up
  exact exists_scope_at sound scattered after h.mem_sources (h.enters.of_append sound) ne

/-- A namespace that a tree has at the directory of names. -/
theorem At.of_mem (hs : source ∈ sources) (enters : Enters d root source [])
    (mem : namespaceIn source cs ∈ t.namespaces) : ∃ s, At d root sources t s source cs := by
  obtain ⟨s, hs', eq⟩ := List.mem_map.1 mem
  obtain ⟨source', ds, h⟩ := exists_at sound scattered after hs'
  obtain rfl : ds = cs := by
    rw [← h.components, eq, namespaceIn_components]
  obtain rfl : source' = source := by
    have dirs := h.parts_dir
    rw [eq, namespaceIn_dir, parts_below h.isName] at dirs
    have fronts := List.append_cancel_right dirs
    have outer : Enters d root source' ([] ++ ds) := h.enters
    exact (scattered.eq sound h.mem_sources hs (outer.of_append sound) enters
      (by simpa using fronts.symm)).1
  exact ⟨s, h⟩

/-- Names that lead to a namespace are no more than there are namespaces. -/
theorem At.length_le (h : At d root sources t s source cs) : cs.length ≤ t.scopes.length := by
  -- each beginning of the names is that of another namespace
  let fronts := (List.range cs.length).map fun n => namespaceIn source (cs.take (n + 1))
  have nodup : fronts.Nodup := by
    refine (List.nodup_map_iff_inj_on List.nodup_range).2 fun m hm n hn same => ?_
    have lengths := congrArg (fun ns => ns.components.length) same
    simp only [namespaceIn_components, List.length_take] at lengths
    rw [List.mem_range] at hm hn
    omega
  have sub : fronts ⊆ t.namespaces := by
    intro ns hns
    obtain ⟨n, hn, rfl⟩ := List.mem_map.1 hns
    have ne : cs.take (n + 1) ≠ [] := by simp [h.ne_nil]
    obtain ⟨s', h'⟩ := h.above sound scattered after (List.take_prefix _ _) ne
    exact h'.mem_namespaces
  have short := (nodup.subperm sub).length_le
  simpa [fronts, namespaces] using short

/-- What is directly in a namespace was visited since. -/
theorem At.exists_filled (h : At d root sources t s source cs) :
    ∃ before u behind, Latest (visits d root sources) before u behind ∧
      FilledBy t.claims s behind ∧ u.source = source ∧ u.names = cs := by
  obtain ⟨before, u, behind, latest, eq, filled⟩ := after.scope s h.mem
  obtain ⟨mem, found⟩ := mem_visits.1 latest.mem
  have enters := Found.enters sound (latest.dir ▸ found)
  have there : At d root sources t s u.source u.names :=
    ⟨h.mem, mem, enters, found.ne_nil, eq⟩
  obtain ⟨rfl, rfl⟩ := h.names_eq sound scattered there rfl
  exact ⟨before, u, behind, latest, filled, rfl, rfl⟩

/-- What is seen in a namespace is a source file directly in its directory. -/
theorem At.of_virtualIn? (h : At d root sources t s source cs) {v : Visit}
    (hv : v ∈ visits d root sources) (seen : v.virtualIn? s.ns = some q) :
    ∃ stem kind, v.names = cs ++ [stem ++ "." ++ kind.extension] ∧
      v.above.parts = s.ns.dir.parts ∧ HasSource d root source cs stem kind ∧
      q = (recordOf source cs stem kind).virtualPath := by
  have it := itinerary_visits sound root sources
  obtain ⟨before, u, behind, latest, -, rfl, rfl⟩ := h.exists_filled sound scattered after
  unfold Visit.virtualIn? at seen
  split at seen
  case h_2 => simp at seen
  case h_1 kind stem source? =>
    split at seen
    case isFalse => simp at seen
    case isTrue above =>
      have here : u.path.parts = v.above.parts := by rw [above, h.eq, namespaceIn_dir, Visit.path]
      obtain ⟨source_eq, names_eq⟩ :=
        names_of_above sound scattered latest.mem latest.dir hv here
      obtain ⟨has, names⟩ := hasSource_of_visit sound hv source?
      rw [← source_eq, ← names_eq] at has
      rw [← names_eq] at names
      refine ⟨stem, kind, names, above, has, ?_⟩
      rw [← Option.some.inj seen, h.eq, source_eq, recordOf_eq names (it.isName v hv) h.ne_nil rfl]

omit scattered after in
/-- A source file directly in the directory of a namespace is seen there, and was visited since. -/
theorem At.virtualIn?_of_hasSource (h : At d root sources t s source cs)
    (has : HasSource d root source cs stem kind) {before behind : List Visit} {u : Visit}
    (split : visits d root sources = before ++ u :: behind) (source_eq : u.source = source)
    (names_eq : u.names = cs) :
    ∃ v ∈ behind, v.virtualIn? s.ns = some (recordOf source cs stem kind).virtualPath := by
  subst source_eq names_eq
  obtain ⟨v, hv, source_eq, names, source?⟩ := visited_of_hasSource sound h.mem_sources has
  have isName := (itinerary_visits sound root sources).isName v hv
  obtain ⟨-, found⟩ := mem_visits.1 hv
  rw [source_eq, names] at found
  refine ⟨v, ?_, ?_⟩
  · have inside := mem_of_visits_eq sound split found
    rwa [← source_eq, ← names] at inside
  · have above : v.above.parts = s.ns.dir.parts := by
      rw [v.above_eq names isName h.ne_nil, source_eq, h.eq, namespaceIn_dir]
    rw [Visit.virtualIn?, source?]
    simp only [above, if_true]
    rw [h.eq, ← source_eq, recordOf_eq names isName h.ne_nil rfl]

/-- The files of the leaves of a namespace are the source files directly in its directory. -/
theorem At.mem_flatMap_files (h : At d root sources t s source cs) :
    q ∈ s.leaves.flatMap Leaf.files ↔ ∃ stem kind, HasSource d root source cs stem kind ∧
      q = (recordOf source cs stem kind).virtualPath := by
  obtain ⟨before, u, behind, latest, filled, source_eq, names_eq⟩ :=
    h.exists_filled sound scattered after
  rw [filled.files.mem_iff, List.mem_filterMap]
  constructor
  · rintro ⟨v, hv, seen⟩
    have visited : v ∈ visits d root sources := by
      rw [latest.eq]
      simp [hv]
    obtain ⟨stem, kind, -, -, has, eq⟩ := h.of_virtualIn? sound scattered after visited seen
    exact ⟨stem, kind, has, eq⟩
  · rintro ⟨stem, kind, has, eq⟩
    exact eq ▸ h.virtualIn?_of_hasSource sound has latest.eq source_eq names_eq

/-- No file is listed twice in a namespace. -/
theorem At.nodup_files (h : At d root sources t s source cs) :
    (s.leaves.flatMap Leaf.files).Nodup := by
  have it := itinerary_visits sound root sources
  obtain ⟨before, u, behind, latest, filled, rfl, rfl⟩ := h.exists_filled sound scattered after
  have visited {v : Visit} (hv : v ∈ behind) : v ∈ visits d root sources := by
    rw [latest.eq]
    simp [hv]
  rw [filled.files.nodup_iff]
  refine List.pairwise_filterMap.2 ((latest.pairwise_names it).imp_of_mem ?_)
  rintro v w hv hw ne q seen q' seen' rfl
  obtain ⟨stem, kind, names, -, has, eq⟩ := h.of_virtualIn? sound scattered after (visited hv) seen
  obtain ⟨stem', kind', names', above, has', eq'⟩ :=
    h.of_virtualIn? sound scattered after (visited hw) seen'
  obtain ⟨-, -, rfl, kinds⟩ := (has.made sound h.ne_nil).eq_of_parts (has'.made sound h.ne_nil)
    (by rw [← eq, ← eq'])
  obtain rfl : kind = kind' := kinds
  have long := List.length_pos_of_ne_nil h.ne_nil
  refine ne ?_ ?_ (names.trans names'.symm)
  · rw [names', List.length_append, List.length_singleton]
    omega
  · rw [above, h.eq, Visit.path, namespaceIn_dir]

variable (named : t.LeavesMade)

omit scattered after in
include named in
/-- A file of a leaf is named by the leaf's stem. -/
theorem At.stem_eq (h : At d root sources t s source cs) {l : Leaf} (hl : l ∈ s.leaves)
    (has : HasSource d root source cs stem kind)
    (mem : (recordOf source cs stem kind).virtualPath ∈ l.files) : stem = l.stem := by
  obtain ⟨f, named, same⟩ := (named s h.mem l hl).2 _ mem
  exact ((has.made sound h.ne_nil).eq_of_parts named (by rw [same])).2.2.1

include named

/-- The files of a leaf are those of its stem. -/
theorem At.mem_files_iff (h : At d root sources t s source cs) {l : Leaf} (hl : l ∈ s.leaves) :
    q ∈ l.files ↔ ∃ kind, HasSource d root source cs l.stem kind ∧
      q = (recordOf source cs l.stem kind).virtualPath := by
  constructor
  · intro hq
    obtain ⟨stem, kind, has, eq⟩ := (h.mem_flatMap_files sound scattered after).1
      (List.mem_flatMap.2 ⟨l, hl, hq⟩)
    obtain rfl := h.stem_eq sound named hl has (eq ▸ hq)
    exact ⟨kind, has, eq⟩
  · rintro ⟨kind, has, eq⟩
    rw [eq]
    obtain ⟨l', hl', hq⟩ := List.mem_flatMap.1 ((h.mem_flatMap_files sound scattered after).2
      ⟨l.stem, kind, has, rfl⟩)
    obtain ⟨before, u, behind, latest, filled, -, -⟩ := h.exists_filled sound scattered after
    obtain rfl : l' = l := eq_of_pairwise_lt filled.neat.ordered hl' hl (by
      rw [h.stem_eq sound named hl' has hq, Std.ReflOrd.compare_self])
    exact hq

/-- The leaves of a namespace are the stems of the source files directly in its directory. -/
theorem At.exists_leaf_iff (h : At d root sources t s source cs) :
    (∃ l ∈ s.leaves, l.stem = stem) ↔ ∃ kind, HasSource d root source cs stem kind := by
  constructor
  · rintro ⟨l, hl, rfl⟩
    obtain ⟨⟨q, hq, -⟩, -⟩ := named s h.mem l hl
    obtain ⟨kind, has, -⟩ := (h.mem_files_iff sound scattered after named hl).1 hq
    exact ⟨kind, has⟩
  · rintro ⟨kind, has⟩
    obtain ⟨l, hl, hq⟩ := List.mem_flatMap.1 ((h.mem_flatMap_files sound scattered after).2
      ⟨stem, kind, has, rfl⟩)
    exact ⟨l, hl, (h.stem_eq sound named hl has hq).symm⟩

omit named in
/-- The sub-namespaces of a namespace are at the directories directly in its own. -/
theorem At.mem_childScopes_iff (h : At d root sources t s source cs) :
    c ∈ t.childScopes s ↔ ∃ name, At d root sources t c source (cs ++ [name]) := by
  obtain ⟨before, u, behind, latest, filled, rfl, rfl⟩ := h.exists_filled sound scattered after
  have it := itinerary_visits sound root sources
  have here : s.ns.dir.parts = u.path.parts := by rw [h.eq, Visit.path, namespaceIn_dir]
  rw [childScopes, List.mem_filterMap, filled.children]
  constructor
  · rintro ⟨path, hp, found⟩
    obtain ⟨w, hw, rfl⟩ := List.mem_map.1 hp
    obtain ⟨hw, child⟩ := List.mem_filter.1 hw
    obtain ⟨dir, long, above⟩ := of_decide_eq_true child
    obtain ⟨source_eq, last, names⟩ := latest.exists_last it hw long (above.trans here)
    have visited : w ∈ visits d root sources := by
      rw [latest.eq]
      simp [hw]
    obtain ⟨mem, found'⟩ := mem_visits.1 visited
    unfold scopeAt? at found
    have here' := List.find?_some found
    have parts := same_iff.1 here'
    obtain ⟨s', at_⟩ := exists_scope_at sound scattered after mem (Found.enters sound (dir ▸ found'))
      found'.ne_nil
    obtain ⟨source', ds, inner⟩ := exists_at sound scattered after (List.mem_of_find?_eq_some found)
    have same : c.ns.dir.parts = s'.ns.dir.parts := by
      rw [parts, at_.parts_dir, Visit.parts_path (it.isName w visited)]
    obtain ⟨rfl, rfl⟩ := inner.names_eq sound scattered at_ same
    exact ⟨last, source_eq ▸ names ▸ inner⟩
  · rintro ⟨name, inner⟩
    have visited := visited_of_enters sound inner.mem_sources inner.enters inner.ne_nil
    obtain ⟨-, found⟩ := mem_visits.1 visited
    let w : Visit := ⟨u.source, u.names ++ [name], .dir⟩
    have above : w.above.parts = s.ns.dir.parts := by
      rw [w.above_eq rfl (it.isName w visited) h.ne_nil, here]
      rfl
    have child : w.IsChildOf s.ns := by
      have long := List.length_pos_of_ne_nil h.ne_nil
      refine ⟨rfl, ?_, above⟩
      change 1 < (u.names ++ [name]).length
      rw [List.length_append, List.length_singleton]
      omega
    refine ⟨w.path, List.mem_map_of_mem (List.mem_filter.2
      ⟨mem_of_visits_eq sound latest.eq found, decide_eq_true child⟩), ?_⟩
    exact after.shaped.scopeAt?_eq inner.mem (by rw [inner.eq, namespaceIn_dir]; rfl)

end Scanned

/-- A project with a leaf of two files, one that is an interface alone, and a sub-namespace. -/
def roomDisk : Disk :=
  sampleDisk [["lib"], ["lib", "foo"], ["lib", "foo", "bar"]]
    [(["lib", "foo", "a.ml"], ""), (["lib", "foo", "a.mli"], ""), (["lib", "foo", "b.mli"], ""),
      (["lib", "foo", "bar", "c.ml"], "")]

/-- Settings that declare a library. -/
def roomConfig : Config := { libConfig with libraries := [⟨"lib/foo"⟩] }

set_option maxRecDepth 100000 in
/-- The project is accepted. -/
theorem accepted_roomDisk :
    roomDisk.Sound ∧ Disjoint roomDisk ⟨"/p"⟩ roomConfig.sourceDirs ∧
      scan roomDisk ⟨"/p"⟩ roomConfig = .ok (sampleTree roomDisk roomConfig) :=
  ⟨by decide +kernel, .of_apart (List.pairwise_singleton _ _), scan_sampleTree (by decide +kernel)⟩

end Tree
end FlatModules
