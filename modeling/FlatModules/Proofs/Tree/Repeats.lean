import FlatModules.Proofs.Tree.Inside
import FlatModules.Proofs.Tree.Marks

/-!
# Trees — source directories that are listed again

A scan that comes to a source directory once more puts empty namespaces in place of those that it
made before, and fills them again with the same entries.  Where source directories do not lie in each
other, a namespace therefore holds what is found directly in its directory in one walk, whatever was
visited before and after (`At.eq_scopeOf`), and a project has one tree for all lists of the same source
directories, in any order and however often each is listed (`scan_of_same_sources`).
-/

namespace FlatModules

open Naming FlatModules.Path

namespace Tree

variable {d : Disk} {root source : Path} {sources sources' : List Path} {config : Config}
  {t t' : Tree} {s : Scope} {cs : List String} {e : Entity}

/-! ### What fills a namespace -/

/-- A namespace with what entries put into it. -/
def filledWith (ns : Namespace) (vs : List Visit) : Scope where
  ns := ns
  children := (vs.filter (·.IsChildOf ns)).map Visit.path
  leaves := (vs.filterMap (·.leafIn? ns)).foldl (fun ls l => addToLeaf l ls) []

theorem FilledBy.eq {claims : List Claim} {vs : List Visit} (h : FilledBy claims s vs) :
    s = filledWith s.ns vs := by
  rw [filledWith, ← h.leaves, ← h.children]

/-- Entries that are not in its directory put nothing into a namespace. -/
theorem filledWith_filter (ns : Namespace) (vs : List Visit) :
    filledWith ns (vs.filter fun v => v.above.parts = ns.dir.parts) = filledWith ns vs := by
  have children : (vs.filter fun v => v.above.parts = ns.dir.parts).filter (·.IsChildOf ns) =
      vs.filter (·.IsChildOf ns) := by
    rw [List.filter_filter]
    refine List.filter_congr fun v _ => ?_
    by_cases child : v.IsChildOf ns
    · simp [child, child.2.2]
    · simp [child]
  have leaves : (vs.filter fun v => v.above.parts = ns.dir.parts).filterMap (·.leafIn? ns) =
      vs.filterMap (·.leafIn? ns) := by
    rw [List.filterMap_filter]
    refine List.filterMap_congr fun v _ => ?_
    unfold Visit.leafIn?
    cases v.source? <;> simp
  rw [filledWith, children, leaves, filledWith]

/-- The namespace of a directory with what a walk from the source directory finds directly in it. -/
def scopeOf (d : Disk) (root source : Path) (cs : List String) : Scope :=
  filledWith (namespaceIn source cs) (visitsIn d root source)

section Scanned

variable (sound : d.Sound) (scattered : Scattered d root sources)

include sound scattered

/-- What is visited in a directory is named after it. -/
theorem exists_name_of_above {u w : Visit} (hu : u ∈ visits d root sources) (dir : u.entry = .dir)
    (hw : w ∈ visits d root sources) (inside : w.above.parts = u.path.parts) :
    w.source = u.source ∧ ∃ name, w.names = u.names ++ [name] := by
  obtain ⟨source_eq, names_eq⟩ := names_of_above sound scattered hu dir hw inside.symm
  have ne := (itinerary_visits sound root sources).ne_nil w hw
  exact ⟨source_eq.symm, w.names.getLast ne, by rw [names_eq, List.dropLast_append_getLast]⟩

/-- What is visited in a directory after the last visit of the directory is what one walk finds
there: an entry that came up once more would come after the directory once more. -/
theorem Latest.filter_above {before after : List Visit} {u : Visit}
    (latest : Latest (visits d root sources) before u after) :
    after.filter (fun w => w.above.parts = u.path.parts) =
      (visitsIn d root u.source).filter fun w => w.above.parts = u.path.parts := by
  have it := itinerary_visits sound root sources
  obtain ⟨source, hs, front, back, -, last, here, -, rfl⟩ := exists_of_flatMap_eq latest.eq
  have hu : u ∈ visitsIn d root source := by rw [here]; simp
  obtain ⟨rfl, -⟩ := mem_visitsIn.1 hu
  have named {w : Visit} := exists_name_of_above (w := w) sound scattered latest.mem latest.dir
  have placed {w : Visit} (hw : w ∈ visits d root sources) (inside : w.above.parts = u.path.parts) :
      w ∉ front ∧ w ∈ back := by
    obtain ⟨source_eq, name, names⟩ := named hw inside
    exact mem_back_of_visitsIn_eq sound here
      (mem_visitsIn.2 ⟨source_eq, source_eq ▸ (mem_visits.1 hw).2⟩) names
  have outside : u.above.parts ≠ u.path.parts := fun inside => by
    obtain ⟨-, name, names⟩ := named latest.mem inside
    simp at names
  have none_front : front.filter (fun w => w.above.parts = u.path.parts) = [] := by
    refine List.filter_eq_nil_iff.2 fun w hw inside => ?_
    have visited : w ∈ visits d root sources := List.mem_flatMap_of_mem hs (by rw [here]; simp [hw])
    exact (placed visited (of_decide_eq_true inside)).1 hw
  have none_last : last.filter (fun w => w.above.parts = u.path.parts) = [] := by
    refine List.filter_eq_nil_iff.2 fun w hw inside => ?_
    have inside := of_decide_eq_true inside
    have visited : w ∈ visits d root sources := by rw [latest.eq]; simp [hw]
    obtain ⟨-, name, names⟩ := named visited inside
    obtain ⟨more, rest, rfl⟩ := List.append_of_mem hw
    obtain ⟨-, -, only⟩ := latest.within it (List.append_assoc _ _ _).symm names
      (it.ne_nil u latest.mem) inside
    exact (only w (List.mem_append_left _ (placed visited inside).2)).2.2 rfl
  rw [here, List.filter_append, List.filter_append, none_front, none_last,
    List.filter_cons_of_neg (by simpa using outside), List.append_nil, List.nil_append]

variable (after : After sources (visits d root sources) t)

include after

/-- A namespace holds what one walk finds in its directory. -/
theorem At.eq_scopeOf (h : At d root sources t s source cs) : s = scopeOf d root source cs := by
  obtain ⟨before, u, behind, latest, filled, rfl, rfl⟩ := h.exists_filled sound scattered after
  have same := latest.filter_above sound scattered
  rw [filled.eq, h.eq, scopeOf, ← filledWith_filter _ behind, ← filledWith_filter _ (visitsIn _ _ _)]
  exact congrArg (filledWith _) same

/-- The namespaces of a tree are those of the directories that a scan enters, with what is in them. -/
theorem mem_scopes_iff : s ∈ t.scopes ↔
    ∃ source cs, HasEntity d root sources (.directory source cs) ∧ s = scopeOf d root source cs := by
  constructor
  · intro hs
    obtain ⟨source, cs, h⟩ := exists_at sound scattered after hs
    exact ⟨source, cs, .directory h.mem_sources h.enters h.ne_nil, h.eq_scopeOf sound scattered after⟩
  · rintro ⟨source, cs, has, rfl⟩
    cases has with
    | directory hs enters ne =>
      obtain ⟨s, h⟩ := exists_scope_at sound scattered after hs enters ne
      exact h.eq_scopeOf sound scattered after ▸ h.mem

end Scanned

/-! ### What a tree is asked for -/

/-- Whether trees are the same but for the order of names at the top, for executables and for claims. -/
structure Alike (t t' : Tree) : Prop where
  scopes : t'.scopes = t.scopes
  files : t'.files = t.files
  libraries : t'.libraries = t.libraries
  topLevel : ∀ name, name ∈ t'.topLevel ↔ name ∈ t.topLevel

namespace Alike

variable (h : Alike t t')

include h

theorem eq_with : t' = { t with
    topLevel := t'.topLevel, executables := t'.executables, claims := t'.claims } := by
  rw [← h.scopes, ← h.files, ← h.libraries]

theorem scopeAt? : t'.scopeAt? = t.scopeAt? := by
  rw [h.eq_with]
  rfl

theorem namespaces : t'.namespaces = t.namespaces := by
  rw [Tree.namespaces, Tree.namespaces, h.scopes]

theorem members : t'.members = t.members := by
  rw [h.eq_with]
  rfl

theorem closure : t'.closure = t.closure := by
  rw [h.eq_with]
  rfl

theorem collect (n : Nat) : t'.collect n = t.collect n := by
  have childScopes : t'.childScopes = t.childScopes := by rw [h.eq_with]; rfl
  induction n with
  | zero => rfl
  | succ n ih =>
    funext s
    rw [Tree.collect, Tree.collect, childScopes, ih]

theorem libraryMembers? : t'.libraryMembers? = t.libraryMembers? := by
  have isLibrary : t'.isLibrary = t.isLibrary := by rw [h.eq_with]; rfl
  funext ns
  rw [Tree.libraryMembers?, Tree.libraryMembers?, isLibrary, h.scopeAt?, h.collect, h.scopes]

theorem fileAt? : t'.fileAt? = t.fileAt? := by
  rw [h.eq_with]
  rfl

/-- Resolution asks for names at the top one by one. -/
theorem resolveFrom? (name : String) (n : Nat) (dir : Path) :
    t'.resolveFrom? name n dir = t.resolveFrom? name n dir := by
  have findMember? : t'.findMember? = t.findMember? := by rw [h.eq_with]; rfl
  induction n generalizing dir with
  | zero => rfl
  | succ n ih => simp only [Tree.resolveFrom?, h.scopeAt?, findMember?, ih, h.topLevel]

theorem resolve? : t'.resolve? = t.resolve? := by
  funext f name
  rw [Tree.resolve?, Tree.resolve?, h.resolveFrom?, h.scopes]

end Alike

/-! ### The same source directories -/

section Same

variable (sound : d.Sound) (scattered : Scattered d root sources)
  (same : ∀ s, s ∈ sources' ↔ s ∈ sources)

include same

theorem Scattered.of_same (h : Scattered d root sources) : Scattered d root sources' :=
  fun _ hs _ ht ne => h ((same _).1 hs) ((same _).1 ht) ne

theorem mem_visits_of_same {v : Visit} : v ∈ visits d root sources' ↔ v ∈ visits d root sources := by
  rw [mem_visits, mem_visits, same]

include sound

theorem hasEntity_of_same : HasEntity d root sources' e ↔ HasEntity d root sources e := by
  simp only [hasEntity_iff sound, mem_visits_of_same same]

theorem clashing_of_same : Clashing d root sources' ↔ Clashing d root sources := by
  simp only [Clashing, hasEntity_of_same sound same]

theorem entered_of_same {path : Path} :
    Entered d root sources' path ↔ Entered d root sources path := by
  simp only [Entered, hasEntity_of_same sound same]

include scattered

/-- Visits of the same source directories leave the same namespaces and files. -/
theorem After.of_same (after : After sources (visits d root sources) t)
    (after' : After sources' (visits d root sources') t') :
    t'.scopes = t.scopes ∧ t'.files = t.files := by
  have scattered' := scattered.of_same same
  constructor
  · refine eq_of_pairwise_lt_of_mem_iff after'.shaped.pairwise_scopes after.shaped.pairwise_scopes
      fun s => ?_
    simp only [mem_scopes_iff sound scattered after, mem_scopes_iff sound scattered' after',
      hasEntity_of_same sound same]
  · refine eq_of_pairwise_lt_of_mem_iff after'.shaped.files_ordered after.shaped.files_ordered
      fun f => ?_
    simp only [files_iff sound scattered after, files_iff sound scattered' after', same]

end Same

/-- Neither the order of source directories matters nor how often each is listed, if none lies in
another: a project has a tree for both lists or for none, and both trees give the same answers. -/
theorem scan_of_same_sources (sound : d.Sound) (disjoint : Disjoint d root config.sourceDirs)
    (same : ∀ s, s ∈ sources ↔ s ∈ config.sourceDirs) :
    ((∃ t, scan d root { config with sourceDirs := sources } = .ok t) ↔
      ∃ t, scan d root config = .ok t) ∧
    ∀ t t', scan d root config = .ok t →
      scan d root { config with sourceDirs := sources } = .ok t' →
        t'.namespaces = t.namespaces ∧ t'.files = t.files ∧ t'.members = t.members ∧
        t'.closure = t.closure ∧ t'.libraryMembers? = t.libraryMembers? ∧
        t'.resolve? = t.resolve? ∧ t'.fileAt? = t.fileAt? := by
  have scattered := disjoint.scattered
  have scattered' : Scattered d root sources := scattered.of_same same
  refine ⟨?_, fun t t' ok ok' => ?_⟩
  · rw [scan_ok_iff sound scattered, scan_ok_iff sound scattered']
    simp only [clashing_of_same sound same, entered_of_same sound same]
  · obtain ⟨scopes, files⟩ :=
      After.of_same sound scattered same (After.scan sound ok) (After.scan sound ok')
    have alike : Alike t t' := {
      scopes
      files
      libraries := by rw [libraries_of_scan sound ok, libraries_of_scan sound ok']
      topLevel := fun name => by
        simp only [mem_topLevel sound ok, mem_topLevel sound ok', mem_visits_of_same same] }
    exact ⟨alike.namespaces, files, alike.members, alike.closure, alike.libraryMembers?,
      alike.resolve?, alike.fileAt?⟩

/-- A project with two source directories. -/
def twoRootsDisk : Disk :=
  sampleDisk [["lib"], ["lib", "foo"], ["lib", "foo", "bar"], ["src"], ["src", "baz"]]
    [(["lib", "foo", "a.ml"], ""), (["lib", "foo", "a.mli"], ""), (["lib", "foo", "bar", "c.ml"], ""),
      (["src", "baz", "b.ml"], "")]

/-- Settings that list each of the two once. -/
def twoRootsConfig : Config := { sourceDirs := [⟨"lib"⟩, ⟨"src"⟩], libraries := [⟨"lib/foo"⟩] }

set_option maxRecDepth 100000 in
/-- The project is accepted. -/
theorem accepted_twoRootsDisk :
    twoRootsDisk.Sound ∧ Disjoint twoRootsDisk ⟨"/p"⟩ twoRootsConfig.sourceDirs ∧
      scan twoRootsDisk ⟨"/p"⟩ twoRootsConfig = .ok (sampleTree twoRootsDisk twoRootsConfig) :=
  ⟨by decide +kernel, .of_apart (by unfold Apart; decide +kernel),
    scan_sampleTree (by decide +kernel)⟩

/-- The project has the same namespaces if its source directories are listed twice, the other way
round. -/
theorem scan_of_same_sources_twoRootsDisk :
    let t := sampleTree twoRootsDisk twoRootsConfig
    twoRootsDisk.Sound ∧ Disjoint twoRootsDisk ⟨"/p"⟩ twoRootsConfig.sourceDirs ∧
      scan twoRootsDisk ⟨"/p"⟩ twoRootsConfig = .ok t ∧ t.files.length = 4 ∧
      ∃ t', scan twoRootsDisk ⟨"/p"⟩
          { twoRootsConfig with sourceDirs := [⟨"src"⟩, ⟨"lib"⟩, ⟨"src"⟩, ⟨"lib"⟩] } = .ok t' ∧
        t'.namespaces = t.namespaces ∧ t'.files = t.files ∧ t'.closure = t.closure := by
  intro t
  obtain ⟨sound, disjoint, accepted⟩ := accepted_twoRootsDisk
  have same (s : Path) :
      s ∈ [⟨"src"⟩, ⟨"lib"⟩, ⟨"src"⟩, ⟨"lib"⟩] ↔ s ∈ twoRootsConfig.sourceDirs := by
    change s ∈ twoRootsConfig.sourceDirs.reverse ++ twoRootsConfig.sourceDirs.reverse ↔ _
    simp
  obtain ⟨both, alike⟩ := scan_of_same_sources sound disjoint same
  obtain ⟨t', ok'⟩ := both.2 ⟨t, accepted⟩
  obtain ⟨namespaces, files, -, closure, -⟩ := alike t t' accepted ok'
  exact ⟨sound, disjoint, accepted, by decide +kernel, t', ok', namespaces, files, closure⟩

end Tree
end FlatModules
