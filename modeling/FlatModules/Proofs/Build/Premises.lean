import FlatModules.Proofs.Build.Owners

/-!
# Build — the project that is built

What is taken of a project for its builds to be settled by what it is (`Site.Prepared`), and that
building changes none of its own files: where an artifact has a file in the project, that is read
alike on every disk on which anything may have been built (`Prepared.readBytes_iff`).
-/

namespace FlatModules

open Naming Path Tree

/-- A project that a scan accepts, with sources that lead straight down and apart from each other,
and with nothing built.  The targets of signals keep aside from the sources that are used. -/
structure Site.Prepared (s : Site) (used : List Path) : Prop where
  clean : s.Clean
  accepted : Tree.scan s.disk s.root s.config = .ok s.tree
  apart : Apart s.config.sourceDirs
  sub : used ⊆ s.config.sourceDirs
  apart_used : Apart used
  direct : ∀ source ∈ used, source.Direct
  aside : ∀ source ∈ used, ∀ q components file, q.Lies source components file →
    ∀ message : String, '/' ∉ message.toList → Aside used ⟨signalKey q message⟩

namespace Site.Prepared

variable {s : Site} {used : List Path} {source q : Path} {components names : List String}
  {file base extension : String} {a : Artifact} {d : Disk}

theorem tidy (h : s.Prepared used) :
    s.tree.Tidy s.config.sourceDirs (FoundIn s.disk s.root s.config.sourceDirs) :=
  .scan h.clean.sound h.apart h.accepted

theorem shaped (h : s.Prepared used) : s.tree.Shaped s.config.sourceDirs := h.tidy.shaped

/-- What sits in a directory is there because something is found in it. -/
theorem exists_found (h : s.Prepared used) (ha : s.tree.Has a) (hs : source ∈ used)
    (sits : a.Sits source components base extension) :
    ∃ x entry, Found s.disk s.root source (components ++ [x]) entry := by
  -- the record of a source file and the visit of it name one place
  have record {f : NamespacedFile} (hf : f ∈ s.tree.files) {source : Path}
      {components : List String} {stem : String} (hs : source ∈ used)
      (lies : f.LiesIn source components stem) :
      ∃ x entry, Found s.disk s.root source (components ++ [x]) entry := by
    obtain ⟨source', components', stem', entry, hs', done, -, lies', -⟩ := h.tidy.file f hf
    have names := (Artifact.Sits.original lies).lies.names.symm.trans
      (Artifact.Sits.original lies').lies.names
    obtain ⟨rfl, rest⟩ := h.apart.eq (h.sub hs) hs' names
    obtain ⟨rfl, -⟩ := List.append_inj' rest rfl
    exact ⟨_, entry, done.2⟩
  have namespace_ {ns : Namespace} (hn : ns ∈ s.tree.namespaces) {source : Path} (hs : source ∈ used)
      (lies : ns.LiesBelow source) :
      ∃ x entry, Found s.disk s.root source (ns.components.dropLast ++ [x]) entry := by
    obtain ⟨source', components', done, rfl⟩ := (h.tidy.namespace_iff ns).1 hn
    obtain ⟨front, last, e⟩ := (List.eq_nil_or_concat' components').resolve_left lies.ne_nil
    have isName := fun n hn => done.2.isName h.clean.sound n hn
    have dirs : (source.below components').parts = (source'.below components').parts :=
      congrArg Path.parts lies.dir_eq.symm
    obtain ⟨rfl, -⟩ := namespaceIn_eq_of_parts h.apart (h.sub hs) done.1 isName isName dirs
    refine ⟨last, .dir, ?_⟩
    rw [namespaceIn_components, e, List.dropLast_concat, ← e]
    exact done.2
  induction sits with
  | original lies | virtual lies => exact record ha hs lies
  | stamp lies | root lies | aliases lies => exact namespace_ ha hs lies
  | depends _ ih => exact ih ha hs

end Site.Prepared

namespace Tree.Found

variable {d : Disk} {root source : Path} {names : List String} {entry : Entry}

/-- Where there are no links, what is found below a source is at the place that its names spell. -/
theorem exists_place (h : Found d root source names entry) (sound : d.Sound)
    (plain : ∀ q text, d.entryAt? q ≠ some (.link text)) :
    d.Dirs (Place.trail [] (root / source).names) ∧
      d.entryAt? (Place.follow [] (root / source).names ++ names) = some entry := by
  obtain ⟨place, dir, located, mem, -⟩ := h
  have noLinks : d.NoLinks (Place.trail [] (root / source).names) := fun q _ => plain q
  have place_eq := Disk.locate_of_isDir sound noLinks dir
  obtain rfl := Except.ok.inj (located.symm.trans place_eq)
  obtain ⟨ne, mem⟩ := mem_below.1 mem
  exact ⟨((Disk.isDir_iff sound noLinks).1 dir).2,
    (sound.entryAt?_eq_some_iff (by simp [ne])).2 mem⟩

end Tree.Found

namespace Site

variable {s : Site} {used : List Path} {source : Path} {components : List String}
  {base extension : String} {a : Artifact} {d : Disk}

/-- Before anything is built, the disk is in order. -/
theorem Clean.tended (h : s.Clean) (used : List Path) : s.Tended used s.disk where
  sound := h.sound
  outside _ _ := .inl rfl
  inside names entry ne e := by
    rw [h.empty _ ⟨names, ne, rfl⟩] at e
    simp at e

/-- Outside the build directory nothing but directories is new. -/
theorem Tended.entryAt?_iff (h : s.Tended used d) {at_ : Place} (off : ¬ s.Within at_)
    {entry : Entry} (ne : entry ≠ .dir) :
    d.entryAt? at_ = some entry ↔ s.disk.entryAt? at_ = some entry := by
  rcases h.outside at_ off with same | ⟨-, none_, dir⟩
  · rw [same]
  · rw [none_, dir]
    simp [Ne.symm ne]

namespace Prepared

/-- The directory that an artifact has in the project, outside the build directory. -/
theorem dirs_of_sits (h : s.Prepared used) (ha : s.tree.Has a) (hs : source ∈ used)
    (sits : a.Sits source components base extension) :
    s.disk.Dirs (Place.trail [] ((s.root / source).names ++ components)) ∧
      ∀ x, ¬ s.Within (Place.follow [] (s.root / source).names ++ components ++ [x]) := by
  obtain ⟨x, entry, found⟩ := h.exists_found ha hs sits
  obtain ⟨dirs, there⟩ := found.exists_place h.clean.sound h.clean.plain
  have noUp : ".." ∉ components := fun mem =>
    (isName_of_isComponent (sits.lies.valid _ mem)).ne_up rfl
  refine ⟨fun at_ mem => ?_, fun y within => ?_⟩
  · rw [Place.trail_append, List.mem_append] at mem
    rcases mem with mem | mem
    · exact dirs at_ mem
    · obtain ⟨front, -, ⟨rest, rfl⟩, rfl⟩ := (Place.mem_trail_of_noUp noUp).1 mem
      have deeper : s.disk.entryAt? (Place.follow [] (s.root / source).names ++ front ++ (rest ++ [x])) =
          some entry := by simpa using there
      exact h.clean.sound.dir_of_prefix (by simp) deeper
  · obtain ⟨names, ne, e⟩ := within
    obtain ⟨front, last, rfl⟩ := (List.eq_nil_or_concat' names).resolve_left ne
    rw [← List.append_assoc] at e
    obtain ⟨e, -⟩ := List.append_inj' e rfl
    rw [← List.append_assoc, e, List.append_assoc,
      h.clean.empty _ ⟨front ++ [x], by simp, rfl⟩] at there
    simp at there

/-- The place of an artifact in the project. -/
theorem follow_root (h : s.Prepared used) (hs : source ∈ used)
    (sits : a.Sits source components base extension) :
    Place.follow [] (s.root / a.path).names =
      Place.follow [] (s.root / source).names ++ components ++ [base ++ "." ++ extension] := by
  have noUp : ".." ∉ components ++ [base ++ "." ++ extension] := fun mem =>
    (sits.lies.straight (h.direct source hs)).noUp (by
      rw [List.append_assoc]
      exact List.mem_append_right _ mem)
  rw [names_div_of_parts sits.lies.parts, Place.follow_append, Place.follow_of_noUp noUp,
    List.append_assoc]

theorem not_within_root (h : s.Prepared used) (ha : s.tree.Has a) (hs : source ∈ used)
    (sits : a.Sits source components base extension) :
    ¬ s.Within (Place.follow [] (s.root / a.path).names) := by
  rw [h.follow_root hs sits]
  exact (h.dirs_of_sits ha hs sits).2 _

section Tended

variable (h : s.Prepared used) (ha : s.tree.Has a) (hs : source ∈ used)
  (sits : a.Sits source components base extension) (tended : s.Tended used d)

include h ha hs sits tended

theorem leads_root : d.Leads (s.root / a.path) ((s.root / source).names ++ components)
    (base ++ "." ++ extension) ∧
      d.Dirs (Place.trail [] ((s.root / source).names ++ components)) := by
  have straight := sits.lies.straight (h.direct source hs)
  have dirs : d.Dirs (Place.trail [] ((s.root / source).names ++ components)) := by
    intro at_ mem
    have dir := (h.dirs_of_sits ha hs sits).1 at_ mem
    have off : ¬ s.Within at_ := fun within => by
      rw [h.clean.empty at_ within] at dir
      simp at dir
    rcases tended.outside at_ off with same | ⟨-, none_, -⟩
    · rw [same, dir]
    · rw [dir] at none_
      simp at none_
  refine ⟨⟨straight.ends_div _, ?_, straight.ne_up, dirs.noLinks⟩, dirs⟩
  rw [names_div_of_parts sits.lies.parts, List.append_assoc]

/-- No link is where an artifact is in the project. -/
theorem no_link_root (text : String) :
    d.entryAt? (Place.follow [] (s.root / a.path).names) ≠ some (.link text) := by
  rw [ne_eq, tended.entryAt?_iff (h.not_within_root ha hs sits) (by simp)]
  exact h.clean.plain _ text

/-- The project's own file of an artifact is read alike on every disk that is in order. -/
theorem readBytes_iff {bytes : ByteArray} :
    d.readBytes (s.root / a.path) = .ok bytes ↔ s.disk.readBytes (s.root / a.path) = .ok bytes := by
  have read {d : Disk} (tended : s.Tended used d) :
      d.readBytes (s.root / a.path) = .ok bytes ↔ (s.root / a.path).Fits ∧
        s.disk.entryAt? (Place.follow [] (s.root / a.path).names) = some (.file bytes) := by
    obtain ⟨leads, dirs⟩ := h.leads_root ha hs sits tended
    rw [leads.readBytes_eq_ok_iff tended.sound (.here (h.no_link_root ha hs sits tended)),
      tended.entryAt?_iff (h.not_within_root ha hs sits) (by simp)]
    exact and_congr_right fun _ => and_iff_right dirs
  rw [read tended, read (h.clean.tended used)]

end Tended

/-- The project's own file of an artifact is read where that is. -/
theorem readBytes_root (h : s.Prepared used) (ha : s.tree.Has a) (hs : source ∈ used)
    (sits : a.Sits source components base extension) (fits : (s.root / a.path).Fits)
    {bytes : ByteArray} (there : s.disk.entryAt? (Place.follow [] (s.root / source).names ++ components ++
      [base ++ "." ++ extension]) = some (.file bytes)) :
    s.disk.readBytes (s.root / a.path) = .ok bytes := by
  have tended := h.clean.tended used
  obtain ⟨leads, dirs⟩ := h.leads_root ha hs sits tended
  have landed := Disk.Lands.here (h.no_link_root ha hs sits tended)
  rw [← h.follow_root hs sits] at there
  exact (leads.readBytes_eq_ok_iff h.clean.sound landed).2 ⟨fits, dirs, there⟩

/-- Where something is built there is a build directory to name. -/
theorem buildDir_names_ne_nil (h : s.Prepared used) (ha : s.tree.HasIn used a) :
    s.buildDir.names ≠ [] := by
  intro nil
  obtain ⟨has, source, hs, components, base, extension, sits⟩ := ha
  obtain ⟨x, entry, found⟩ := h.exists_found has hs sits
  obtain ⟨-, there⟩ := found.exists_place h.clean.sound h.clean.plain
  have base_ : s.base = [] := by
    rw [Site.base, nil]
    rfl
  have within : s.Within (Place.follow [] (s.root / source).names ++ (components ++ [x])) :=
    ⟨Place.follow [] (s.root / source).names ++ (components ++ [x]), by simp, by rw [base_]; rfl⟩
  rw [h.clean.empty _ within] at there
  simp at there

end Prepared
end Site
end FlatModules
