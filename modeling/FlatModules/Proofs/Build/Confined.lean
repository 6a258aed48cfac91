import FlatModules.Proofs.Build.Inward
import FlatModules.Proofs.Disk.Confined

/-!
# Build — what is outside the build directory

Whatever a build does, it leaves everything outside the build directory as it is, but for directories
that are missing on the way there (`build_confined`).  Writing and copying go through links; but every
link that a build makes has the name of a file as its text (`MadeLink.isName`), so that it leads to
something beside it.
-/

namespace FlatModules

open Naming FlatModules.Path Text

namespace Local

variable {d : Disk} {root : Path} {config : Config} {programs : Analyzer.Programs} {t : Tree}
  {q : Path} {w : World LocalState}

/-- A link that some build made, with the text that it gave it. -/
def MadeLink (place : Place) (text : String) : Prop :=
  ∃ p q w o w', w.disk.Sound ∧ Local.build p q w = some (o, w') ∧
    w.disk.entryAt? place ≠ some (.link text) ∧ w'.disk.entryAt? place = some (.link text)

/-- The text of a link that a build made is a name. -/
theorem MadeLink.isName {place : Place} {text : String} (h : MadeLink place text) : IsName text := by
  obtain ⟨p, q, w, o, w', sound, run, new, link⟩ := h
  by_contra other
  have course : Course p (fun _ => True) w w' :=
    buildWithin_follows (closed_true p) (depth p q) q trivial _ _ _ run
  have kept := course.keeps (I := fun d => d.Sound ∧ d.entryAt? place ≠ some (.link text))
    (fun q text? d d' _ linked edit ⟨sound, new⟩ => ?_) ⟨sound, new⟩
  · exact kept.2 link
  · refine ⟨edit.sound sound, fun link => ?_⟩
    rcases edit.link_cases sound link with before | ⟨made, -⟩
    · exact new before
    · obtain ⟨f, -, named⟩ := linked text made
      exact other (isName_of_fileName? named)

/-- A build keeps the invariant of changes in the build directory, from whatever disk on it holds. -/
theorem kept_of_build (sound : d.Sound) (ok : Tree.scan d root config = .ok t)
    (inner : ∀ s ∈ config.sourceDirs, s.Inner) {start : Disk} {w' : World LocalState} {o : Outcome}
    (bare : Disk.BareInside (t.project root config programs).buildDir.names start)
    (kept : Disk.Kept (t.project root config programs).buildDir.names start w.disk) (hq : q.Inner)
    (run : Local.build (t.project root config programs) q w = some (o, w')) :
    Disk.Kept (t.project root config programs).buildDir.names start w'.disk := by
  have course : Course (t.project root config programs) Path.Inward w w' :=
    buildWithin_asks (fun _ _ hq asks => asks.inward sound ok inner hq) _ q hq.inward _ _ _ run
  refine course.keeps (I := fun e => Disk.Kept _ start e) (fun q text? e e' hq linked edit kept => ?_) kept
  refine kept.edit hq.relative hq.noUp_names bare (fun made nothing => ?_) (fun text made => ?_) edit
  · -- what is made a link is seen under a name
    obtain ⟨text, made⟩ := Option.isSome_iff_exists.1 made
    obtain ⟨f, found, -⟩ := linked text made
    have found : t.fileAt? q = some f := found
    obtain ⟨components, stem, made⟩ :=
      (Tree.Shaped.scan ok).made f (List.mem_of_find?_eq_some found)
    have same := List.find?_some found
    rw [same_iff, made.virtualPath_eq] at same
    rw [← names_congr same, names_div made.isName] at nothing
    simp at nothing
  · obtain ⟨f, -, named⟩ := linked text made
    exact isName_of_fileName? named

/-- Whatever comes of a build in a project of sources without `..`, everything outside the build
directory is as before, but for directories that were missing on the way there; if the build
directory was there already, not even these. -/
theorem build_confined (sound : d.Sound) (ok : Tree.scan d root config = .ok t)
    (inner : ∀ s ∈ config.sourceDirs, s.Inner) (sound' : w.disk.Sound)
    (links : ∀ place text, Disk.Inside (t.project root config programs).buildDir.names w.disk place →
      w.disk.entryAt? place = some (.link text) → MadeLink place text) (hq : q.Inner) :
    let p := t.project root config programs
    ∃ o w', Local.build p q w = some (o, w') ∧
      Disk.Confined p.buildDir.names w.disk w'.disk ∧
      ∀ base, w.disk.NamesLead p.buildDir.names base → ∀ place, ¬ base <+: place →
        w'.disk.entryAt? place = w.disk.entryAt? place := by
  intro p
  obtain ⟨o, w', run, -⟩ := exists_build_eq_some (p := p) t.metadata_reaches q w
  have bare : Disk.BareInside p.buildDir.names w.disk :=
    fun place text inside link => (links place text inside link).isName
  have kept := kept_of_build sound ok inner bare (.of_paved bare sound' (.refl _ _)) hq run
  exact ⟨o, w', run, kept.confined, fun base lead place apart => kept.confined.same sound' lead apart⟩

set_option maxRecDepth 100000 in
/-- Two builds in a small project, the second with the links of the first. -/
theorem build_confined_smallDisk :
    let p := sampleProject smallDisk libConfig
    smallDisk.Sound ∧ Tree.scan smallDisk ⟨"/p"⟩ libConfig = .ok (sampleTree smallDisk libConfig) ∧
    (∀ s ∈ libConfig.sourceDirs, s.Inner) ∧ (⟨"lib/foo.ml"⟩ : Path).Inner ∧
    ∃ o w, Local.build p ⟨"lib/foo/foo__a.ml"⟩ (newWorld smallDisk) = some (o, w) ∧
      w.disk.Sound ∧
      (∀ place text, Disk.Inside p.buildDir.names w.disk place →
        w.disk.entryAt? place = some (.link text) → MadeLink place text) ∧
      ∃ o' w', Local.build p ⟨"lib/foo.ml"⟩ (newWorld w.disk) = some (o', w') ∧
        Disk.Confined p.buildDir.names w.disk w'.disk := by
  intro p
  have sound : smallDisk.Sound := by decide +kernel
  have accepted := scan_sampleTree (d := smallDisk) (c := libConfig) (by decide +kernel)
  have inner : ∀ s ∈ libConfig.sourceDirs, s.Inner := by decide +kernel
  have target : (⟨"lib/foo.ml"⟩ : Path).Inner := by decide +kernel
  have plain : ∀ x ∈ smallDisk.entries, x.2.link? = none := by decide +kernel
  obtain ⟨o, w, run, -⟩ := exists_build_eq_some (p := p)
    (sampleTree smallDisk libConfig).metadata_reaches ⟨"lib/foo/foo__a.ml"⟩ (newWorld smallDisk)
  have sound' : w.disk.Sound := (Calls.course (.target run)).sound sound
  have links : ∀ place text, Disk.Inside p.buildDir.names w.disk place →
      w.disk.entryAt? place = some (.link text) → MadeLink place text := by
    intro place text _ link
    refine ⟨p, _, _, o, w, sound, run, fun before => ?_, link⟩
    have before : smallDisk.entryAt? place = some (.link text) := before
    simpa [Entry.link?] using plain _ (sound.mem_of_link before)
  obtain ⟨o', w', run', confined, -⟩ := @build_confined _ _ _ (fun _ _ _ _ => .error .notFound) _ _
    (newWorld w.disk) sound accepted inner sound' links target
  exact ⟨sound, accepted, inner, target, o, w, run, sound', links, o', w', run', confined⟩

end Local
end FlatModules
