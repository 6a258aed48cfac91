import FlatModules.Proofs.Build.Works

/-!
# Build — putting artifacts in place

What the steps on the disk come to by which artifacts are built: each puts its artifact in place
exactly if that is usable, and keeps the world in order otherwise (`Doing.written`, `Doing.copied`,
`Doing.replaced`).
-/

namespace FlatModules

open Naming Path Tree Local

namespace Site

variable {s : Site} {used : List Path} {a : Artifact} {source : Path} {components : List String}
  {base extension : String} {w : World LocalState} {d' : Disk} {r : Except DiskError Unit}

/-- The text of a link that a source file is seen by is one that links can have. -/
theorem Linked.checkPath {names : List String} {stem text : String} {kind : SourceKind}
    (h : s.Linked source components stem kind names text) : Disk.checkPath ⟨text⟩ = .ok () := by
  have zero : '\x00' ∉ text.toList := by
    have inStem : '\x00' ∉ stem.toList := fun mem =>
      absurd (isComponentChar_of_isComponent h.isComponent_stem mem) (by decide)
    have inExtension : '\x00' ∉ kind.extension.toList := by cases kind <;> decide
    rw [h.text_eq]
    simp [inStem, inExtension]
  have some_ : text.isEmpty = false := by simpa using h.isName.1
  have short : ¬ text.utf8ByteSize > Disk.pathLimit := by
    have : Disk.nameLimit ≤ Disk.pathLimit := by decide
    have := h.short
    omega
  simp [Disk.checkPath, Disk.checkSpelling, zero, some_, short, bind, Except.bind, pure, Except.pure]

/-- An artifact that is being built, where it sits. -/
structure Doing (s : Site) (used : List Path) (w : World LocalState) (a : Artifact) (source : Path)
    (components : List String) (base extension : String) : Prop where
  prepared : s.Prepared used
  works : s.Works used w
  has : s.tree.Has a
  mem : source ∈ used
  sits : a.Sits source components base extension
  busy : listsPath a.path w.own.inProgress = true

namespace Doing

variable (h : s.Doing used w a source components base extension)

include h

theorem hasIn : s.tree.HasIn used a := ⟨h.has, source, h.mem, _, _, _, h.sits⟩

theorem lies : a.path.Lies source components (base ++ "." ++ extension) := h.sits.lies

theorem direct : source.Direct := h.prepared.direct source h.mem

theorem target : s.Target used a.path (source.names ++ components) (base ++ "." ++ extension) :=
  target_of_lies h.prepared.apart_used h.mem h.direct h.lies

theorem leads : w.disk.Leads (s.buildDir / a.path) (s.buildDir.names ++ (source.names ++ components))
    (base ++ "." ++ extension) :=
  h.works.tended.leads h.prepared.clean h.target

theorem above_ne_nil : s.buildDir.names ++ (source.names ++ components) ≠ [] :=
  List.append_ne_nil_of_left_ne_nil (h.prepared.buildDir_names_ne_nil h.hasIn) _

/-- Saving at a place of the artifact's own. -/
theorem saved {x : String} (isName : IsName x) (dotted : '.' ∈ x.toList)
    (plain : ∀ n ∈ (components ++ [x]).head?, '<' ∉ n.toList)
    (way : s.base ++ (source.names ++ (components ++ [x])) ∈ s.way ↔ s.base ++ a.path.names ∈ s.way)
    (owns : a.Owns used (source.names ++ (components ++ [x]))) {entry : Entry} (ne : entry ≠ .dir)
    (link : ∀ text, entry = .link text → ∃ stem kind,
      s.Linked source components stem kind (source.names ++ (components ++ [x])) text)
    (saved : w.disk.Saved (s.buildDir / a.path) (s.buildDir.names ++ (source.names ++ components))
      (s.base ++ (source.names ++ (components ++ [x]))) entry (r, d')) :
    s.Works used { w with disk := d' } ∧
      s.Alters w.disk (source.names ++ (components ++ [x])) d' ∧
      ((r = .ok () ∧ s.Usable a.path ∧ d'.Dirs s.way ∧
          d'.entryAt? (s.base ++ (source.names ++ (components ++ [x]))) = some entry) ∨
        (∃ e, r = .error e) ∧ ¬ s.Usable a.path) := by
  have savable := h.works.tended.savable_iff h.prepared.clean h.mem h.direct h.lies dotted plain way
  have fits := fitting_of_dotted (s := s) h.prepared.apart_used h.mem dotted ne link
  have split : source.names ++ (components ++ [x]) = source.names ++ components ++ [x] := by simp
  rw [split] at saved savable fits owns ⊢
  obtain ⟨tended, alters, done⟩ := h.works.tended.saved h.target isName fits saved
  refine ⟨h.works.alter h.prepared tended alters fun b hb owned => ?_, alters, ?_⟩
  · have same := owned.eq h.prepared.shaped h.prepared.apart_used hb h.hasIn owns
    exact same ▸ h.works.busy a h.hasIn h.busy
  · clear tended alters
    generalize result : (r, d') = result at saved
    cases saved with
    | done can =>
      obtain ⟨rfl, rfl⟩ := Prod.mk.inj result
      exact .inl ⟨rfl, savable.1 can, done rfl⟩
    | refused not_ =>
      obtain ⟨rfl, rfl⟩ := Prod.mk.inj result
      exact .inr ⟨⟨_, rfl⟩, fun usable => not_ (savable.2 usable)⟩

/-- Putting a file where an artifact goes that is no link. -/
theorem put_file (plain : ∀ f, a ≠ .virtual f) {bytes : ByteArray}
    (saved : ∀ goal, w.disk.Lands (Place.follow [] (s.buildDir / a.path).names) goal →
      s.Within goal → w.disk.Saved (s.buildDir / a.path)
        (s.buildDir.names ++ (source.names ++ components)) goal (.file bytes) (r, d')) :
    s.Works used { w with disk := d' } ∧
      ((r = .ok () ∧ s.Usable a.path ∧ s.Holds d' a.path bytes) ∨
        (∃ e, r = .error e) ∧ ¬ s.Usable a.path) := by
  obtain ⟨x, goes⟩ := h.works.tended.exists_goes h.prepared.apart_used h.mem h.lies
  have lands := goes.lands h.works.tended h.prepared.apart_used h.mem h.lies
  have owns : a.Owns used (source.names ++ (components ++ [x])) := by
    cases goes with
    | here => exact h.lies.names ▸ .own
    | linked _ linked =>
      exact (linked.owner h.mem h.sits).resolve_right fun ⟨f, e, _⟩ => plain f e
  have saved := saved _ (h.target.follow ▸ lands) ⟨_, by simp, rfl⟩
  obtain ⟨works, alters, done⟩ := h.saved (goes.isName h.lies) (goes.dotted h.lies)
    (goes.head_plain h.lies) (goes.mem_way_iff h.works.tended h.lies) owns (by simp) (by simp) saved
  refine ⟨works, done.imp_left fun ⟨ok, usable, dirs, there⟩ => ⟨ok, usable, usable.1, dirs, ?_⟩⟩
  exact ⟨_, alters.lands lands there, there⟩

/-- Writing an artifact. -/
theorem written (plain : ∀ f, a ≠ .virtual f) {bytes : ByteArray}
    (run : (do DiskM.makeParents (s.buildDir / a.path); DiskM.write (s.buildDir / a.path) bytes :
      DiskM Unit).run.run w.disk = (r, d')) :
    s.Works used { w with disk := d' } ∧
      ((r = .ok () ∧ s.Usable a.path ∧ s.Holds d' a.path bytes) ∨
        (∃ e, r = .error e) ∧ ¬ s.Usable a.path) :=
  h.put_file plain fun _ lands _ =>
    run ▸ Disk.saved_write h.leads h.above_ne_nil h.works.tended.sound lands bytes

/-- Writing an artifact in a directory that is there. -/
theorem written_of_dirs (plain : ∀ f, a ≠ .virtual f) {bytes : ByteArray}
    (dirs : w.disk.Dirs (Place.trail [] (s.buildDir.names ++ (source.names ++ components))))
    (run : (DiskM.write (s.buildDir / a.path) bytes).run.run w.disk = (r, d')) :
    s.Works used { w with disk := d' } ∧
      ((r = .ok () ∧ s.Usable a.path ∧ s.Holds d' a.path bytes) ∨
        (∃ e, r = .error e) ∧ ¬ s.Usable a.path) :=
  h.put_file plain fun _ lands _ =>
    run ▸ Disk.saved_write_of_dirs h.leads h.works.tended.sound lands dirs bytes

/-- Copying the project's own file of an artifact. -/
theorem copied (plain : ∀ f, a ≠ .virtual f) {bytes : ByteArray}
    (read : s.disk.readBytes (s.root / a.path) = .ok bytes)
    (run : (do DiskM.makeParents (s.buildDir / a.path)
               DiskM.copy (s.root / a.path) (s.buildDir / a.path) :
      DiskM Unit).run.run w.disk = (r, d')) :
    s.Works used { w with disk := d' } ∧
      ((r = .ok () ∧ s.Usable a.path ∧ s.Holds d' a.path bytes) ∨
        (∃ e, r = .error e) ∧ ¬ s.Usable a.path) := by
  refine h.put_file plain fun goal lands within => ?_
  have off := h.prepared.not_within_root h.has h.mem h.sits
  exact run ▸ Disk.saved_copy h.leads h.above_ne_nil h.works.tended.sound lands
    (h.prepared.leads_root h.has h.mem h.sits h.works.tended).1
    (h.prepared.no_link_root h.has h.mem h.sits h.works.tended)
    ((h.prepared.readBytes_iff h.has h.mem h.sits h.works.tended).2 read)
    fun e => off (e ▸ within)

/-- Making an artifact that is a source file under its flat name a link to the original, where that
can be read. -/
theorem replaced {f : NamespacedFile} (e : a = .virtual f) {stem : String}
    (lies : f.LiesIn source components stem) {bytes : ByteArray}
    (read : s.Holds w.disk f.realPath bytes)
    (run : (DiskM.replaceLink ⟨stem ++ "." ++ f.kind.extension⟩ (s.buildDir / a.path)).run.run w.disk =
      (r, d')) :
    s.Works used { w with disk := d' } ∧
      ((r = .ok () ∧ s.Usable a.path ∧ s.Holds d' a.path bytes ∧
          d'.entryAt? (s.base ++ a.path.names) = some (.link (stem ++ "." ++ f.kind.extension))) ∨
        (∃ e, r = .error e) ∧ ¬ s.Usable a.path) := by
  subst e
  have real : f.realPath.Lies source components (stem ++ "." ++ f.kind.extension) := by
    have real := (Artifact.Sits.original lies).lies
    rwa [flatName_singleton] at real
  have original : s.tree.HasIn used (.original f) := h.hasIn.original
  -- the original is read at its own place
  obtain ⟨goal, lands, there⟩ := read.there
  obtain ⟨names, rfl, owner⟩ := h.works.tended.owner h.prepared original lands
  obtain rfl : names = f.realPath.names := by
    rcases owner with owns | ⟨g, e, -⟩
    · cases owns
      rfl
    · simp at e
  have apart : f.realPath.names ≠ f.virtualPath.names := fun e => by
    simpa using original.eq_of_names h.prepared.shaped h.prepared.apart_used h.hasIn e
  have linked : s.Linked source components stem f.kind f.virtualPath.names
      (stem ++ "." ++ f.kind.extension) := by
    refine ⟨lies.made.ne_nil, lies.made.valid, (Artifact.Sits.virtual lies).lies.names, rfl, ?_, ?_⟩
    · have straight := real.straight h.direct
      refine read.fits.short _ ?_
      rw [straight.names_div]
      simp
    · rw [← real.names]
      intro way
      simpa using (h.works.tended.inside _ _ (by simp [real.names]) there).on_way way
  have saved := Disk.saved_replaceLink h.leads h.above_ne_nil h.works.tended.sound linked.checkPath
  rw [h.target.follow, run] at saved
  have own := h.lies.names
  rw [own] at saved
  obtain ⟨works, alters, done⟩ := h.saved h.lies.isName h.lies.dotted
    (head_plain h.lies.valid (.inr h.lies.plain)) (by rw [own]) (own ▸ .own) (by simp)
    (fun text e => ⟨stem, f.kind, own ▸ Entry.link.inj e ▸ linked⟩) saved
  refine ⟨works, done.imp_left fun ⟨ok, usable, dirs, link⟩ => ?_⟩
  have file := alters.keeps _ _ (fun e => apart ((List.append_cancel_left e).trans own.symm)) there
  refine ⟨ok, usable, ⟨usable.1, dirs, _, ?_, file⟩, own ▸ link⟩
  rw [real.names, ← List.append_assoc, ← List.append_assoc] at file ⊢
  rw [← List.append_assoc, ← List.append_assoc] at link
  rw [own, ← List.append_assoc, ← List.append_assoc]
  refine .beside link linked.isName linked.short fun text e => ?_
  rw [file] at e
  simp at e

end Doing

end Site
end FlatModules
