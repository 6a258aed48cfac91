import FlatModules.Proofs.Disk.Confined

/-!
# Disks — steps that fail

A step that fails may have changed the disk before.  Writing, copying and removing do not: they fail
before they change anything (`write_of_error`, `copy_of_error`).  So of what is done for a path only
the directories above it are left if it fails; that is so even where a link is replaced, as long as
its slot is not lost with it (`FailsKeeping.replaceLink`).
-/

namespace FlatModules

namespace Disk

/-- Whether a step keeps a property of disks if it fails. -/
def FailsKeeping {α : Type} (I : Disk → Prop) (step : DiskM α) : Prop :=
  ∀ d e d', I d → step.run.run d = (.error e, d') → I d'

variable {α : Type} {I : Disk → Prop} {d d' : Disk} {p source : Path} {place : Place} {e : DiskError}
  {aim : Aim}

/-! ### Writing and copying -/

/-- Where a file is put, walks that come to an end still come to it. -/
theorem walk_put_file {bytes : ByteArray} {q : Place} (dir : d.entryAt? place ≠ some .dir)
    (plain : ∀ text, d.entryAt? place ≠ some (.link text)) {links : Nat} {here : Place}
    {steps : List String} (run : walk d aim links here steps = .ok q) :
    walk (d.put place (.file bytes)) aim links here steps = .ok q := by
  have some_ : place ≠ [] := by
    rintro rfl
    simp at dir
  have kept {r : Place} {entry : Entry} (ne : d.entryAt? place ≠ some entry)
      (there : d.entryAt? r = some entry) : (d.put place (.file bytes)).entryAt? r = some entry := by
    rw [entryAt?_put_of_ne some_]
    · exact there
    · rintro rfl
      exact ne there
  refine walk_of_passed (fun r => kept dir) (fun r text => kept (plain text)) (fun fillable => ?_) run
  unfold Fillable
  rw [entryAt?_put some_]
  split
  · exact .inr ⟨bytes, rfl⟩
  · exact fillable

theorem write_of_error {bytes : ByteArray} (run : (DiskM.write p bytes).run.run d = (.error e, d')) :
    d' = d := by
  rw [write_run] at run
  split at run
  · cases (Prod.mk.inj run).1
  · exact (Prod.mk.inj run).2.symm

/-- Where a file is written, paths that led to a file still do. -/
theorem exists_readBytes_put (bytes : ByteArray) (dir : d.entryAt? place ≠ some .dir)
    (plain : ∀ text, d.entryAt? place ≠ some (.link text)) {old : ByteArray}
    (read : d.readBytes p = .ok old) :
    ∃ new, (d.put place (.file bytes)).readBytes p = .ok new := by
  have some_ : place ≠ [] := by
    rintro rfl
    simp at dir
  obtain ⟨entry, stat, file⟩ := bind_eq_ok_iff.1 read
  obtain ⟨q, located, there⟩ := bind_eq_ok_iff.1 stat
  obtain ⟨⟨⟩, check, walked⟩ := bind_eq_ok_iff.1 located
  have found : d.entryAt? q = some entry := by
    rw [entryThere] at there
    split at there
    · exact Except.ok.inj there ▸ ‹_›
    · simp at there
  have file : ∃ old, entry = .file old := by
    cases entry with
    | file old => exact ⟨old, rfl⟩
    | dir => cases file
    | link text => cases file
  obtain ⟨new, now⟩ : ∃ new, (d.put place (.file bytes)).entryAt? q = some (.file new) := by
    rw [entryAt?_put some_]
    split
    · exact ⟨bytes, rfl⟩
    · obtain ⟨old, rfl⟩ := file
      exact ⟨old, found⟩
  refine ⟨new, ?_⟩
  simp only [readBytes, Disk.stat, locate, check, walk_put_file dir plain walked, entryThere, now, bind,
    Except.bind]
  rfl

/-- Where a file was written, one can be written again. -/
theorem placeToWrite_put {bytes : ByteArray} (plain : ∀ text, d.entryAt? place ≠ some (.link text))
    (there : d.placeToWrite p = .ok place) :
    (d.put place (.file bytes)).placeToWrite p = .ok place := by
  obtain ⟨q, located, found⟩ := bind_eq_ok_iff.1 there
  obtain ⟨dir, rfl⟩ : d.entryAt? q ≠ some .dir ∧ q = place := by
    split at found
    · cases found
    case h_2 other => exact ⟨other, Except.ok.inj found⟩
  obtain ⟨⟨⟩, check, walked⟩ := bind_eq_ok_iff.1 located
  have some_ : q ≠ [] := by
    rintro rfl
    simp at dir
  simp only [placeToWrite, locate, check, walk_put_file dir plain walked, entryAt?_put_self some_, bind,
    Except.bind]
  rfl

/-- Copying fails before anything is written. -/
theorem copy_of_error (sound : d.Sound) (run : (DiskM.copy source p).run.run d = (.error e, d')) :
    d' = d := by
  unfold DiskM.copy at run
  rw [DiskM.bind_run_ok DiskM.get_run] at run
  cases read : d.readBytes source with
  | error e' =>
    rw [DiskM.bind_run_error (by rw [DiskM.liftM_run, read])] at run
    exact (Prod.mk.inj run).2.symm
  | ok old =>
    rw [DiskM.bind_run_ok (by rw [DiskM.liftM_run, read])] at run
    cases there : d.placeToWrite p with
    | error e' =>
      rw [DiskM.bind_run_error (by rw [write_run, there])] at run
      exact (Prod.mk.inj run).2.symm
    | ok place =>
      have guarded : d.Guarded fun _ => False := ⟨sound, fun _ _ _ _ _ => id⟩
      obtain ⟨-, dir, plain⟩ := slot_of_placeToWrite guarded (fun _ _ => id) there
      obtain ⟨new, read'⟩ := exists_readBytes_put .empty dir plain read
      rw [DiskM.bind_run_ok (by rw [write_run, there]), DiskM.bind_run_ok DiskM.get_run,
        DiskM.bind_run_ok (by rw [DiskM.liftM_run, read']), write_run,
        placeToWrite_put plain there] at run
      cases (Prod.mk.inj run).1

/-! ### Links -/

/-- A link is made in a slot that is free. -/
theorem symlink_run_of_slot {text : Path} (check : checkPath text = .ok ())
    (slot : d.slot .alreadyExists p = .ok place) (missing : d.entryAt? place = none)
    (slash : endsInSlash p = false) :
    (DiskM.symlink text p).run.run d = (.ok (), d.put place (.link text.text)) := by
  unfold DiskM.symlink
  rw [DiskM.bind_run_ok (by rw [DiskM.liftM_run, check]), DiskM.bind_run_ok DiskM.get_run,
    DiskM.bind_run_ok (by rw [DiskM.liftM_run, slot])]
  simp only [missing, slash, Option.isSome_none, Bool.false_eq_true, ↓reduceIte]
  rfl

/-- Making a link fails before anything is made. -/
theorem symlink_cases {text : Path} {r : Except DiskError Unit}
    (run : (DiskM.symlink text p).run.run d = (r, d')) :
    (∃ e, r = .error e) ∧ d' = d ∨ r = .ok () ∧ ∃ place, d.slot .alreadyExists p = .ok place ∧
      d.entryAt? place = none ∧ endsInSlash p = false ∧ d' = d.put place (.link text.text) := by
  unfold DiskM.symlink at run
  have failed {e : DiskError} (run : ((.error e : Except DiskError Unit), d) = (r, d')) :
      (∃ e, r = .error e) ∧ d' = d :=
    ⟨⟨e, (Prod.mk.inj run).1.symm⟩, (Prod.mk.inj run).2.symm⟩
  cases check : checkPath text with
  | error e' =>
    rw [DiskM.bind_run_error (by rw [DiskM.liftM_run, check])] at run
    exact .inl (failed run)
  | ok =>
    rw [DiskM.bind_run_ok (by rw [DiskM.liftM_run, check]), DiskM.bind_run_ok DiskM.get_run] at run
    cases slot : d.slot .alreadyExists p with
    | error e' =>
      rw [DiskM.bind_run_error (by rw [DiskM.liftM_run, slot])] at run
      exact .inl (failed run)
    | ok place =>
      rw [DiskM.bind_run_ok (by rw [DiskM.liftM_run, slot])] at run
      dsimp only at run
      split at run
      · exact .inl (failed run)
      case isFalse missing =>
        split at run
        · exact .inl (failed run)
        case isFalse slash =>
          obtain ⟨rfl, rfl⟩ := Prod.mk.inj run
          exact .inr ⟨rfl, place, rfl, by simpa using missing, by simpa using slash, rfl⟩

/-- Removing fails before anything is removed. -/
theorem unlink_cases {r : Except DiskError Unit} (run : (DiskM.unlink p).run.run d = (r, d')) :
    (∃ e, r = .error e) ∧ d' = d ∨ r = .ok () ∧ ∃ place old, d.slot .isDirectory p = .ok place ∧
      d.entryAt? place = some old ∧ old ≠ .dir ∧ endsInSlash p = false ∧ d' = d.remove place := by
  unfold DiskM.unlink at run
  rw [DiskM.bind_run_ok DiskM.get_run] at run
  have failed {e : DiskError} (run : ((.error e : Except DiskError Unit), d) = (r, d')) :
      (∃ e, r = .error e) ∧ d' = d :=
    ⟨⟨e, (Prod.mk.inj run).1.symm⟩, (Prod.mk.inj run).2.symm⟩
  cases slot : d.slot .isDirectory p with
  | error e' =>
    rw [DiskM.bind_run_error (by rw [DiskM.liftM_run, slot])] at run
    exact .inl (failed run)
  | ok place =>
    rw [DiskM.bind_run_ok (by rw [DiskM.liftM_run, slot])] at run
    dsimp only at run
    split at run
    · exact .inl (failed run)
    · exact .inl (failed run)
    case h_3 entry dir there =>
      split at run
      · exact .inl (failed run)
      case isFalse slash =>
        obtain ⟨rfl, rfl⟩ := Prod.mk.inj run
        exact .inr ⟨rfl, place, entry, rfl, there, dir, by simpa using slash, rfl⟩

/-! ### Steps that make the directories above first -/

section Parents

variable (dirs : ∀ above d d', p.parent? = some above → MakesDir above d d' → I d → I d')

include dirs

theorem keeps_makeParents (start : I d) : I ((DiskM.makeParents p).run.run d).2 := by
  unfold DiskM.makeParents
  split
  case h_1 above parent =>
    exact (Chain.makeDirs (List.prefix_refl _)).keeps (fun d d' => dirs above d d' parent) start
  case h_2 => exact start

theorem FailsKeeping.after_makeParents {step : DiskM α} (h : FailsKeeping I step) :
    FailsKeeping I (do DiskM.makeParents p; step) := by
  intro d e d' start run
  have made := keeps_makeParents dirs start
  rw [DiskM.bind_run] at run
  split at run
  case h_1 d₁ first =>
    rw [first] at made
    exact h d₁ e d' made run
  case h_2 e' d₁ first =>
    rw [first] at made
    exact (Prod.mk.inj run).2 ▸ made

theorem FailsKeeping.save (bytes : ByteArray) :
    FailsKeeping I (do DiskM.makeParents p; DiskM.write p bytes) :=
  .after_makeParents dirs fun _ _ _ start run => write_of_error run ▸ start

theorem FailsKeeping.copy (sound : ∀ d, I d → d.Sound) (source : Path) :
    FailsKeeping I (do DiskM.makeParents p; DiskM.copy source p) :=
  .after_makeParents dirs fun d _ _ start run => copy_of_error (sound d start) run ▸ start

/-- Replacing a link does not fail any more once the old one is gone. -/
theorem FailsKeeping.replaceLink {text : Path}
    (again : ∀ d place, I d → d.slot .isDirectory p = .ok place → d.entryAt? place ≠ some .dir →
      checkPath text = .ok () ∧ (d.remove place).slot .alreadyExists p = .ok place) :
    FailsKeeping I (DiskM.replaceLink text p) := by
  refine .after_makeParents dirs fun d e d' start run => ?_
  rw [DiskM.bind_run_ok DiskM.get_run] at run
  split at run
  · rw [DiskM.bind_run] at run
    split at run
    case h_1 d₁ gone =>
      obtain ⟨⟨_, error⟩, -⟩ | ⟨-, place, old, slot, there, ne, slash, rfl⟩ := unlink_cases gone
      · simp at error
      · -- the link is made in the slot that is free now
        have dir : d.entryAt? place ≠ some .dir := by simpa [there] using ne
        have some_ : place ≠ [] := by
          rintro rfl
          simp at dir
        have free : (d.remove place).entryAt? place = none := by
          rw [entryAt?_remove some_, if_pos rfl]
        obtain ⟨check, slot'⟩ := again d place start slot dir
        rw [symlink_run_of_slot check slot' free slash] at run
        cases (Prod.mk.inj run).1
    case h_2 e' d₁ gone =>
      obtain ⟨-, rfl⟩ | ⟨ok, -⟩ := unlink_cases gone
      · exact (Prod.mk.inj run).2 ▸ start
      · simp at ok
  · obtain ⟨-, rfl⟩ | ⟨ok, -⟩ := symlink_cases run
    · exact start
    · simp at ok
  · exact (Prod.mk.inj run).2 ▸ start

end Parents

end Disk
end FlatModules
