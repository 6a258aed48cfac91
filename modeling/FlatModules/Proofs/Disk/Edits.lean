import Mathlib.Logic.Relation
import FlatModules.Proofs.Disk.Change
import FlatModules.Proofs.Disk.Ways

/-!
# Disks — single changes

A step on the disk is a chain of single changes (`Disk.Chain`): directories made on the way to a path
(`MakesDir`), and what is done at the path itself (`Edit`).  What each change keeps is so kept by
every step, whether it succeeds or stops half-way.
-/

namespace FlatModules

namespace Disk

/-- Making a directory that is missing on the way to a path. -/
inductive MakesDir (p : Path) : Disk → Disk → Prop
  | intro {d : Disk} {above : Path} {place : Place} (way : above.names <+: p.names)
      (slot : d.slot .alreadyExists above = .ok place) (missing : d.entryAt? place = none) :
      MakesDir p d (d.put place .dir)

theorem MakesDir.congr {p q : Path} {d d' : Disk} (h : MakesDir p d d') (same : p.names = q.names) :
    MakesDir q d d' := by
  obtain ⟨way, slot, missing⟩ := h
  exact .intro (same ▸ way) slot missing

/-- A change that is made for a path; `text?` is the text of the link, if it is made one. -/
inductive Edit (p : Path) (text? : Option String) : Disk → Disk → Prop
  | dir {d d' : Disk} (makes : MakesDir p d d') : Edit p text? d d'
  | file {d : Disk} {place : Place} (bytes : ByteArray) (there : d.placeToWrite p = .ok place) :
      Edit p text? d (d.put place (.file bytes))
  | gone {d : Disk} {place : Place} {entry : Entry} (linked : text?.isSome)
      (slot : d.slot .isDirectory p = .ok place) (there : d.entryAt? place = some entry)
      (ne : entry ≠ .dir) : Edit p text? d (d.remove place)
  | link {d : Disk} {place : Place} {text : String} (linked : text? = some text)
      (slot : d.slot .alreadyExists p = .ok place) (missing : d.entryAt? place = none) :
      Edit p text? d (d.put place (.link text))

/-- Whether a step on a disk is a chain of changes of a kind. -/
def Chain {α : Type} (R : Disk → Disk → Prop) (d : Disk) (step : DiskM α) : Prop :=
  Relation.ReflTransGen R d (step.run.run d).2

namespace Chain

variable {α β : Type} {R R' : Disk → Disk → Prop} {d : Disk} {p : Path} {text? : Option String}

theorem pure (x : α) : Chain R d (pure x : DiskM α) := .refl

theorem throw (e : DiskError) : Chain R d (throw e : DiskM α) := .refl

theorem throw_bind (e : DiskError) (f : α → DiskM β) :
    Chain R d ((MonadExcept.throw e : DiskM α) >>= f) := .refl

theorem mono {step : DiskM α} (h : Chain R d step) (sub : ∀ d d', R d d' → R' d d') :
    Chain R' d step :=
  Relation.ReflTransGen.mono sub _ _ h

theorem bind {m : DiskM α} {f : α → DiskM β} (h : Chain R d m) (hf : ∀ x d', Chain R d' (f x)) :
    Chain R d (m >>= f) := by
  unfold Chain at h ⊢
  rw [DiskM.bind_run]
  split
  case h_1 x d₁ run =>
    rw [run] at h
    exact Relation.ReflTransGen.trans h (hf x d₁)
  case h_2 e d₁ run =>
    rw [run] at h
    exact h

theorem get_bind {f : Disk → DiskM β} (h : Chain R d (f d)) :
    Chain R d ((get : DiskM Disk) >>= f) := by
  unfold Chain at h ⊢
  rwa [DiskM.bind_run_ok DiskM.get_run]

theorem lift_bind {x : Except DiskError α} {f : α → DiskM β}
    (h : ∀ a, x = .ok a → Chain R d (f a)) : Chain R d ((liftM x : DiskM α) >>= f) := by
  unfold Chain at h ⊢
  cases x with
  | ok a =>
    rw [DiskM.bind_run_ok (DiskM.liftM_run _)]
    exact h a rfl
  | error e =>
    rw [DiskM.bind_run_error (DiskM.liftM_run _)]

theorem outcome {m : DiskM α} (h : Chain R d m) : Chain R d (DiskM.outcome m) := by
  unfold Chain at h ⊢
  rwa [DiskM.outcome_run]

theorem modify {f : Disk → Disk} (h : R d (f d)) : Chain R d (modify f : DiskM PUnit) :=
  .single h

/-! ### Directories -/

theorem makeDir {above : Path} (way : above.names <+: p.names) :
    Chain (MakesDir p) d (DiskM.makeDir above) := by
  refine get_bind (lift_bind fun place slot => ?_)
  split
  · exact throw_bind _ _
  case isFalse missing => exact modify (.intro way slot (by simpa using missing))

theorem settle (path : Path) (result : Except DiskError Unit) :
    Chain R d (DiskM.settle path result) := by
  cases result with
  | ok => exact pure ()
  | error e =>
    refine get_bind ?_
    split
    · exact pure ()
    · exact throw e

theorem makeDirsUp (bound : Nat) {above : Path} (way : above.names <+: p.names) :
    Chain (MakesDir p) d (DiskM.makeDirsUp bound above) := by
  induction bound generalizing above d with
  | zero => exact (makeDir way).outcome.bind fun result _ => settle above result
  | succ bound ih =>
    refine (makeDir way).outcome.bind fun result _ => ?_
    split
    case h_1 higher parent =>
      refine (ih ((Path.names_parent? parent).trans way)).bind fun _ _ => ?_
      exact (makeDir way).outcome.bind fun result _ => settle above result
    case h_2 => exact settle above _

theorem makeDirs {above : Path} (way : above.names <+: p.names) :
    Chain (MakesDir p) d (DiskM.makeDirs above) := by
  unfold DiskM.makeDirs
  split
  · exact pure ()
  · exact makeDirsUp _ way

theorem makeParents (p : Path) : Chain (MakesDir p) d (DiskM.makeParents p) := by
  unfold DiskM.makeParents
  split
  case h_1 above parent => exact makeDirs (Path.names_parent? parent)
  case h_2 => exact pure ()

/-! ### Files and links -/

theorem parents (p : Path) : Chain (Edit p text?) d (DiskM.makeParents p) :=
  (makeParents p).mono fun _ _ => .dir

theorem write (bytes : ByteArray) : Chain (Edit p text?) d (DiskM.write p bytes) :=
  get_bind (lift_bind fun _ there => modify (.file bytes there))

theorem copy (source : Path) : Chain (Edit p text?) d (DiskM.copy source p) := by
  refine get_bind (lift_bind fun _ _ => (write _).bind fun _ d' => ?_)
  exact get_bind (lift_bind fun bytes _ => write bytes)

theorem unlink (linked : text?.isSome) : Chain (Edit p text?) d (DiskM.unlink p) := by
  refine get_bind (lift_bind fun place slot => ?_)
  split
  · exact throw _
  · exact throw _
  case h_3 entry ne there =>
    split
    · exact throw_bind _ _
    · exact modify (.gone linked slot there ne)

theorem symlink (text : Path) : Chain (Edit p (some text.text)) d (DiskM.symlink text p) := by
  refine lift_bind fun _ _ => get_bind (lift_bind fun place slot => ?_)
  dsimp only
  split
  · exact throw_bind _ _
  case isFalse missing =>
    split
    · exact throw_bind _ _
    · exact modify (.link rfl slot (by simpa using missing))

theorem replaceLink (text : Path) : Chain (Edit p (some text.text)) d (DiskM.replaceLink text p) := by
  refine (parents p).bind fun _ d' => get_bind ?_
  split
  · exact (unlink rfl).bind fun _ _ => symlink text
  · exact symlink text
  · exact throw_bind _ _

/-- What each change keeps, a step keeps. -/
theorem keeps {step : DiskM α} (h : Chain R d step) {I : Disk → Prop}
    (change : ∀ d d', R d d' → I d → I d') (start : I d) : I (step.run.run d).2 := by
  unfold Chain at h
  generalize (step.run.run d).2 = d' at h
  induction h with
  | refl => exact start
  | tail _ last ih => exact change _ _ last ih

end Chain

end Disk
end FlatModules
