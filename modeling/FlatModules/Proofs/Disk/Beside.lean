import FlatModules.Proofs.Disk.Change
import FlatModules.Proofs.Disk.Routes
import FlatModules.Proofs.Path.Beside

/-!
# Disks — spellings side by side

Operations do not tell spellings of one path apart that end in the same name and that they take at
all (`Disk.Twins`): lookups pass over what differs (`walk_properSteps_concat`).  Making the
directories above such paths comes to the same as well (`makeParents_congr`).
-/

namespace FlatModules

open Text

namespace Disk

variable {d : Disk} {p q : Path} {aim : Aim} {last : String}

/-- Idle steps before the last one make no difference. -/
theorem walkWith_properSteps_concat {jump : Place → List String → Except DiskError Place}
    (slash : aim = .output → last ≠ "")
    (hj : ∀ here front, jump here (front ++ [last]) = jump here (properSteps front ++ [last]))
    (here : Place) (front : List String) : walkWith jump d aim here (front ++ [last]) =
      walkWith jump d aim here (properSteps front ++ [last]) := by
  induction front generalizing here with
  | nil => rfl
  | cons s ss ih =>
    by_cases idle : s = "." ∨ s = ""
    · rw [properSteps_of_idle idle, List.cons_append, walkWith_of_idle idle, ih]
    · rw [properSteps_of_proper idle, List.cons_append, List.cons_append, walkWith, walkWith,
        if_neg idle, if_neg idle]
      have no_output (front : List String) : ¬(aim = .output ∧ front ++ [last] = [""]) := by
        rintro ⟨output, e⟩
        obtain ⟨-, e⟩ := List.append_inj' (show _ = [] ++ [""] from e) rfl
        exact slash output (List.singleton_inj.1 e)
      have jump_ (here : Place) (text : String) : jump here (steps text ++ (ss ++ [last])) =
          jump here (steps text ++ (properSteps ss ++ [last])) := by
        rw [← List.append_assoc, hj, ← List.append_assoc, hj _ (_ ++ properSteps ss)]
        simp
      have more (front : List String) : (front ++ [last] = []) = False := by simp
      simp only [no_output, more, jump_, ih, ↓reduceIte, false_and]

theorem walk_properSteps_concat (slash : aim = .output → last ≠ "") (links : Nat) (here : Place)
    (front : List String) : walk d aim links here (front ++ [last]) =
      walk d aim links here (properSteps front ++ [last]) := by
  induction links generalizing here front with
  | zero => exact walkWith_properSteps_concat slash (fun _ _ => rfl) here front
  | succ links ih => exact walkWith_properSteps_concat slash ih here front

/-- Spellings of a path that operations do not tell apart: they end in the same name, and an
operation takes both or none. -/
structure Twins (p q : Path) : Prop where
  names : p.names = q.names
  ends : ∃ last, p.EndsIn last ∧ q.EndsIn last
  check : checkPath p = checkPath q

namespace Twins

/-- The steps of twins differ in idle ones before the last. -/
theorem exists_steps (h : Twins p q) : ∃ front front' last, last ≠ "" ∧
    properSteps front = properSteps front' ∧
    steps p.text = front ++ [last] ∧ steps q.text = front' ++ [last] ∧
    (p.segments.filter (· ≠ [])).map String.ofList = front ++ [last] ∧
    (q.segments.filter (· ≠ [])).map String.ofList = front' ++ [last] := by
  obtain ⟨names, ⟨last, hp, hq⟩, -⟩ := h
  obtain ⟨front, listed, steps⟩ := hp.exists_steps
  obtain ⟨front', listed', steps'⟩ := hq.exists_steps
  obtain ⟨-, -, ne, ne'⟩ := hp
  refine ⟨front, front', last, ne, ?_, steps, steps', listed, listed'⟩
  have proper : properSteps [last] = [last] := List.filter_eq_self.2 (by simp [ne, ne'])
  rw [← properSteps_steps, ← properSteps_steps q, steps, steps', properSteps_append,
    properSteps_append, proper] at names
  exact List.append_cancel_right names

theorem locate_eq (h : Twins p q) (d : Disk) (aim : Aim) : d.locate aim p = d.locate aim q := by
  obtain ⟨front, front', last, ne, same, steps, steps', -⟩ := h.exists_steps
  rw [locate, locate, h.check, steps, steps', walk_properSteps_concat fun _ => ne, same,
    ← walk_properSteps_concat fun _ => ne]

theorem slot_eq (h : Twins p q) (d : Disk) (dots : DiskError) : d.slot dots p = d.slot dots q := by
  obtain ⟨front, front', last, -, same, -, -, listed, listed'⟩ := h.exists_steps
  have walk_ : walk d .target linkLimit [] (front ++ [""]) =
      walk d .target linkLimit [] (front' ++ [""]) := by
    rw [walk_properSteps_concat (by simp), same, ← walk_properSteps_concat (by simp)]
  simp only [slot, h.check, listed, listed', List.getLast?_concat, List.dropLast_concat, walk_]

theorem endsInSlash_eq (h : Twins p q) : endsInSlash p = endsInSlash q := by
  obtain ⟨-, ⟨last, hp, hq⟩, -⟩ := h
  rw [endsInSlash_eq_false hp, endsInSlash_eq_false hq]

theorem stat_eq (h : Twins p q) (d : Disk) : d.stat p = d.stat q := by
  rw [stat, stat, h.locate_eq]

theorem lstat_eq (h : Twins p q) (d : Disk) : d.lstat p = d.lstat q := by
  rw [lstat, lstat, h.locate_eq]

theorem isFile_eq (h : Twins p q) (d : Disk) : d.isFile p = d.isFile q := by
  rw [isFile, isFile, h.stat_eq]

theorem isDir_eq (h : Twins p q) (d : Disk) : d.isDir p = d.isDir q := by
  rw [isDir, isDir, h.stat_eq]

theorem readBytes_eq (h : Twins p q) (d : Disk) : d.readBytes p = d.readBytes q := by
  rw [readBytes, readBytes, h.stat_eq]

theorem readText_eq (h : Twins p q) (d : Disk) : d.readText p = d.readText q := by
  rw [readText, readText, h.readBytes_eq]

theorem placeToWrite_eq (h : Twins p q) (d : Disk) : d.placeToWrite p = d.placeToWrite q := by
  rw [placeToWrite, placeToWrite, h.locate_eq]

end Twins

/-- Short spellings of one path that are the same from the last slash on and end in a name there. -/
structure Alike (p q : Path) : Prop where
  beside : Path.Beside p q
  ends : ∃ last, p.EndsIn last ∧ q.EndsIn last
  short : p.text.utf8ByteSize ≤ pathLimit
  short' : q.text.utf8ByteSize ≤ pathLimit

/-- No operation tells such spellings apart. -/
theorem Alike.twins (h : Alike p q) : Twins p q := by
  obtain ⟨beside, ⟨last, hp, hq⟩, short, short'⟩ := h
  have names := Path.names_congr beside.parts
  have zero : p.text.toList.contains '\x00' = q.text.toList.contains '\x00' := by
    rw [Bool.eq_iff_iff, List.contains_iff_mem, List.contains_iff_mem,
      Path.mem_text_iff (by decide) (by decide), Path.mem_text_iff (by decide) (by decide), names]
  have empty {p : Path} (h : p.EndsIn last) : p.text.isEmpty = false := by
    simpa using text_ne_empty_of_endsIn h
  refine ⟨names, ⟨last, hp, hq⟩, ?_⟩
  rw [checkPath, checkPath, checkSpelling, checkSpelling, zero, empty hp, empty hq,
    if_neg (show ¬ p.text.utf8ByteSize > pathLimit by omega),
    if_neg (show ¬ q.text.utf8ByteSize > pathLimit by omega)]

/-- The paths above such spellings are again such spellings, or one path with no name. -/
theorem Alike.parent? (h : Alike p q) : ∃ x y, p.parent? = some x ∧ q.parent? = some y ∧
    p.names.length = x.names.length + 1 ∧
    (x = y ∧ (x.text = "" ∨ x.text = "/" ∨ x.text = ".") ∨ Alike x y) := by
  obtain ⟨beside, ⟨last, hp, hq⟩, short, short'⟩ := h
  obtain ⟨x, y, hx, hy, text, text', names, up⟩ := beside.parent? hp hq
  refine ⟨x, y, hx, hy, by simp [names], up.imp_right fun ⟨beside, ends⟩ => ⟨beside, ends, ?_, ?_⟩⟩
  · exact (utf8ByteSize_le_of_isPrefix text).trans short
  · exact (utf8ByteSize_le_of_isPrefix text').trans short'

end Disk

namespace DiskM

variable {p q : Path}

open Disk

theorem write_congr (h : Twins p q) (bytes : ByteArray) : write p bytes = write q bytes := by
  simp only [write, h.placeToWrite_eq]

theorem makeDir_congr (h : Twins p q) : makeDir p = makeDir q := by
  simp only [makeDir, h.slot_eq]

theorem settle_congr (h : Twins p q) (result : Except DiskError Unit) :
    settle p result = settle q result := by
  cases result <;> simp only [settle, h.isDir_eq]

theorem unlink_congr (h : Twins p q) : unlink p = unlink q := by
  simp only [unlink, h.slot_eq, h.endsInSlash_eq]

theorem symlink_congr (h : Twins p q) (text : Path) : symlink text p = symlink text q := by
  simp only [symlink, h.slot_eq, h.endsInSlash_eq]

/-- How far up a path is made a directory does not matter where nothing is above it. -/
theorem makeDirsUp_of_idle (h : p.text = "" ∨ p.text = "/" ∨ p.text = ".") (n m : Nat) :
    makeDirsUp n p = makeDirsUp m p := by
  obtain ⟨p⟩ := p
  dsimp only at h
  have zero (n : Nat) : makeDirsUp n ⟨p⟩ = makeDirsUp 0 ⟨p⟩ := by
    cases n with
    | zero => rfl
    | succ n =>
      rcases h with rfl | rfl | rfl
      all_goals rfl
  rw [zero, zero m]

/-- The directories above such spellings are the same. -/
theorem makeDirsUp_congr {n m : Nat} (h : Alike p q) (enough : p.names.length ≤ n)
    (enough' : p.names.length ≤ m) : makeDirsUp n p = makeDirsUp m q := by
  induction n generalizing m p q with
  | zero =>
    obtain ⟨x, y, -, -, length, -⟩ := h.parent?
    omega
  | succ n ih =>
    obtain ⟨x, y, hx, hy, length, up⟩ := h.parent?
    obtain ⟨m, rfl⟩ : ∃ k, m = k + 1 := ⟨m - 1, by omega⟩
    have up : makeDirsUp n x = makeDirsUp m y := by
      rcases up with ⟨rfl, idle⟩ | up
      · exact makeDirsUp_of_idle idle n m
      · exact ih up (by omega) (by omega)
    simp only [makeDirsUp, makeDir_congr h.twins, settle_congr h.twins, hx, hy]
    refine bind_congr fun result => ?_
    rcases result with e | done
    · cases e <;> simp only [up]
    · rfl

theorem makeParents_congr (h : Alike p q) : makeParents p = makeParents q := by
  obtain ⟨x, y, hx, hy, -, up⟩ := h.parent?
  simp only [makeParents, hx, hy, makeDirs]
  rcases up with ⟨rfl, -⟩ | up
  · rfl
  · simp only [up.beside.text_eq_empty_iff]
    refine if_congr Iff.rfl rfl (makeDirsUp_congr up x.length_names_le ?_)
    rw [Path.names_congr up.beside.parts]
    exact y.length_names_le

theorem replaceLink_congr (h : Alike p q) (text : Path) : replaceLink text p = replaceLink text q := by
  simp only [replaceLink, makeParents_congr h, h.twins.lstat_eq, unlink_congr h.twins,
    symlink_congr h.twins]

end DiskM
end FlatModules
