import FlatModules.Proofs.Disk.Edits

/-!
# Disks — files that are spared

Where no link leads to a name of a kind, a step for a path whose last name is not of that kind
leaves every file of such a name as it is (`Edit.spared`), however the path is spelled and through
whatever links it leads.  What was written to a path is read back from it (`readBytes_write`).
-/

namespace FlatModules

open Text

/-- Whether the last name of a path, if there is one, is not of a kind. -/
def Path.Avoids (K : String → Prop) (p : Path) : Prop :=
  ∀ n ∈ p.names.getLast?, ¬ K n

instance (K : String → Prop) [DecidablePred K] (p : Path) : Decidable (p.Avoids K) :=
  inferInstanceAs (Decidable (∀ n ∈ p.names.getLast?, ¬ K n))

/-- The text of a link. -/
def Entry.link? : Entry → Option String
  | .link text => some text
  | _ => none

namespace Disk

/-- A disk on which no link leads to a name of a kind. -/
structure Guarded (K : String → Prop) (d : Disk) : Prop where
  sound : d.Sound
  links : ∀ place text, d.entryAt? place = some (.link text) → Path.Avoids K ⟨text⟩

/-- It is enough to go through the entries. -/
theorem guarded_iff {K : String → Prop} {d : Disk} : d.Guarded K ↔
    d.Sound ∧ ∀ x ∈ d.entries, ∀ text ∈ x.2.link?, Path.Avoids K ⟨text⟩ := by
  constructor
  · rintro ⟨sound, links⟩
    refine ⟨sound, fun ⟨place, entry⟩ mem text link => links place text ?_⟩
    have link : entry = .link text := by
      cases entry <;> simp [Entry.link?] at link
      rw [link]
    exact (sound.entryAt?_eq_some_iff (sound.named _ mem).1).2 (link ▸ mem)
  · rintro ⟨sound, links⟩
    refine ⟨sound, fun place text there => ?_⟩
    exact links _ (sound.mem_of_link there) text rfl

instance (K : String → Prop) [DecidablePred K] (d : Disk) : Decidable (d.Guarded K) :=
  decidable_of_iff _ guarded_iff.symm

/-- A place in a directory, of a name that is not of a kind. -/
def Slot (K : String → Prop) (d : Disk) (place : Place) : Prop :=
  ∃ above name, place = above ++ [name] ∧ d.entryAt? above = some .dir ∧ Path.IsName name ∧ ¬ K name

/-- Whether the files of names of a kind are the same. -/
def SameFiles (K : String → Prop) (d d' : Disk) : Prop :=
  ∀ above name, K name → ∀ bytes, d'.entryAt? (above ++ [name]) = some (.file bytes) ↔
    d.entryAt? (above ++ [name]) = some (.file bytes)

variable {K : String → Prop} {d d' d₁ : Disk} {p : Path} {place : Place}
  {jump : Place → List String → Except DiskError Place} {aim : Aim}

theorem SameFiles.refl (K : String → Prop) (d : Disk) : SameFiles K d d := fun _ _ _ _ => Iff.rfl

theorem SameFiles.trans (h : SameFiles K d d₁) (h' : SameFiles K d₁ d') : SameFiles K d d' :=
  fun above name hK bytes => (h' above name hK bytes).trans (h above name hK bytes)

/-! ### Where lookups end -/

/-- Steps without slashes whose last name is not of a kind. -/
structure Tame (K : String → Prop) (steps : List String) : Prop where
  noSlash : ∀ s ∈ steps, '/' ∉ s.toList
  last : ∀ n ∈ (properSteps steps).getLast?, ¬ K n

theorem noSlash_of_mem_steps {text s : String} (h : s ∈ steps text) : '/' ∉ s.toList := by
  have segment {s : String}
      (mem : s ∈ ((cutAt (· == '/') text.toList).filter (· ≠ [])).map String.ofList) :
      '/' ∉ s.toList := by
    obtain ⟨cs, mem', rfl⟩ := List.mem_map.1 mem
    intro slash
    have := mark_eq_false_of_mem_cutAt (List.mem_filter.1 mem').1 '/' (by simpa using slash)
    simp at this
  unfold steps at h
  dsimp only at h
  split at h
  · rcases List.mem_append.1 h with mem | mem
    · exact segment mem
    · obtain rfl := List.mem_singleton.1 mem
      simp
  · exact segment h

theorem tame_steps (avoids : p.Avoids K) : Tame K (steps p.text) :=
  ⟨fun _ => noSlash_of_mem_steps, by rw [properSteps_steps]; exact avoids⟩

namespace Tame

theorem tail {s : String} {rest : List String} (h : Tame K (s :: rest)) : Tame K rest := by
  refine ⟨fun t ht => h.noSlash t (List.mem_cons_of_mem _ ht), fun n hn => ?_⟩
  refine h.last n ?_
  by_cases idle : s = "." ∨ s = ""
  · rwa [properSteps_of_idle idle]
  · rw [properSteps_of_proper idle, List.getLast?_cons, hn]
    simp

/-- The steps of a link's text, and then further ones. -/
theorem append {text : String} {rest : List String} (h : Tame K rest)
    (avoids : Path.Avoids K ⟨text⟩) : Tame K (steps text ++ rest) := by
  refine ⟨fun s hs => ?_, fun n hn => ?_⟩
  · exact (List.mem_append.1 hs).elim noSlash_of_mem_steps (h.noSlash s)
  · have split : properSteps (steps text ++ rest) = properSteps (steps text) ++ properSteps rest := by
      simp [properSteps]
    rw [split, List.getLast?_append] at hn
    cases last : (properSteps rest).getLast? with
    | none =>
      rw [last, Option.none_or] at hn
      exact (tame_steps avoids).last n hn
    | some n' =>
      rw [last, Option.some_or] at hn
      exact h.last n (last ▸ hn)

end Tame

/-- Where a walk ends: at a directory, or at a name that is not of a kind and, unless the walk is for
the entry itself, no link. -/
def Ends (K : String → Prop) (d : Disk) (aim : Aim) (place : Place) : Prop :=
  d.entryAt? place = some .dir ∨
    d.Slot K place ∧ (aim ≠ .entry → ∀ text, d.entryAt? place ≠ some (.link text))

theorem walkWith_ends (guarded : d.Guarded K)
    (hj : ∀ here steps, d.entryAt? here = some .dir → Tame K steps → jump here steps = .ok place →
      d.Ends K aim place) {here : Place} {steps : List String}
    (dir : d.entryAt? here = some .dir) (tame : Tame K steps)
    (run : walkWith jump d aim here steps = .ok place) : d.Ends K aim place := by
  induction steps generalizing here with
  | nil =>
    obtain rfl := Except.ok.inj run
    exact .inl dir
  | cons s rest ih =>
    by_cases idle : s = "." ∨ s = ""
    · rw [walkWith_of_idle idle] at run
      exact ih dir tame.tail run
    by_cases up : s = ".."
    · rw [walkWith, if_neg idle, if_pos up] at run
      exact ih (guarded.sound.dir_dropLast dir) tame.tail run
    have slot (end_ : rest = []) : d.Slot K (here ++ [s]) := by
      refine ⟨here, s, rfl, dir, ⟨fun e => idle (.inr e), tame.noSlash s List.mem_cons_self,
        fun e => idle (.inl e), up⟩, tame.last s ?_⟩
      rw [properSteps_of_proper idle, end_]
      rfl
    rw [walkWith, if_neg idle, if_neg up] at run
    split at run
    · simp at run
    split at run
    · simp at run
    dsimp only at run
    split at run
    case h_1 there =>
      split at run
      case isTrue end_ => exact Except.ok.inj run ▸ .inr ⟨slot end_, by simp [there]⟩
      case isFalse => simp at run
    case h_2 there => exact ih there tame.tail run
    case h_3 bytes there =>
      split at run
      case isTrue end_ => exact Except.ok.inj run ▸ .inr ⟨slot end_, by simp [there]⟩
      case isFalse => simp at run
    case h_4 text link =>
      split at run
      case isTrue end_ => exact Except.ok.inj run ▸ .inr ⟨slot end_.1, fun ne => absurd end_.2 ne⟩
      case isFalse =>
        refine hj _ _ ?_ (tame.tail.append (guarded.links _ text link)) run
        split
        · exact entryAt?_nil d
        · exact dir

theorem walk_ends (guarded : d.Guarded K) {links : Nat} {here : Place} {steps : List String}
    (dir : d.entryAt? here = some .dir) (tame : Tame K steps)
    (run : walk d aim links here steps = .ok place) : d.Ends K aim place := by
  induction links generalizing here steps with
  | zero => exact walkWith_ends guarded (by simp) dir tame run
  | succ links ih => exact walkWith_ends guarded (fun _ _ dir tame => ih dir tame) dir tame run

/-- A path whose spelling ends in a slash or a dot is no file's. -/
theorem isFile_eq_false_of_idle (sound : d.Sound) {last : List Char}
    (h : p.segments.getLast? = some last) (idle : last = [] ∨ last = ['.']) :
    d.isFile p = false := by
  obtain ⟨front, segments⟩ := List.getLast?_eq_some_iff.1 h
  obtain ⟨steps', last', idle', e⟩ : ∃ steps' last', (last' = "." ∨ last' = "") ∧
      steps p.text = steps' ++ [last'] := by
    rcases idle with rfl | rfl
    · refine ⟨((Text.cutAt (· == '/') p.text.toList).filter (· ≠ [])).map String.ofList, "",
        .inr rfl, if_pos h⟩
    · refine ⟨((front.filter (· ≠ [])).map String.ofList), ".", .inl rfl, ?_⟩
      have cut : Text.cutAt (· == '/') p.text.toList = front ++ [['.']] := segments
      simp [steps, cut]
  unfold isFile
  split
  case h_1 bytes read =>
    exfalso
    obtain ⟨place, located, there⟩ := bind_eq_ok_iff.1 read
    obtain ⟨-, -, walked⟩ := bind_eq_ok_iff.1 located
    rw [e] at walked
    simp [entryThere, walk_idle sound idle' (entryAt?_nil d) walked] at there
  case h_2 => rfl

theorem slot_of_placeToWrite (guarded : d.Guarded K) (avoids : p.Avoids K)
    (run : d.placeToWrite p = .ok place) :
    d.Slot K place ∧ d.entryAt? place ≠ some .dir ∧
      ∀ text, d.entryAt? place ≠ some (.link text) := by
  obtain ⟨at_, located, run⟩ := bind_eq_ok_iff.1 run
  have ne : d.entryAt? at_ ≠ some .dir ∧ at_ = place := by
    split at run
    · cases run
    case h_2 other => exact ⟨other, Except.ok.inj run⟩
  obtain ⟨ne, rfl⟩ := ne
  obtain ⟨-, -, located⟩ := bind_eq_ok_iff.1 located
  obtain ⟨slot, plain⟩ :=
    (walk_ends guarded (entryAt?_nil d) (tame_steps avoids) located).resolve_left ne
  exact ⟨slot, ne, plain (by simp)⟩

theorem slot_of_slot (sound : d.Sound) {dots : DiskError} (avoids : p.Avoids K)
    (run : d.slot dots p = .ok place) : d.Slot K place := by
  obtain ⟨front, last, above, names, isName, -, lead, rfl⟩ := exists_of_slot sound run
  exact ⟨above, last, rfl, lead.2, isName, avoids _ (by simp [names])⟩

/-! ### Steps -/

/-- A disk after another on which no link leads to a name of a kind, with the files of such names as
they were. -/
def Spared (K : String → Prop) (d d' : Disk) : Prop :=
  d'.Guarded K ∧ SameFiles K d d'

theorem Spared.trans (h : d.Spared K d₁) (h' : d₁.Spared K d') : d.Spared K d' :=
  ⟨h'.1, h.2.trans h'.2⟩

/-- What is put where no directory is, under a name that is not of the kind. -/
theorem Guarded.put (h : d.Guarded K) (slot : d.Slot K place) (ne : d.entryAt? place ≠ some .dir)
    {entry : Entry} (link : ∀ text, entry = .link text → Path.Avoids K ⟨text⟩) :
    d.Spared K (d.put place entry) := by
  obtain ⟨above, name, rfl, dir, isName, other⟩ := slot
  have some_ : above ++ [name] ≠ [] := by simp
  refine ⟨⟨h.sound.put (fun n hn => ?_) ne (by simpa using dir), fun q text e => ?_⟩, ?_⟩
  · rcases List.mem_append.1 hn with mem | mem
    · exact h.sound.isName_of_entry dir n mem
    · exact List.mem_singleton.1 mem ▸ isName
  · rw [entryAt?_put some_] at e
    split at e
    · exact link text (Option.some.inj e)
    · exact h.links q text e
  · intro front last hK bytes
    rw [entryAt?_put_of_ne some_]
    intro e
    obtain ⟨-, rfl⟩ := List.append_singleton_inj.1 e
    exact other hK

/-- Making a missing directory spares every file. -/
theorem MakesDir.spared (h : MakesDir p d d') (guarded : d.Guarded K) : d.Spared K d' := by
  obtain ⟨-, slot, missing⟩ := h
  obtain ⟨above, name, rfl, dir, isName, -⟩ :=
    slot_of_slot (K := fun _ => False) guarded.sound (fun _ _ => id) slot
  have some_ : above ++ [name] ≠ [] := by simp
  refine ⟨⟨guarded.sound.put (fun n hn => ?_) (by simp [missing]) (by simpa using dir),
    fun q text e => ?_⟩, fun front last _ bytes => ?_⟩
  · rcases List.mem_append.1 hn with mem | mem
    · exact guarded.sound.isName_of_entry dir n mem
    · exact List.mem_singleton.1 mem ▸ isName
  · rw [entryAt?_put some_] at e
    split at e
    · simp at e
    · exact guarded.links q text e
  · rw [entryAt?_put some_]
    split
    case isTrue same => simp [same, missing]
    case isFalse => rfl

/-- A change made for a path whose last name is not of a kind spares the files of that kind. -/
theorem Edit.spared {text? : Option String} (h : Edit p text? d d') (avoids : p.Avoids K)
    (tame : ∀ text ∈ text?, Path.Avoids K ⟨text⟩) (guarded : d.Guarded K) : d.Spared K d' := by
  cases h with
  | dir makes => exact makes.spared guarded
  | file bytes there =>
    obtain ⟨slot, ne, -⟩ := slot_of_placeToWrite guarded avoids there
    exact guarded.put slot ne (by simp)
  | gone _ slot there ne =>
    obtain ⟨above, name, rfl, dir, isName, free⟩ := slot_of_slot guarded.sound avoids slot
    have some_ : above ++ [name] ≠ [] := by simp
    refine ⟨⟨guarded.sound.filter_ne fun e => ?_, fun q text e => ?_⟩, fun front last hK bytes => ?_⟩
    · exact ne (Option.some.inj (there.symm.trans e))
    · rw [entryAt?_remove some_] at e
      split at e
      · simp at e
      · exact guarded.links q text e
    · rw [entryAt?_remove some_, if_neg]
      intro e
      obtain ⟨-, rfl⟩ := List.append_singleton_inj.1 e
      exact free hK
  | link linked slot missing =>
    refine guarded.put (slot_of_slot guarded.sound avoids slot) (by simp [missing]) fun text e => ?_
    exact Entry.link.inj e ▸ tame _ linked

theorem Edit.sound {text? : Option String} (h : Edit p text? d d') (sound : d.Sound) : d'.Sound :=
  (h.spared (K := fun _ => False) (fun _ _ => id) (fun _ _ _ _ => id)
    ⟨sound, fun _ _ _ _ _ => id⟩).1.sound

/-- A link is where one was before, or it is the one made, in the slot of the path. -/
theorem Edit.link_cases {text? : Option String} (h : Edit p text? d d') (sound : d.Sound)
    {q : Place} {text : String} (link : d'.entryAt? q = some (.link text)) :
    d.entryAt? q = some (.link text) ∨
      text? = some text ∧ ∃ front above last, p.names = front ++ [last] ∧ q = above ++ [last] := by
  have put {place : Place} {entry : Entry} (ne : place ≠ [])
      (link : (d.put place entry).entryAt? q = some (.link text)) :
      d.entryAt? q = some (.link text) ∨ entry = .link text ∧ q = place := by
    rw [entryAt?_put ne] at link
    split at link
    case isTrue same => exact .inr ⟨Option.some.inj link, same⟩
    case isFalse => exact .inl link
  have slot_ne {dots : DiskError} {path : Path} {place : Place} (slot : d.slot dots path = .ok place) :
      place ≠ [] := by
    obtain ⟨-, last, above, -, -, -, -, rfl⟩ := exists_of_slot sound slot
    simp
  cases h with
  | dir makes =>
    obtain ⟨-, slot, -⟩ := makes
    exact .inl ((put (slot_ne slot) link).resolve_right (by simp))
  | file bytes there =>
    have guarded : d.Guarded fun _ => False := ⟨sound, fun _ _ _ _ _ => id⟩
    obtain ⟨⟨above, name, rfl, -⟩, -⟩ := slot_of_placeToWrite guarded (fun _ _ => id) there
    exact .inl ((put (by simp) link).resolve_right (by simp))
  | gone _ slot there ne =>
    rw [entryAt?_remove (slot_ne slot)] at link
    split at link
    · simp at link
    · exact .inl link
  | link linked slot _ =>
    refine (put (slot_ne slot) link).imp_right fun ⟨same, there⟩ => ⟨?_, ?_⟩
    · rw [linked, Entry.link.inj same]
    · obtain ⟨front, last, above, ends, -, -, -, rfl⟩ := exists_of_slot sound slot
      exact ⟨front, above, last, ends, there⟩

theorem Chain.spared {α : Type} {R : Disk → Disk → Prop} {step : DiskM α} (h : Chain R d step)
    (change : ∀ d d', R d d' → d.Guarded K → d.Spared K d') (guarded : d.Guarded K) :
    d.Spared K (step.run.run d).2 :=
  h.keeps (I := fun e => d.Spared K e) (fun _ _ changed spared => spared.trans (change _ _ changed spared.1))
    ⟨guarded, .refl K d⟩

/-! ### Reading what was written -/

/-- A walk to where a file is written ends there too once the file is there. -/
theorem walkWith_put (sound : d.Sound) (ne : d.entryAt? place ≠ some .dir)
    (plain : ∀ text, d.entryAt? place ≠ some (.link text)) (bytes : ByteArray)
    {jump' : Place → List String → Except DiskError Place}
    (hj : ∀ here steps, d.entryAt? here = some .dir → jump here steps = .ok place →
      jump' here steps = .ok place) {here : Place} {steps : List String}
    (dir : d.entryAt? here = some .dir) (run : walkWith jump d .output here steps = .ok place) :
    walkWith jump' (d.put place (.file bytes)) .target here steps = .ok place := by
  have some_ : place ≠ [] := by
    rintro rfl
    simp at ne
  induction steps generalizing here with
  | nil =>
    obtain rfl := Except.ok.inj run
    exact absurd dir ne
  | cons s rest ih =>
    by_cases idle : s = "." ∨ s = ""
    · rw [walkWith_of_idle idle] at run ⊢
      exact ih dir run
    by_cases up : s = ".."
    · rw [walkWith, if_neg idle, if_pos up] at run ⊢
      exact ih (sound.dir_dropLast dir) run
    have target : ¬(Aim.target = .output ∧ rest = [""]) := by simp
    have follow : ¬(rest = [] ∧ Aim.target = .entry) := by simp
    rw [walkWith, if_neg idle, if_neg up] at run ⊢
    rw [if_neg target]
    split at run
    · simp at run
    split at run
    · simp at run
    rename_i short
    rw [if_neg short]
    dsimp only at run ⊢
    by_cases own : here ++ [s] = place
    · rw [own, entryAt?_put_self some_]
      rw [own] at run
      dsimp only
      split at run
      · split at run
        case isTrue end_ => rw [if_pos end_]
        case isFalse => simp at run
      case h_2 there => exact absurd there ne
      · split at run
        case isTrue end_ => rw [if_pos end_]
        case isFalse => simp at run
      case h_4 text link => exact absurd link (plain text)
    · rw [entryAt?_put_of_ne some_ own]
      split at run
      · split at run
        · exact absurd (Except.ok.inj run) own
        · simp at run
      case h_2 there => exact ih there run
      · split at run
        · exact absurd (Except.ok.inj run) own
        · simp at run
      case h_4 text link =>
        rw [if_neg (by simp)] at run
        rw [if_neg follow]
        refine hj _ _ ?_ run
        split
        · exact entryAt?_nil d
        · exact dir

theorem walk_put (sound : d.Sound) (ne : d.entryAt? place ≠ some .dir)
    (plain : ∀ text, d.entryAt? place ≠ some (.link text)) (bytes : ByteArray) {links : Nat}
    {here : Place} {steps : List String} (dir : d.entryAt? here = some .dir)
    (run : walk d .output links here steps = .ok place) :
    walk (d.put place (.file bytes)) .target links here steps = .ok place := by
  induction links generalizing here steps with
  | zero => exact walkWith_put sound ne plain bytes (by simp) dir run
  | succ links ih => exact walkWith_put sound ne plain bytes (fun _ _ dir => ih dir) dir run

theorem write_run (p : Path) (bytes : ByteArray) (d : Disk) :
    (DiskM.write p bytes).run.run d = match d.placeToWrite p with
      | .ok place => (.ok (), d.put place (.file bytes))
      | .error e => (.error e, d) := by
  rw [DiskM.write, DiskM.bind_run_ok DiskM.get_run]
  cases d.placeToWrite p <;> rfl

/-- A write succeeds with the file in place, or fails and changes nothing. -/
theorem write_cases (sound : d.Sound) {bytes : ByteArray} {r : Except DiskError Unit}
    (run : (DiskM.write p bytes).run.run d = (r, d')) :
    (r = .ok () ∧ d'.readBytes p = .ok bytes) ∨ ((∃ e, r = .error e) ∧ d' = d) := by
  rw [write_run] at run
  cases there : d.placeToWrite p with
  | error e =>
    rw [there] at run
    obtain ⟨rfl, rfl⟩ := Prod.mk.inj run
    exact .inr ⟨⟨e, rfl⟩, rfl⟩
  | ok place =>
    rw [there] at run
    obtain ⟨rfl, rfl⟩ := Prod.mk.inj run
    have guarded : d.Guarded fun _ => False := ⟨sound, fun _ _ _ _ _ => id⟩
    obtain ⟨⟨above, name, rfl, -⟩, ne, plain⟩ :=
      slot_of_placeToWrite guarded (fun _ _ => id) there
    refine .inl ⟨rfl, ?_⟩
    obtain ⟨at_, located, found⟩ := bind_eq_ok_iff.1 there
    have same : at_ = above ++ [name] := by
      split at found
      · cases found
      · exact Except.ok.inj found
    obtain ⟨⟨⟩, check, walked⟩ := bind_eq_ok_iff.1 located
    have walked := walk_put sound ne plain bytes (entryAt?_nil d) (same ▸ walked)
    have put : (d.put (above ++ [name]) (.file bytes)).entryAt? (above ++ [name]) =
        some (.file bytes) := entryAt?_put_self (by simp)
    simp only [readBytes, stat, locate, check, walked, entryThere, bind, Except.bind, put]
    rfl

end Disk
end FlatModules
