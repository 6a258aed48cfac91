import FlatModules.Proofs.Disk.Elsewhere
import FlatModules.Proofs.Disk.Failing
import FlatModules.Proofs.Path.Spelling

/-!
# Disks — replacing a link

`DiskM.replaceLink` makes the directories above a path, removes what is there if it is no directory, and
then makes the link.  If it succeeds, the link is there and nothing else has changed but directories made
on the way (`Replaced`).  If it fails, what was there is still there (`Held`), unless the old entry was
removed and no link can be made in its place (`Lost`): the text is none that a link can have, or the entry
is a link itself and the path leads through it (`replaceLink_cases`).
-/

namespace FlatModules

open Text

namespace Disk

variable {d e e' : Disk} {p above text : Path} {place q : Place} {names front : List String}
  {last : String} {aim : Aim}

/-! ### What was found before -/

/-- A walk to an entry comes to it on each disk that has all that was there. -/
theorem walk_partOf (part : PartOf d e) {entry : Entry} (there : d.entryAt? place = some entry)
    {links : Nat} {here : Place} {steps : List String}
    (run : walk d aim links here steps = .ok place) : walk e aim links here steps = .ok place := by
  refine walk_of_passed (fun q => part q _) (fun q text => part q _) ?_ run
  rintro (missing | ⟨bytes, file⟩)
  · simp [there] at missing
  · exact .inr ⟨bytes, part _ _ file⟩

theorem entryThere_eq_ok_iff {entry : Entry} :
    d.entryThere place = .ok entry ↔ d.entryAt? place = some entry := by
  rw [entryThere]
  cases d.entryAt? place <;> simp

theorem lstat_cases {entry : Entry} : d.lstat p = .ok entry ↔
    checkPath p = .ok () ∧ ∃ place, walk d .entry linkLimit [] (steps p.text) = .ok place ∧
      d.entryAt? place = some entry := by
  simp only [lstat, locate, bind_eq_ok_iff, entryThere_eq_ok_iff]
  constructor
  · rintro ⟨place, ⟨⟨⟩, check, run⟩, there⟩
    exact ⟨check, place, run, there⟩
  · rintro ⟨check, place, run, there⟩
    exact ⟨place, ⟨⟨⟩, check, run⟩, there⟩

theorem lstat_partOf (part : PartOf d e) {entry : Entry} (found : d.lstat p = .ok entry) :
    e.lstat p = .ok entry := by
  obtain ⟨check, place, run, there⟩ := lstat_cases.1 found
  exact lstat_cases.2 ⟨check, place, walk_partOf part there run, part _ _ there⟩

/-! ### Directories made above a path -/

theorem walkWith_ne_ok_of_missing {jump : Place → List String → Except DiskError Place} {n : String}
    {idle rest : List String} (skipped : ∀ s ∈ idle, s = "." ∨ s = "") (proper : ¬(n = "." ∨ n = ""))
    (ne_up : n ≠ "..") (missing : e.entryAt? (q ++ [n]) = none) {entry : Entry}
    (there : e.entryAt? place = some entry) :
    walkWith jump e .entry q (idle ++ n :: rest) ≠ .ok place := by
  induction idle with
  | nil =>
    intro run
    rw [List.nil_append, walkWith, if_neg proper, if_neg ne_up, if_neg (by simp)] at run
    split at run
    · simp at run
    · simp only [missing] at run
      split at run
      · rw [← Except.ok.inj run, missing] at there
        simp at there
      · simp at run
  | cons s idle ih =>
    obtain ⟨hs, skipped⟩ := List.forall_mem_cons.1 skipped
    rw [List.cons_append, walkWith_of_idle hs]
    exact ih skipped

/-- Names that go on from a directory with nothing in it lead to no entry. -/
theorem lstat_ne_ok_of_empty (sound : e.Sound) (lead : e.NamesLead front q)
    (empty : ∀ n, e.entryAt? (q ++ [n]) = none) {n : String} {rest : List String}
    (whole : p.names = front ++ n :: rest) (ne_up : n ≠ "..") (entry : Entry) :
    e.lstat p ≠ .ok entry := by
  intro found
  obtain ⟨-, place, run, there⟩ := lstat_cases.1 found
  obtain ⟨xs, ys, split, hxs, hys⟩ := List.filter_eq_append_iff.1 ((properSteps_steps p).trans whole)
  obtain ⟨idle, zs, rfl, hidle, hn, -⟩ := List.filter_eq_cons_iff.1 hys
  have proper : ¬(n = "." ∨ n = "") := by simpa [and_comm] using hn
  have skipped : ∀ s ∈ idle, s = "." ∨ s = "" := by simpa [or_iff_not_imp_right] using hidle
  rw [split] at run
  obtain ⟨q', first, dir, left, onward⟩ := walk_split sound (by simp) (entryAt?_nil e) run
  obtain rfl : q' = q := by
    refine NamesLead.unique ⟨?_, dir⟩ lead
    rw [← hxs]
    exact (walk_properSteps_iff dir).1 first
  cases left <;> exact walkWith_ne_ok_of_missing skipped proper ne_up (empty n) there onward

/-- A disk on which no more was done than to make directories that were missing above a path.  The last
of these has nothing in it. -/
structure Underway (p : Path) (d e : Disk) : Prop where
  sound : e.Sound
  paved : Paved p.names.dropLast d e
  new : e = d ∨ ∃ front n q, front ++ [n] <+: p.names.dropLast ∧ e.NamesLead (front ++ [n]) q ∧
    ∀ m, e.entryAt? (q ++ [m]) = none

namespace Underway

theorem makesDir (h : Underway p d e) (parent : p.parent? = some above) (makes : MakesDir above e e') :
    Underway p d e' := by
  have edit : Edit above none e e' := .dir makes
  have sound' := edit.sound h.sound
  obtain ⟨way, slot, missing⟩ := makes
  obtain ⟨front, last, here, ends, name, short, lead, rfl⟩ := exists_of_slot h.sound slot
  have way := ends ▸ way.trans (Path.names_parent?_dropLast parent)
  have some_ : here ++ [last] ≠ [] := by simp
  have kept : PartOf e (e.put (here ++ [last]) .dir) := by
    intro q entry there
    rw [entryAt?_put_of_ne some_]
    · exact there
    · rintro rfl
      simp [missing] at there
  refine ⟨sound', h.paved.put way lead name short missing,
    .inr ⟨front, last, here ++ [last], way, ?_, fun m => ?_⟩⟩
  · exact (lead.mono kept).concat name short (entryAt?_put_self some_)
  · rw [entryAt?_put_of_ne some_ (by simp)]
    exact h.sound.none_of_not_dir (by simp [missing]) (by simp)

theorem makeParents (sound : d.Sound) : Underway p d ((DiskM.makeParents p).run.run d).2 :=
  keeps_makeParents (fun _ _ _ parent makes h => h.makesDir parent makes)
    ⟨sound, .refl _ _, .inl rfl⟩

theorem partOf (h : Underway p d e) : PartOf d e := fun _ _ => h.paved.keeps

/-- What a path without `..` leads to was there before the directories above it were made. -/
theorem lstat (h : Underway p d e) (noUp : ".." ∉ p.names) {entry : Entry}
    (found : e.lstat p = .ok entry) : d.lstat p = .ok entry := by
  rcases h.new with rfl | ⟨front, n, q, ⟨back, within⟩, lead, empty⟩
  · exact found
  · exfalso
    obtain ⟨names, last, whole⟩ := (List.eq_nil_or_concat' p.names).resolve_left
      (by rintro nil; simp [nil] at within)
    rw [whole, List.dropLast_concat] at within
    obtain ⟨m, rest, more⟩ := List.exists_cons_of_ne_nil (show back ++ [last] ≠ [] by simp)
    have whole : p.names = front ++ [n] ++ m :: rest := by
      rw [whole, ← within, ← more, List.append_assoc _ back]
    refine lstat_ne_ok_of_empty h.sound lead empty whole ?_ entry found
    rintro rfl
    exact noUp (by simp [whole])

end Underway

/-! ### The entry itself -/

/-- Whether a path leads to its slot without what is there. -/
def FoundWithout (d : Disk) (p : Path) (place : Place) : Prop :=
  (d.remove place).slot .alreadyExists p = .ok place

/-- A path that has a slot and no slash at its end ends in the name of the slot. -/
theorem exists_endsIn_of_slot {dots : DiskError} (slot : d.slot dots p = .ok place)
    (slash : endsInSlash p = false) :
    ∃ names last, p.EndsIn last ∧ last ≠ ".." ∧ p.names = names ++ [last] := by
  obtain ⟨above, last, spelled⟩ := p.exists_spelled
  obtain ⟨segments, cut⟩ := spelled.segments_eq
  obtain ⟨⟨⟩, check, run⟩ := bind_eq_ok_iff.1 slot
  have some_ : last ≠ "" := by
    rintro rfl
    have text : p.text = above := by simpa using spelled.text
    rcases spelled.above with rfl | slash'
    · simp [checkPath, checkSpelling, text, bind, Except.bind] at check
    · simp [endsInSlash, text, slash'] at slash
  have listed : ((p.segments.filter (· ≠ [])).map String.ofList).getLast? = some last := by
    have kept : last.toList ≠ [] := fun nil => some_ (String.toList_eq_nil_iff.1 nil)
    rw [cut, List.filter_append, List.filter_cons_of_pos (by simpa using kept), List.filter_nil,
      List.map_append, List.map_singleton, List.getLast?_concat, String.ofList_toList]
  dsimp only at run
  simp only [listed] at run
  obtain ⟨here, -, run⟩ := bind_eq_ok_iff.1 run
  obtain ⟨ne_here, ne_up⟩ : last ≠ "." ∧ last ≠ ".." := by
    split at run
    · cases run
    case isFalse proper => exact not_or.1 proper
  have ends : p.EndsIn last := ⟨segments, cut, some_, ne_here⟩
  obtain ⟨names, whole⟩ := ends.exists_names
  exact ⟨names, last, ends, ne_up, whole⟩

/-- A path leads to its slot without a file that is there. -/
theorem foundWithout_of_file (sound : d.Sound) {dots : DiskError} (slot : d.slot dots p = .ok place)
    (slash : endsInSlash p = false) {bytes : ByteArray} (file : d.entryAt? place = some (.file bytes)) :
    d.FoundWithout p place := by
  obtain ⟨names, last, ends, ne_up, whole⟩ := exists_endsIn_of_slot slot slash
  obtain ⟨check, short, q, lead, rfl⟩ := (slot_iff sound ends ne_up whole).1 slot
  have some_ : q ++ [last] ≠ [] := by simp
  have kept {r : Place} {entry : Entry} (ne : entry ≠ .file bytes) (there : d.entryAt? r = some entry) :
      (d.remove (q ++ [last])).entryAt? r = some entry := by
    rw [entryAt?_remove some_, if_neg]
    · exact there
    · rintro rfl
      exact ne (Option.some.inj (there.symm.trans file))
  refine (slot_iff (sound.filter_ne (by simp [file])) ends ne_up whole).2 ⟨check, short, q, ?_, rfl⟩
  exact lead.of_passed (fun r => kept (by simp)) fun r text => kept (by simp)

/-! ### The three ways to end -/

/-- How a disk is after a path was made a link at a place. -/
structure Replaced (text p : Path) (place : Place) (d e : Disk) : Prop where
  lstat : e.lstat p = .ok (.link text.text)
  slot : ∀ dots, e.slot dots p = .ok place
  ne_dir : d.entryAt? place ≠ some .dir
  same : ∀ q ≠ place, e.entryAt? q = d.entryAt? q ∨
    d.entryAt? q = none ∧ ∃ front, front <+: p.names.dropLast ∧ e.NamesLead front q

/-- How a disk is after a failure that lost nothing. -/
structure Held (p : Path) (d e : Disk) : Prop where
  paved : Paved p.names.dropLast d e
  there : ∀ entry, d.lstat p = .ok entry → e.lstat p = .ok entry
  missing : ".." ∉ p.names → ∀ entry, e.lstat p = .ok entry → d.lstat p = .ok entry

/-- How a disk is after a failure that lost the entry at a place, which `d₁` still had. -/
structure Lost (text p : Path) (place : Place) (d d₁ e : Disk) : Prop where
  paved : Paved p.names.dropLast d d₁
  slot : d₁.slot .isDirectory p = .ok place
  there : ∃ old, old ≠ .dir ∧ d.entryAt? place = some old
  gone : e = d₁.remove place
  cause : checkPath text ≠ .ok () ∨
    (∃ target, d.entryAt? place = some (.link target)) ∧ ¬ d₁.FoundWithout p place

theorem Underway.held (h : Underway p d e) : Held p d e :=
  ⟨h.paved, fun _ => lstat_partOf h.partOf, fun noUp _ => h.lstat noUp⟩

/-- Making the link in a free slot replaces what was there before. -/
theorem Underway.replaced {d₁ d₂ : Disk} (h : Underway p d d₁) (sound : d₂.Sound)
    (slot : d₂.slot .alreadyExists p = .ok place) (missing : d₂.entryAt? place = none)
    (slash : endsInSlash p = false) (ne_dir : d₁.entryAt? place ≠ some .dir)
    (rest : ∀ q ≠ place, d₂.entryAt? q = d₁.entryAt? q) :
    Replaced text p place d (d₂.put place (.link text.text)) := by
  obtain ⟨names, last, ends, ne_up, whole⟩ := exists_endsIn_of_slot slot slash
  obtain ⟨check, short, q, lead, rfl⟩ := (slot_iff sound ends ne_up whole).1 slot
  have some_ : q ++ [last] ≠ [] := by simp
  have part₁ : PartOf d₂ d₁ := by
    intro r entry there
    rw [← rest r]
    · exact there
    · rintro rfl
      simp [missing] at there
  have part : PartOf d₂ (d₂.put (q ++ [last]) (.link text.text)) := by
    intro r entry there
    rw [entryAt?_put_of_ne some_]
    · exact there
    · rintro rfl
      simp [missing] at there
  have sound' : (d₂.put (q ++ [last]) (.link text.text)).Sound :=
    (Edit.link (p := p) rfl slot missing).sound sound
  refine ⟨?_, fun dots => ?_, fun dir => ne_dir (h.partOf _ _ dir), fun r ne => ?_⟩
  · exact (lstat_eq_ok_iff sound' ends ne_up whole).2
      ⟨check, short, q, lead.mono part, entryAt?_put_self some_⟩
  · exact (slot_iff sound' ends ne_up whole).2 ⟨check, short, q, lead.mono part, rfl⟩
  · rw [entryAt?_put_of_ne some_ ne, rest r ne]
    refine (h.paved r).imp_right fun ⟨before, front, way, there⟩ => ⟨before, front, way, ?_⟩
    -- the way to the slot leads on without what is there, and so does its beginning
    obtain ⟨back, split⟩ := way
    rw [whole, List.dropLast_concat] at split
    obtain ⟨r', first, -⟩ := NamesLead.split sound (split.symm ▸ lead)
    rw [there.unique (first.mono part₁)]
    exact first.mono part

/-- After the old entry is removed, the link is made or the entry is lost. -/
theorem Underway.relinked {d₁ : Disk} (h : Underway p d d₁) (slot : d₁.slot .isDirectory p = .ok place)
    (slash : endsInSlash p = false) {old : Entry} (there : d₁.entryAt? place = some old)
    (ne : old ≠ .dir) {r : Except DiskError Unit}
    (run : (DiskM.symlink text p).run.run (d₁.remove place) = (r, e)) :
    (r = .ok () ∧ Replaced text p place d e) ∨ (∃ error, r = .error error) ∧ Lost text p place d d₁ e := by
  have ne_dir : d₁.entryAt? place ≠ some .dir := by simpa [there] using ne
  have some_ : place ≠ [] := by
    rintro rfl
    simp at ne_dir
  have free : (d₁.remove place).entryAt? place = none := by
    rw [entryAt?_remove some_, if_pos rfl]
  have rest : ∀ q ≠ place, (d₁.remove place).entryAt? q = d₁.entryAt? q := fun q other => by
    rw [entryAt?_remove some_, if_neg other]
  have sound := h.sound.filter_ne ne_dir
  obtain ⟨⟨error, rfl⟩, rfl⟩ | ⟨rfl, place', slot', missing, -, rfl⟩ := symlink_cases run
  · have before := h.paved.of_ne_dir ne there
    refine .inr ⟨⟨error, rfl⟩, h.paved, slot, ⟨old, ne, before⟩, rfl, ?_⟩
    by_contra fine
    obtain ⟨check, through⟩ := not_or.1 fine
    have found : d₁.FoundWithout p place := by
      cases old with
      | dir => exact absurd rfl ne
      | file bytes => exact foundWithout_of_file h.sound slot slash there
      | link target => exact not_not.1 fun lost => through ⟨⟨target, before⟩, lost⟩
    rw [symlink_run_of_slot (not_not.1 check) found free slash] at run
    cases (Prod.mk.inj run).1
  · -- the path leads to no other slot without the entry
    obtain rfl : place' = place := by
      obtain ⟨names, last, ends, ne_up, whole⟩ := exists_endsIn_of_slot slot slash
      obtain ⟨-, -, q, lead, rfl⟩ := (slot_iff h.sound ends ne_up whole).1 slot
      obtain ⟨-, -, q', lead', rfl⟩ := (slot_iff sound ends ne_up whole).1 slot'
      rw [lead.unique (lead'.mono fun r entry there => ?_)]
      by_cases own : r = q ++ [last]
      · simp [own, free] at there
      · exact rest r own ▸ there
    exact .inl ⟨rfl, h.replaced sound slot' free slash ne_dir rest⟩

/-- Replacing a link ends in one of three ways. -/
theorem replaceLink_cases (sound : d.Sound) {r : Except DiskError Unit}
    (run : (DiskM.replaceLink text p).run.run d = (r, e)) :
    (r = .ok () ∧ ∃ place, Replaced text p place d e) ∨
      (∃ error, r = .error error) ∧ (Held p d e ∨ ∃ place d₁, Lost text p place d d₁ e) := by
  have made := Underway.makeParents (p := p) sound
  unfold DiskM.replaceLink at run
  rw [DiskM.bind_run] at run
  split at run
  case h_2 error d₁ first =>
    rw [first] at made
    obtain ⟨rfl, rfl⟩ := Prod.mk.inj run
    exact .inr ⟨⟨_, rfl⟩, .inl made.held⟩
  case h_1 d₁ first =>
    rw [first] at made
    rw [DiskM.bind_run_ok DiskM.get_run] at run
    split at run
    case h_1 entry found =>
      rw [DiskM.bind_run] at run
      split at run
      case h_2 error d₂ gone =>
        obtain ⟨rfl, rfl⟩ := Prod.mk.inj run
        obtain ⟨-, rfl⟩ | ⟨ok, -⟩ := unlink_cases gone
        · exact .inr ⟨⟨_, rfl⟩, .inl made.held⟩
        · simp at ok
      case h_1 d₂ gone =>
        obtain ⟨⟨_, error⟩, -⟩ | ⟨-, place, old, slot, there, ne, slash, rfl⟩ := unlink_cases gone
        · simp at error
        · exact (made.relinked slot slash there ne run).imp (And.imp_right fun done => ⟨place, done⟩)
            (And.imp_right fun lost => .inr ⟨place, d₁, lost⟩)
    case h_2 =>
      -- nothing was there
      obtain ⟨error, rfl⟩ | ⟨rfl, place, slot, missing, slash, rfl⟩ := symlink_cases run
      · exact .inr ⟨error, .inl made.held⟩
      · have free : d₁.entryAt? place ≠ some .dir := by simp [missing]
        exact .inl ⟨rfl, place, made.replaced made.sound slot missing slash free fun _ _ => rfl⟩
    case h_3 error _ _ =>
      obtain ⟨rfl, rfl⟩ := Prod.mk.inj run
      exact .inr ⟨⟨_, rfl⟩, .inl made.held⟩

/-- Replacing a link is all or nothing: if it succeeds, the path is a link with the text and nothing else
has changed but directories that were missing above it; if it fails, what was at the path is still there,
and nothing is where nothing was if the path has no `..`.  Otherwise the entry was removed and no link
could be made there, as no link can have the text, or as it was itself a link through which the path
leads. -/
theorem replaceLink_all_or_nothing (sound : d.Sound) {r : Except DiskError Unit}
    (run : (DiskM.replaceLink text p).run.run d = (r, e)) :
    (r = .ok () → ∃ place, Replaced text p place d e) ∧
      (r ≠ .ok () → Held p d e ∨ ∃ place d₁, Lost text p place d d₁ e) := by
  obtain ⟨rfl, replaced⟩ | ⟨⟨error, rfl⟩, left⟩ := replaceLink_cases sound run
  · exact ⟨fun _ => replaced, fun no => absurd rfl no⟩
  · exact ⟨by simp, fun _ => left⟩

/-- A project with a link to the file beside it, a link to its own directory and a directory. -/
def linkedDisk : Disk :=
  ((sampleDisk [["lib"], ["d"]] [(["lib", "a.ml"], "a\n")]).put ["p", "lib", "l"] (.link "a.ml")).put
    ["p", "d", "l"] (.link ".")

set_option maxRecDepth 100000 in
/-- There the first link is replaced, and the directory is not. -/
theorem replaceLink_all_or_nothing_linkedDisk :
    let replaced := (DiskM.replaceLink ⟨"b.ml"⟩ ⟨"/p/lib/l"⟩).run.run linkedDisk
    let refused := (DiskM.replaceLink ⟨"b.ml"⟩ ⟨"/p/d"⟩).run.run linkedDisk
    linkedDisk.Sound ∧ replaced.1 = .ok () ∧
      (∃ place, Replaced ⟨"b.ml"⟩ ⟨"/p/lib/l"⟩ place linkedDisk replaced.2) ∧
      refused.1 = .error .isDirectory ∧ (Held ⟨"/p/d"⟩ linkedDisk refused.2 ∨
        ∃ place d₁, Lost ⟨"b.ml"⟩ ⟨"/p/d"⟩ place linkedDisk d₁ refused.2) := by
  intro replaced refused
  have sound : linkedDisk.Sound := by decide +kernel
  have ok : replaced.1 = .ok () := by decide +kernel
  have error : refused.1 = .error .isDirectory := by decide +kernel
  have ends := replaceLink_all_or_nothing sound (Prod.eta replaced).symm
  have ends' := replaceLink_all_or_nothing sound (Prod.eta refused).symm
  exact ⟨sound, ok, ends.1 ok, error, ends'.2 (by rw [error]; simp)⟩

set_option maxRecDepth 100000 in
/-- What fails to be replaced there is lost for a text that is none, and where the path leads through the
link itself; and a path that goes up through directories yet to be made leads to one afterwards. -/
theorem replaceLink_lost_linkedDisk :
    let noText := (DiskM.replaceLink ⟨""⟩ ⟨"/p/lib/a.ml"⟩).run.run linkedDisk
    let through := (DiskM.replaceLink ⟨"b.ml"⟩ ⟨"/p/d/l/l"⟩).run.run linkedDisk
    let upward := (DiskM.replaceLink ⟨"b.ml"⟩ ⟨"/p/a/b/../../a"⟩).run.run linkedDisk
    (noText.1 = .error .notFound ∧ linkedDisk.lstat ⟨"/p/lib/a.ml"⟩ = .ok (.file "a\n".toUTF8) ∧
      noText.2.lstat ⟨"/p/lib/a.ml"⟩ = .error .notFound) ∧
    (through.1 = .error .notFound ∧ linkedDisk.lstat ⟨"/p/d/l/l"⟩ = .ok (.link ".") ∧
      through.2.lstat ⟨"/p/d/l"⟩ = .error .notFound) ∧
    (upward.1 = .error .isDirectory ∧ linkedDisk.lstat ⟨"/p/a/b/../../a"⟩ = .error .notFound ∧
      upward.2.lstat ⟨"/p/a/b/../../a"⟩ = .ok .dir) := by
  decide +kernel

end Disk
end FlatModules
