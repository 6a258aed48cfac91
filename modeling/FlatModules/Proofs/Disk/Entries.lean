import FlatModules.Disk.Basic
import FlatModules.Proofs.Path.Parts

/-!
# Disks — entries

What a disk holds after a change at one place, and the disks that a file system can be in
(`Disk.Sound`): one entry to a place, each in a directory, each of a proper name.
-/

namespace FlatModules

namespace Disk

variable {d : Disk} {place q : Place} {entry : Entry}

@[simp] theorem entryAt?_nil (d : Disk) : d.entryAt? [] = some .dir := rfl

theorem entryAt?_eq_lookup (h : place ≠ []) : d.entryAt? place = d.entries.lookup place :=
  if_neg h

/-- Entries kept by their places are found or not by theirs. -/
theorem lookup_filter (entries : List (Place × Entry)) (keep : Place → Bool) (q : Place) :
    (entries.filter fun x => keep x.1).lookup q = if keep q then entries.lookup q else none := by
  induction entries with
  | nil => simp
  | cons x xs ih =>
    obtain ⟨at_, e⟩ := x
    by_cases same : q = at_
    · subst same
      by_cases kept : keep q = true
      · simp [kept]
      · simp [kept, ih]
    · have other : (q == at_) = false := beq_false_of_ne same
      by_cases kept : keep at_ = true
      · simp [kept, List.lookup_cons, other, ih]
      · simp [kept, List.lookup_cons, other, ih]

theorem entryAt?_put (hp : place ≠ []) (q : Place) :
    (d.put place entry).entryAt? q = if q = place then some entry else d.entryAt? q := by
  by_cases root : q = []
  · subst root
    rw [if_neg (Ne.symm hp)]
    rfl
  · rw [entryAt?_eq_lookup root, put, List.lookup_cons]
    by_cases same : q = place
    · simp [same]
    · have other : (q == place) = false := by simpa using same
      rw [other, if_neg same, entryAt?_eq_lookup root]
      exact (lookup_filter d.entries (· ≠ place) q).trans (by simp [same])

theorem entryAt?_put_self (hp : place ≠ []) : (d.put place entry).entryAt? place = some entry := by
  rw [entryAt?_put hp, if_pos rfl]

theorem entryAt?_put_of_ne (hp : place ≠ []) (h : q ≠ place) :
    (d.put place entry).entryAt? q = d.entryAt? q := by
  rw [entryAt?_put hp, if_neg h]

theorem entryAt?_remove (hp : place ≠ []) (q : Place) :
    (d.remove place).entryAt? q = if q = place then none else d.entryAt? q := by
  by_cases root : q = []
  · subst root
    rw [if_neg (Ne.symm hp)]
    rfl
  · rw [entryAt?_eq_lookup root, entryAt?_eq_lookup root]
    exact (lookup_filter d.entries (· ≠ place) q).trans (by by_cases h : q = place <;> simp [h])

theorem entryAt?_removeTree (hp : place ≠ []) (q : Place) :
    (d.removeTree place).entryAt? q = if place <+: q then none else d.entryAt? q := by
  by_cases root : q = []
  · subst root
    rw [if_neg (by simpa using hp)]
    rfl
  · rw [entryAt?_eq_lookup root, entryAt?_eq_lookup root]
    exact (lookup_filter d.entries (fun at_ => !place.isPrefixOf at_) q).trans
      (by by_cases h : place <+: q <;> simp [← List.isPrefixOf_iff_prefix] at h ⊢ <;> simp [h])

/-- A disk as a file system can be: no place has two entries, and each entry has a proper name and
is in a directory. -/
structure Sound (d : Disk) : Prop where
  nodup : (d.entries.map Prod.fst).Nodup
  named : ∀ x ∈ d.entries, x.1 ≠ [] ∧ ∀ n ∈ x.1, Path.IsName n
  housed : ∀ x ∈ d.entries, d.entryAt? x.1.dropLast = some .dir

instance (d : Disk) : Decidable d.Sound :=
  decidable_of_iff ((d.entries.map Prod.fst).Nodup ∧
      (∀ x ∈ d.entries, x.1 ≠ [] ∧ ∀ n ∈ x.1, Path.IsName n) ∧
      ∀ x ∈ d.entries, d.entryAt? x.1.dropLast = some .dir)
    ⟨fun ⟨a, b, c⟩ => ⟨a, b, c⟩, fun ⟨a, b, c⟩ => ⟨a, b, c⟩⟩

theorem lookup_eq_some_iff {entries : List (Place × Entry)}
    (h : (entries.map Prod.fst).Nodup) :
    entries.lookup place = some entry ↔ (place, entry) ∈ entries := by
  induction entries with
  | nil => simp
  | cons x xs ih =>
    obtain ⟨at_, e⟩ := x
    obtain ⟨fresh, rest⟩ := List.nodup_cons.1 h
    rw [List.lookup_cons]
    by_cases same : place = at_
    · subst same
      simp only [beq_self_eq_true, List.mem_cons, Prod.mk.injEq, true_and]
      constructor
      · intro h
        exact .inl (Option.some.inj h).symm
      · rintro (rfl | mem)
        · rfl
        · exact absurd (List.mem_map_of_mem (f := Prod.fst) mem) fresh
    · have other : (place == at_) = false := by simpa using same
      simp [other, ih rest, same]

namespace Sound

theorem entryAt?_eq_some_iff (h : d.Sound) (hp : place ≠ []) :
    d.entryAt? place = some entry ↔ (place, entry) ∈ d.entries := by
  rw [entryAt?_eq_lookup hp, lookup_eq_some_iff h.nodup]

theorem mem_of_link (h : d.Sound) {text : String} (link : d.entryAt? place = some (.link text)) :
    (place, .link text) ∈ d.entries := by
  have ne : place ≠ [] := by
    rintro rfl
    simp [entryAt?_nil] at link
  exact (h.entryAt?_eq_some_iff ne).1 link

theorem dir_of_entry (h : d.Sound) {name : String}
    (e : d.entryAt? (place ++ [name]) = some entry) : d.entryAt? place = some .dir := by
  have := h.housed _ ((h.entryAt?_eq_some_iff (by simp)).1 e)
  rwa [List.dropLast_concat] at this

/-- Everything on the way to an entry is a directory. -/
theorem dir_of_prefix (h : d.Sound) {rest : List String} (hr : rest ≠ [])
    (e : d.entryAt? (place ++ rest) = some entry) : d.entryAt? place = some .dir := by
  induction rest using List.reverseRecOn generalizing entry with
  | nil => exact absurd rfl hr
  | append_singleton rest name ih =>
    rw [← List.append_assoc] at e
    have above := h.dir_of_entry e
    by_cases nil : rest = []
    · simpa [nil] using above
    · exact ih nil above

theorem isName_of_entry (h : d.Sound) (e : d.entryAt? place = some entry) :
    ∀ n ∈ place, Path.IsName n := by
  by_cases hp : place = []
  · simp [hp]
  · exact (h.named _ ((h.entryAt?_eq_some_iff hp).1 e)).2

/-- Nothing is below what is no directory. -/
theorem none_of_not_dir (h : d.Sound) (hp : d.entryAt? place ≠ some .dir) {rest : List String}
    (hr : rest ≠ []) : d.entryAt? (place ++ rest) = none := by
  cases e : d.entryAt? (place ++ rest) with
  | none => rfl
  | some entry => exact absurd (h.dir_of_prefix hr e) hp

theorem filter_ne (h : d.Sound) (hp : d.entryAt? place ≠ some .dir) :
    (d.remove place).Sound where
  nodup := (h.nodup.sublist (List.filter_sublist.map _))
  named x hx := h.named x (List.mem_filter.1 hx).1
  housed x hx := by
    have mem := (List.mem_filter.1 hx).1
    have ne : place ≠ [] := by
      rintro rfl
      exact hp rfl
    have dir := h.housed x mem
    rw [entryAt?_remove ne, if_neg]
    · exact dir
    · intro e
      rw [e] at dir
      exact hp dir

/-- A place in a directory can be given an entry, unless a directory is there already. -/
theorem put (h : d.Sound) (hn : ∀ n ∈ place, Path.IsName n) (hp : d.entryAt? place ≠ some .dir)
    (above : d.entryAt? place.dropLast = some .dir) : (d.put place entry).Sound := by
  have ne : place ≠ [] := by
    rintro rfl
    exact hp rfl
  have rest := h.filter_ne hp
  have longer : place.dropLast ≠ place := by
    intro e
    have := congrArg List.length e
    have := List.length_pos_of_ne_nil ne
    simp at *
    omega
  refine ⟨?_, ?_, ?_⟩
  · refine List.nodup_cons.2 ⟨fun mem => ?_, rest.nodup⟩
    obtain ⟨x, hx, e⟩ := List.mem_map.1 mem
    have := (List.mem_filter.1 hx).2
    simp [e] at this
  · rintro x hx
    rcases List.mem_cons.1 hx with rfl | hx
    · exact ⟨ne, hn⟩
    · exact rest.named x hx
  · rintro x hx
    rcases List.mem_cons.1 hx with rfl | hx
    · rw [entryAt?_put_of_ne ne longer]
      exact above
    · have dir := h.housed x (List.mem_filter.1 hx).1
      rw [entryAt?_put_of_ne ne]
      · exact dir
      · intro e
        rw [e] at dir
        exact hp dir

end Sound

end Disk

/-- A disk with a project at `/p`, of directories and files by their names below it. -/
def sampleDisk (dirs : List Place) (files : List (Place × String)) : Disk :=
  ⟨(["p"], .dir) :: (dirs.map fun names => ("p" :: names, .dir)) ++
    files.map fun (names, text) => ("p" :: names, .file text.toUTF8)⟩

end FlatModules
