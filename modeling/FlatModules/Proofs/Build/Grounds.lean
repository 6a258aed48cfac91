import FlatModules.Proofs.Build.Content

/-!
# Build — what may be in the build directory

Whatever was built before, of whatever versions of a project, the build directory holds only entries
that fit it (`Site.Fitting`): on the way to a source there are directories, below a source
directories have names without a dot and everything else has a name with one, and a link stands only
where some source file was seen under its flat name, beside that file.  Outside, the disk is the
project's own but for directories on the way to the build directory (`Site.Tended`).  So a target can
be put in its place exactly if it is usable, whatever is there (`Tended.savable_iff`), and putting it
there keeps the disk so (`Tended.saved`).
-/

namespace FlatModules

open Naming Path

namespace Site

/-- A link that a source file was seen by, as it lies below a source in the build directory. -/
structure Linked (s : Site) (source : Path) (components : List String) (stem : String)
    (kind : SourceKind) (names : List String) (text : String) : Prop where
  ne_nil : components ≠ []
  valid : ∀ c ∈ components ++ [stem], isComponent c = true
  names_eq : names = source.names ++
    (components ++ [flatName (components ++ [stem]) ++ "." ++ kind.extension])
  text_eq : text = stem ++ "." ++ kind.extension
  short : text.utf8ByteSize ≤ Disk.nameLimit
  free : s.base ++ (source.names ++ (components ++ [text])) ∉ s.way

/-- What may be in the build directory, by its names there. -/
structure Fitting (s : Site) (used : List Path) (names : List String) (entry : Entry) : Prop where
  on_way : s.base ++ names ∈ s.way → entry = .dir
  above : ∀ source ∈ used, names <+: source.names → entry = .dir
  dotted : ∀ source ∈ used, ∀ front last, names = source.names ++ (front ++ [last]) →
    (∀ n ∈ (front ++ [last]).head?, '<' ∉ n.toList) → s.base ++ names ∉ s.way →
      (entry = .dir ↔ '.' ∉ last.toList)
  link : ∀ text, entry = .link text → ∃ source ∈ used, ∃ components stem kind,
    s.Linked source components stem kind names text

/-- Whether a place is strictly inside the build directory. -/
def Within (s : Site) (q : Place) : Prop := ∃ names, names ≠ [] ∧ q = s.base ++ names

/-- A project without links, and with nothing in the build directory. -/
structure Clean (s : Site) : Prop where
  sound : s.disk.Sound
  plain : ∀ q text, s.disk.entryAt? q ≠ some (.link text)
  empty : ∀ q, s.Within q → s.disk.entryAt? q = none

/-- A disk with the project on it, on which anything may have been built. -/
structure Tended (s : Site) (used : List Path) (d : Disk) : Prop where
  sound : d.Sound
  outside : ∀ q, ¬ s.Within q → d.entryAt? q = s.disk.entryAt? q ∨
    (q ∈ s.way ∧ s.disk.entryAt? q = none ∧ d.entryAt? q = some .dir)
  inside : ∀ names entry, names ≠ [] → d.entryAt? (s.base ++ names) = some entry →
    s.Fitting used names entry

/-- A target whose place suits a file, and the way there directories. -/
structure Target (s : Site) (used : List Path) (q : Path) (front : List String) (last : String) :
    Prop where
  straight : q.Straight front last
  parents : ∀ names, names <+: front → s.Fitting used names .dir
  file : s.base ++ q.names ∉ s.way → ∀ bytes, s.Fitting used q.names (.file bytes)

variable {s : Site} {used : List Path} {source q : Path} {components names : List String}
  {file : String} {d d' : Disk}

theorem lt_notMem_of_isComponent {c : String} (h : isComponent c = true) : '<' ∉ c.toList :=
  fun mem => absurd (isComponentChar_of_isComponent h mem) (by decide)

/-- The first name below a source is no signal's. -/
theorem head_plain {x : String} (valid : ∀ c ∈ components, isComponent c = true)
    (h : components ≠ [] ∨ '<' ∉ x.toList) :
    ∀ n ∈ (components ++ [x]).head?, '<' ∉ n.toList := by
  intro n hn
  cases components with
  | nil =>
    obtain rfl : x = n := by simpa using hn
    exact h.resolve_left (by simp)
  | cons c cs =>
    obtain rfl : c = n := by simpa using hn
    exact lt_notMem_of_isComponent (valid c (by simp))

namespace Linked

variable {stem text : String} {kind : SourceKind}

theorem valid_components (h : s.Linked source components stem kind names text) :
    ∀ c ∈ components, isComponent c = true :=
  fun c hc => h.valid c (List.mem_append_left _ hc)

theorem isComponent_stem (h : s.Linked source components stem kind names text) :
    isComponent stem = true := h.valid stem (by simp)

theorem isName (h : s.Linked source components stem kind names text) : IsName text := by
  rw [h.text_eq, String.append_assoc]
  exact (isStem_of_isComponent h.isComponent_stem).append (by simpa using kind.noSlash_extension)

theorem dotted (h : s.Linked source components stem kind names text) : '.' ∈ text.toList := by
  rw [h.text_eq]
  simp

end Linked

/-- Where a directory fits no link does. -/
theorem Fitting.not_link (h : s.Fitting used names .dir) (text : String) :
    ¬ s.Fitting used names (.link text) := by
  intro link
  obtain ⟨source, hs, components, stem, kind, linked⟩ := link.link text rfl
  have off : s.base ++ names ∉ s.way := fun mem => by simpa using link.on_way mem
  have dir := h.dotted source hs _ _ linked.names_eq
    (head_plain linked.valid_components (.inl linked.ne_nil)) off
  exact dir.1 rfl (by simp)

/-! ### Targets -/

theorem fitting_of_mem_way (h : s.base ++ names ∈ s.way) : s.Fitting used names .dir where
  on_way _ := rfl
  above _ _ _ := rfl
  dotted _ _ _ _ _ _ off := absurd h off
  link _ e := by simp at e

/-- Anything but a directory may be beside a file of a source by a name with a dot. -/
theorem fitting_of_dotted (apart : Apart used) (hs : source ∈ used) {x : String}
    (dotted : '.' ∈ x.toList) {entry : Entry} (ne : entry ≠ .dir)
    (link : ∀ text, entry = .link text → ∃ stem kind,
      s.Linked source components stem kind (source.names ++ (components ++ [x])) text)
    (off : s.base ++ (source.names ++ (components ++ [x])) ∉ s.way) :
    s.Fitting used (source.names ++ (components ++ [x])) entry where
  on_way mem := absurd mem off
  above source' hs' above := by
    exfalso
    obtain ⟨rest, e⟩ := above
    have e : source.names ++ (components ++ [x] ++ rest) = source'.names ++ [] := by
      rw [List.append_nil, ← e]
      simp
    simpa using (apart.eq hs hs' e).2
  dotted source' hs' front last e _ _ := by
    obtain ⟨rfl, e'⟩ := apart.eq hs hs' e
    obtain ⟨-, e'⟩ := List.append_inj' e' rfl
    obtain rfl := List.singleton_inj.1 e'
    simpa [ne] using dotted
  link text e := ⟨source, hs, components, link text e⟩

/-- A file of a source is a target. -/
theorem target_of_lies (apart : Apart used) (hs : source ∈ used) (direct : source.Direct)
    (lies : q.Lies source components file) :
    s.Target used q (source.names ++ components) file where
  straight := lies.straight direct
  parents names h := by
    refine ⟨fun _ => rfl, fun _ _ _ => rfl, fun source' hs' front last e _ _ => ?_, by simp⟩
    obtain ⟨rest, e'⟩ := h
    rw [e, List.append_assoc] at e'
    obtain ⟨rfl, rfl⟩ := apart.eq hs' hs e'
    simpa using dot_notMem_of_isComponent (lies.valid last (by simp))
  file off bytes := by
    rw [lies.names] at off ⊢
    exact fitting_of_dotted apart hs lies.dotted (by simp) (by simp) off

/-- The target of a signal that keeps aside is a target. -/
theorem exists_target_of_aside (aside : Aside used q) :
    ∃ front last, s.Target used q front last := by
  obtain ⟨front, last, straight⟩ := aside.straight
  -- no place on the way is below a source by a name without the mark
  have marked {names : List String} (h : names <+: q.names) {source : Path} (hs : source ∈ used)
      {front : List String} {last : String} (e : names = source.names ++ (front ++ [last])) :
      ¬ ∀ n ∈ (front ++ [last]).head?, '<' ∉ n.toList := by
    intro plain
    obtain ⟨n, rest, e'⟩ := List.exists_cons_of_ne_nil (l := front ++ [last]) (by simp)
    refine plain n (by simp [e']) (aside.marked source hs n (List.IsPrefix.trans ?_ h))
    rw [e, e']
    exact ⟨rest, by simp⟩
  refine ⟨front, last, straight, fun names h => ⟨fun _ => rfl, fun _ _ _ => rfl, ?_, by simp⟩,
    fun off bytes => ⟨fun mem => absurd mem off, fun source hs above => ?_, ?_, by simp⟩⟩
  · intro source hs front' last' e plain
    refine absurd plain (marked (h.trans ?_) hs e)
    rw [straight.names]
    exact List.prefix_append _ _
  · exact absurd above (aside.not_above source hs)
  · intro source hs front' last' e plain
    exact absurd plain (marked (List.prefix_refl _) hs e)

theorem follow_buildDir (s : Site) {front : List String} (h : ".." ∉ front) :
    Place.follow [] (s.buildDir.names ++ front) = s.base ++ front := by
  rw [Place.follow_append, Place.follow_of_noUp h]
  rfl

theorem mem_trail_buildDir (s : Site) {front : List String} (h : ".." ∉ front) {at_ : Place} :
    at_ ∈ Place.trail [] (s.buildDir.names ++ front) ↔ at_ ∈ s.way ∨
      ∃ names, names ≠ [] ∧ names <+: front ∧ at_ = s.base ++ names := by
  rw [Place.trail_append, List.mem_append, Place.mem_trail_of_noUp h]
  rfl

section Target

variable {front : List String} {last : String}

theorem Target.follow (h : s.Target used q front last) :
    Place.follow [] (s.buildDir / q).names = s.base ++ q.names := by
  rw [h.straight.names_div, List.append_assoc, h.straight.names]
  exact s.follow_buildDir h.straight.noUp

/-- What is at a place on the way to a target is no link. -/
theorem Tended.leads (h : s.Tended used d) (clean : s.Clean) (t : s.Target used q front last) :
    d.Leads (s.buildDir / q) (s.buildDir.names ++ front) last := by
  refine ⟨t.straight.ends_div _, t.straight.names_div _, t.straight.ne_up, fun at_ mem text e => ?_⟩
  rcases (s.mem_trail_buildDir t.straight.noUp_front).1 mem with way | ⟨names, ne, pre, rfl⟩
  · by_cases within : s.Within at_
    · obtain ⟨names, ne, rfl⟩ := within
      simpa using (h.inside names _ ne e).on_way way
    · rcases h.outside at_ within with same | ⟨-, -, dir⟩
      · exact clean.plain at_ text (same ▸ e)
      · rw [e] at dir
        simp at dir
  · exact (t.parents names pre).not_link text (h.inside names _ ne e)

end Target

/-! ### Where writing ends up -/

/-- The name in the directory of a target that writing at the target ends up at. -/
inductive Goes (s : Site) (d : Disk) (source : Path) (components : List String) (file : String)
    (q : Path) : String → Prop
  | here (h : ∀ text, d.entryAt? (s.base ++ q.names) ≠ some (.link text)) :
      Goes s d source components file q file
  | linked {text stem kind} (h : d.entryAt? (s.base ++ q.names) = some (.link text))
      (linked : s.Linked source components stem kind q.names text) :
      Goes s d source components file q text

section Goes

variable {x : String}

/-- A link where a file of a source belongs is beside what it leads to. -/
theorem Tended.linked (h : s.Tended used d) (apart : Apart used) (hs : source ∈ used)
    (lies : q.Lies source components file) {text : String}
    (e : d.entryAt? (s.base ++ q.names) = some (.link text)) :
    ∃ stem kind, s.Linked source components stem kind q.names text := by
  have some_ : q.names ≠ [] := by rw [lies.names]; simp
  obtain ⟨source', hs', components', stem, kind, linked⟩ := (h.inside q.names _ some_ e).link text rfl
  obtain ⟨rfl, e'⟩ := apart.eq hs hs' (lies.names.symm.trans linked.names_eq)
  obtain ⟨rfl, -⟩ := List.append_inj' e' rfl
  exact ⟨stem, kind, linked⟩

theorem Tended.exists_goes (h : s.Tended used d) (apart : Apart used) (hs : source ∈ used)
    (lies : q.Lies source components file) : ∃ x, s.Goes d source components file q x := by
  by_cases link : ∃ text, d.entryAt? (s.base ++ q.names) = some (.link text)
  · obtain ⟨text, e⟩ := link
    obtain ⟨stem, kind, linked⟩ := h.linked apart hs lies e
    exact ⟨text, .linked e linked⟩
  · exact ⟨file, .here (not_exists.1 link)⟩

namespace Goes

theorem isName (h : s.Goes d source components file q x) (lies : q.Lies source components file) :
    IsName x := by
  cases h with
  | here => exact lies.isName
  | linked _ linked => exact linked.isName

theorem dotted (h : s.Goes d source components file q x) (lies : q.Lies source components file) :
    '.' ∈ x.toList := by
  cases h with
  | here => exact lies.dotted
  | linked _ linked => exact linked.dotted

theorem head_plain (h : s.Goes d source components file q x)
    (lies : q.Lies source components file) : ∀ n ∈ (components ++ [x]).head?, '<' ∉ n.toList := by
  cases h with
  | here => exact Site.head_plain lies.valid (.inr lies.plain)
  | linked _ linked => exact Site.head_plain lies.valid (.inl linked.ne_nil)

/-- Where a target goes is on the way to the build directory only if its own place is. -/
theorem mem_way_iff (h : s.Goes d source components file q x) (tended : s.Tended used d)
    (lies : q.Lies source components file) :
    s.base ++ (source.names ++ (components ++ [x])) ∈ s.way ↔ s.base ++ q.names ∈ s.way := by
  cases h with
  | here => rw [lies.names]
  | linked e linked =>
    have some_ : q.names ≠ [] := by rw [lies.names]; simp
    refine iff_of_false linked.free fun mem => ?_
    simpa using (tended.inside q.names _ some_ e).on_way mem

theorem lands (h : s.Goes d source components file q x) (tended : s.Tended used d)
    (apart : Apart used) (hs : source ∈ used) (lies : q.Lies source components file) :
    d.Lands (s.base ++ q.names) (s.base ++ (source.names ++ (components ++ [x]))) := by
  cases h with
  | here h =>
    rw [lies.names] at h ⊢
    exact .here h
  | @linked text stem kind e linked =>
    rw [lies.names] at e ⊢
    rw [← List.append_assoc, ← List.append_assoc] at e ⊢
    rw [← List.append_assoc, ← List.append_assoc (s.base ++ source.names)]
    refine .beside e linked.isName linked.short fun text' e' => ?_
    -- a link beside would be named by a flat name of several components
    rw [List.append_assoc, List.append_assoc] at e'
    obtain ⟨source', hs', components', stem', kind', linked'⟩ :=
      (tended.inside _ _ (by simp) e').link text' rfl
    obtain ⟨rfl, names⟩ := apart.eq hs hs' linked'.names_eq
    obtain ⟨rfl, last⟩ := List.append_inj' names rfl
    have last := List.singleton_inj.1 last
    rw [linked.text_eq] at last
    obtain ⟨flat, -⟩ := (isStem_of_isComponent linked.isComponent_stem).inj
      (isStem_flatName (by simp) linked'.valid) last
    rw [← flatName_singleton stem] at flat
    have one := flatName_inj (by simp) (by simp) (by simpa using linked.isComponent_stem)
      linked'.valid flat
    exact linked.ne_nil (by simpa using (congrArg List.dropLast one).symm)

end Goes

/-- Nothing but directories is in the way to a file of a source if nothing else is in the way to the
build directory. -/
theorem Tended.open_iff (h : s.Tended used d) (clean : s.Clean) (hs : source ∈ used)
    (direct : source.Direct) (lies : q.Lies source components file) :
    d.Open (Place.trail [] (s.buildDir.names ++ (source.names ++ components))) ↔
      s.disk.Open s.way := by
  have noUp : ".." ∉ source.names ++ components := (lies.straight direct).noUp_front
  constructor
  · intro open_ at_ way
    by_cases within : s.Within at_
    · exact .inl (clean.empty at_ within)
    · rcases h.outside at_ within with same | ⟨-, none_, -⟩
      · exact same ▸ open_ at_ ((s.mem_trail_buildDir noUp).2 (.inl way))
      · exact .inl none_
  · intro open_ at_ mem
    -- what fits at a place inside is a directory
    have inside (names : List String) (ne : names ≠ [])
        (dir : ∀ entry, s.Fitting used names entry → entry = .dir) :
        d.entryAt? (s.base ++ names) = none ∨ d.entryAt? (s.base ++ names) = some .dir := by
      cases e : d.entryAt? (s.base ++ names) with
      | none => exact .inl rfl
      | some entry => exact .inr (congrArg some (dir entry (h.inside names entry ne e)))
    rcases (s.mem_trail_buildDir noUp).1 mem with way | ⟨names, ne, pre, rfl⟩
    · by_cases within : s.Within at_
      · obtain ⟨names, ne, rfl⟩ := within
        exact inside names ne fun entry fits => fits.on_way way
      · rcases h.outside at_ within with same | ⟨-, -, dir⟩
        · exact same ▸ open_ at_ way
        · exact .inr dir
    · refine inside names ne fun entry fits => ?_
      rcases List.prefix_or_prefix_of_prefix pre (List.prefix_append source.names components) with
        above | ⟨rest, rfl⟩
      · exact fits.above source hs above
      · obtain rfl | ⟨front, last, rfl⟩ := rest.eq_nil_or_concat'
        · exact fits.above source hs (by simp)
        · by_cases way : s.base ++ (source.names ++ (front ++ [last])) ∈ s.way
          · exact fits.on_way way
          · obtain ⟨more, e⟩ := (List.prefix_append_right_inj _).1 pre
            have valid (c : String) (hc : c ∈ front ++ [last]) : isComponent c = true :=
              lies.valid c (e ▸ List.mem_append_left _ hc)
            refine (fits.dotted source hs front last rfl (Site.head_plain (fun c hc => valid c
              (List.mem_append_left _ hc)) (.inr ?_)) way).2 ?_
            · exact lt_notMem_of_isComponent (valid last (by simp))
            · exact dot_notMem_of_isComponent (valid last (by simp))

/-- An entry can be put in the directory of a target, by a name with a dot, exactly if the target is
usable. -/
theorem Tended.savable_iff (h : s.Tended used d) (clean : s.Clean) (hs : source ∈ used)
    (direct : source.Direct) (lies : q.Lies source components file) (dotted : '.' ∈ x.toList)
    (plain : ∀ n ∈ (components ++ [x]).head?, '<' ∉ n.toList)
    (way : s.base ++ (source.names ++ (components ++ [x])) ∈ s.way ↔ s.base ++ q.names ∈ s.way) :
    d.Savable (s.buildDir / q) (s.buildDir.names ++ (source.names ++ components))
        (s.base ++ (source.names ++ (components ++ [x]))) ↔ s.Usable q := by
  have noUp : ".." ∉ source.names ++ components := (lies.straight direct).noUp_front
  have trail : s.base ++ (source.names ++ (components ++ [x])) ∈
      Place.trail [] (s.buildDir.names ++ (source.names ++ components)) ↔
        s.base ++ q.names ∈ s.way := by
    rw [s.mem_trail_buildDir noUp, way]
    refine or_iff_left ?_
    rintro ⟨names, -, pre, e⟩
    have := pre.length_le
    have := congrArg List.length (List.append_cancel_left e)
    simp at *
    omega
  constructor
  · intro savable
    exact ⟨savable.fits, (h.open_iff clean hs direct lies).1 savable.open_,
      fun mem => savable.free (trail.2 mem)⟩
  · rintro ⟨fits, open_, free⟩
    refine ⟨fits, (h.open_iff clean hs direct lies).2 open_, fun mem => free (trail.1 mem),
      fun dir => ?_⟩
    have off := fun mem => free (way.1 mem)
    exact ((h.inside _ _ (by simp) dir).dotted source hs components x rfl plain off).1 rfl dotted

/-- A target can be put where it goes exactly if it is usable. -/
theorem Goes.savable_iff (goes : s.Goes d source components file q x) (h : s.Tended used d)
    (clean : s.Clean) (hs : source ∈ used) (direct : source.Direct)
    (lies : q.Lies source components file) :
    d.Savable (s.buildDir / q) (s.buildDir.names ++ (source.names ++ components))
        (s.base ++ (source.names ++ (components ++ [x]))) ↔ s.Usable q :=
  h.savable_iff clean hs direct lies (goes.dotted lies) (goes.head_plain lies)
    (goes.mem_way_iff h lies)

end Goes

/-! ### What changes -/

/-- A change of the disk that leaves all entries but one as they are. -/
structure Alters (s : Site) (d : Disk) (names : List String) (d' : Disk) : Prop where
  keeps : ∀ at_ entry, at_ ≠ s.base ++ names → d.entryAt? at_ = some entry →
    d'.entryAt? at_ = some entry
  way : d.Dirs s.way → d'.Dirs s.way

theorem Alters.refl (s : Site) (d : Disk) (names : List String) : s.Alters d names d :=
  ⟨fun _ _ _ e => e, id⟩

/-- A path leads to a file that was put where it leads. -/
theorem Alters.lands (h : s.Alters d names d') {place : Place}
    (lands : d.Lands place (s.base ++ names)) {bytes : ByteArray}
    (file : d'.entryAt? (s.base ++ names) = some (.file bytes)) :
    d'.Lands place (s.base ++ names) := by
  have plain (text : String) : d'.entryAt? (s.base ++ names) ≠ some (.link text) := by simp [file]
  generalize e : s.base ++ names = goal at lands file plain
  cases lands with
  | here => exact .here plain
  | beside link isName short end_ =>
    refine .beside (h.keeps _ _ (fun same => ?_) link) isName short plain
    rw [same, e] at link
    exact end_ _ link

section Saved

variable {front : List String} {last : String}

theorem alters_of_grows {places : List Place} (h : d.Grows places d') (names : List String) :
    s.Alters d names d' :=
  ⟨fun _ _ _ e => h.keeps e, fun dirs at_ mem => h.keeps (dirs at_ mem)⟩

/-- Making directories on the way to a target keeps the disk in order. -/
theorem Tended.grows (h : s.Tended used d) (t : s.Target used q front last)
    (grows : d.Grows (Place.trail [] (s.buildDir.names ++ front)) d') : s.Tended used d' := by
  have mem {at_ : Place} : at_ ∈ Place.trail [] (s.buildDir.names ++ front) ↔ at_ ∈ s.way ∨
      ∃ names, names ≠ [] ∧ names <+: front ∧ at_ = s.base ++ names :=
    s.mem_trail_buildDir t.straight.noUp_front
  refine ⟨grows.sound h.sound, fun at_ off => ?_, fun names entry ne e => ?_⟩
  · rcases grows.entry at_ with same | ⟨made, none_, dir⟩
    · rw [same]
      exact h.outside at_ off
    · rcases mem.1 made with way | ⟨names, ne, -, rfl⟩
      · rcases h.outside at_ off with same | ⟨-, -, dir'⟩
        · exact .inr ⟨way, same ▸ none_, dir⟩
        · rw [none_] at dir'
          simp at dir'
      · exact absurd ⟨names, ne, rfl⟩ off
  · rcases grows.entry (s.base ++ names) with same | ⟨made, -, dir⟩
    · exact h.inside names entry ne (same ▸ e)
    · obtain rfl : entry = .dir := Option.some.inj (e.symm.trans dir)
      rcases mem.1 made with way | ⟨names', -, pre, e'⟩
      · exact fitting_of_mem_way way
      · exact List.append_cancel_left e' ▸ t.parents names' pre

theorem Tended.put (h : s.Tended used d) (ne : names ≠ []) {entry : Entry}
    (fits : s.Fitting used names entry) (sound : (d.put (s.base ++ names) entry).Sound) :
    s.Tended used (d.put (s.base ++ names) entry) := by
  have root : s.base ++ names ≠ [] := by simp [ne]
  refine ⟨sound, fun at_ off => ?_, fun names' entry' ne' e => ?_⟩
  · rw [Disk.entryAt?_put_of_ne root fun e => off ⟨names, ne, e⟩]
    exact h.outside at_ off
  · rw [Disk.entryAt?_put root] at e
    by_cases same : s.base ++ names' = s.base ++ names
    · obtain rfl := List.append_cancel_left same
      rw [if_pos rfl] at e
      exact Option.some.inj e ▸ fits
    · rw [if_neg same] at e
      exact h.inside names' entry' ne' e

theorem alters_put (h : s.Alters d names d') (ne : names ≠ []) (off : s.base ++ names ∉ s.way)
    (entry : Entry) : s.Alters d names (d'.put (s.base ++ names) entry) := by
  have root : s.base ++ names ≠ [] := by simp [ne]
  refine ⟨fun at_ entry' other e => ?_, fun dirs at_ mem => ?_⟩
  · rw [Disk.entryAt?_put_of_ne root other]
    exact h.keeps at_ entry' other e
  · rw [Disk.entryAt?_put_of_ne root fun e => off (e ▸ mem)]
    exact h.way dirs at_ mem

/-- An entry can be put where a target goes once the directories on the way are there. -/
theorem sound_put (sound : d.Sound) (noUp : ".." ∉ front)
    (dirs : d.Dirs (Place.trail [] (s.buildDir.names ++ front))) {x : String} (isName : IsName x)
    (ne : d.entryAt? (s.base ++ (front ++ [x])) ≠ some .dir) (entry : Entry) :
    (d.put (s.base ++ (front ++ [x])) entry).Sound := by
  have dir := Disk.Sound.follow_dir dirs
  rw [s.follow_buildDir noUp] at dir
  rw [← List.append_assoc] at ne ⊢
  refine sound.put (fun n hn => ?_) ne (by simpa using dir)
  rcases List.mem_append.1 hn with hn | hn
  · exact sound.isName_of_entry dir n hn
  · exact List.mem_singleton.1 hn ▸ isName

theorem Tended.put_target (h : s.Tended used d) (noUp : ".." ∉ front)
    (dirs : d.Dirs (Place.trail [] (s.buildDir.names ++ front))) {x : String} (isName : IsName x)
    (ne : d.entryAt? (s.base ++ (front ++ [x])) ≠ some .dir) {entry : Entry}
    (fits : s.base ++ (front ++ [x]) ∉ s.way → s.Fitting used (front ++ [x]) entry) :
    s.base ++ (front ++ [x]) ∉ s.way ∧
      s.Tended used (d.put (s.base ++ (front ++ [x])) entry) := by
  have off : s.base ++ (front ++ [x]) ∉ s.way := fun way =>
    ne (dirs _ ((s.mem_trail_buildDir noUp).2 (.inl way)))
  exact ⟨off, h.put (by simp) (fits off) (sound_put h.sound noUp dirs isName ne entry)⟩

/-- Saving at a target keeps the disk in order, and changes nothing but where the target goes. -/
theorem Tended.saved (h : s.Tended used d) (t : s.Target used q front last) {x : String}
    (isName : IsName x) {entry : Entry}
    (fits : s.base ++ (front ++ [x]) ∉ s.way → s.Fitting used (front ++ [x]) entry)
    {r : Except DiskError Unit}
    (saved : d.Saved (s.buildDir / q) (s.buildDir.names ++ front) (s.base ++ (front ++ [x])) entry
      (r, d')) :
    s.Tended used d' ∧ s.Alters d (front ++ [x]) d' ∧
      (r = .ok () → d'.Dirs s.way ∧ d'.entryAt? (s.base ++ (front ++ [x])) = some entry) := by
  have noUp := t.straight.noUp_front
  generalize result : (r, d') = result at saved
  cases saved with
  | @refused e made not_ grows =>
    obtain ⟨rfl, rfl⟩ := Prod.mk.inj result
    exact ⟨h.grows t grows, alters_of_grows grows _, by simp⟩
  | @done made savable grows dirs =>
    obtain ⟨rfl, rfl⟩ := Prod.mk.inj result
    have ne : made.entryAt? (s.base ++ (front ++ [x])) ≠ some .dir :=
      grows.entryAt?_eq savable.free ▸ savable.ne_dir
    obtain ⟨off, tended⟩ := (h.grows t grows).put_target noUp dirs isName ne fits
    have alters := alters_put (alters_of_grows grows (front ++ [x])) (by simp) off entry
    refine ⟨tended, alters, fun _ => ⟨fun at_ mem => ?_, Disk.entryAt?_put_self (by simp)⟩⟩
    have root : s.base ++ (front ++ [x]) ≠ [] := by simp
    have other : at_ ≠ s.base ++ (front ++ [x]) := fun e => off (e ▸ mem)
    rw [Disk.entryAt?_put_of_ne root other]
    exact dirs at_ ((s.mem_trail_buildDir noUp).2 (.inl mem))

/-- Copying whatever file to a target where no link fits does as much. -/
theorem Tended.copied (h : s.Tended used d) (clean : s.Clean) (t : s.Target used q front last)
    (unlinked : ∀ text, ¬ s.Fitting used q.names (.link text)) {source : Path}
    {r : Except DiskError Unit}
    (run : (do DiskM.makeParents (s.buildDir / q); DiskM.copy source (s.buildDir / q) :
      DiskM Unit).run.run d = (r, d')) (some_ : s.buildDir.names ++ front ≠ []) :
    s.Tended used d' ∧ s.Alters d q.names d' := by
  have noUp := t.straight.noUp_front
  have leads := h.leads clean t
  have here : ∀ text, d.entryAt? (s.base ++ q.names) ≠ some (.link text) := fun text e =>
    unlinked text (h.inside _ _ (by simp [t.straight.names]) e)
  have lands : d.Lands (Place.follow [] (s.buildDir / q).names) (s.base ++ q.names) := by
    rw [t.follow]
    exact .here here
  obtain ⟨r', d'', made, run', grows, e⟩ := Disk.copy_cases leads some_ h.sound lands source
  obtain ⟨rfl, rfl⟩ := Prod.mk.inj (run.symm.trans run')
  have kept := h.grows t grows
  have alters := alters_of_grows (s := s) grows q.names
  rcases e with rfl | ⟨writable, bytes, rfl⟩
  · exact ⟨kept, alters⟩
  · have names := t.straight.names
    have ne := writable.ne_dir
    have fits (off : s.base ++ (front ++ [last]) ∉ s.way) :
        s.Fitting used (front ++ [last]) (.file bytes) :=
      names ▸ t.file (names.symm ▸ off) bytes
    rw [names] at ne ⊢
    obtain ⟨off, tended⟩ := kept.put_target noUp writable.dirs (t.straight.ends.isName
      t.straight.ne_up) ne fits
    exact ⟨tended, alters_put (names ▸ alters) (by simp) off _⟩

end Saved

/-! ### What a target holds -/

/-- A file that can be read at a target's place in the build directory. -/
structure Holds (s : Site) (d : Disk) (q : Path) (bytes : ByteArray) : Prop where
  fits : (s.buildDir / q).Fits
  dirs : d.Dirs s.way
  there : ∃ goal, d.Lands (s.base ++ q.names) goal ∧ d.entryAt? goal = some (.file bytes)

section Holds

variable {bytes : ByteArray}

theorem exists_entry_of_lands {place goal : Place} (h : d.Lands place goal) {entry : Entry}
    (e : d.entryAt? goal = some entry) : ∃ entry, d.entryAt? place = some entry := by
  cases h with
  | here => exact ⟨_, e⟩
  | beside link => exact ⟨_, link⟩

/-- The directories on the way to what can be read are there. -/
theorem Holds.dirs_trail (h : s.Holds d q bytes) (tended : s.Tended used d) {front : List String}
    {last : String} (t : s.Target used q front last) :
    d.Dirs (Place.trail [] (s.buildDir.names ++ front)) := by
  obtain ⟨goal, lands, there⟩ := h.there
  intro at_ mem
  rcases (s.mem_trail_buildDir t.straight.noUp_front).1 mem with way | ⟨names, -, ⟨rest, e⟩, rfl⟩
  · exact h.dirs at_ way
  · -- something is in that directory
    obtain ⟨entry, e'⟩ := exists_entry_of_lands lands there
    have split : s.base ++ q.names = s.base ++ names ++ (rest ++ [last]) := by
      rw [t.straight.names, ← e]
      simp
    exact tended.sound.dir_of_prefix (by simp) (split ▸ e')

theorem Holds.readBytes (h : s.Holds d q bytes) (tended : s.Tended used d) (clean : s.Clean)
    {front : List String} {last : String} (t : s.Target used q front last) :
    d.readBytes (s.buildDir / q) = .ok bytes := by
  obtain ⟨goal, lands, there⟩ := h.there
  exact ((tended.leads clean t).readBytes_eq_ok_iff tended.sound (t.follow ▸ lands)).2
    ⟨h.fits, h.dirs_trail tended t, there⟩

/-- What can be read is read still where nothing is changed that it is read from. -/
theorem Holds.alters (h : s.Holds d q bytes) (alters : s.Alters d names d')
    (own : q.names ≠ names)
    (other : ∀ goal, d.Lands (s.base ++ q.names) goal → goal ≠ s.base ++ names) :
    s.Holds d' q bytes := by
  obtain ⟨goal, lands, there⟩ := h.there
  have file := alters.keeps _ _ (other goal lands) there
  refine ⟨h.fits, alters.way h.dirs, goal, ?_, file⟩
  have own : s.base ++ q.names ≠ s.base ++ names := fun e => own (List.append_cancel_left e)
  generalize s.base ++ q.names = place at lands own
  cases lands with
  | here => exact .here fun text e => by simp [file] at e
  | beside link isName short _ =>
    exact .beside (alters.keeps _ _ own link) isName short fun text e => by simp [file] at e

end Holds

end Site
end FlatModules
