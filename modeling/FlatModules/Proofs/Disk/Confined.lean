import FlatModules.Proofs.Disk.Spares

/-!
# Disks — changes in one directory

What is done for paths below a directory, where links are bare names, leaves everything outside it as
it is, but for the directories that were missing on the way to it (`Confined`).  Where the directory
is, if its way is yet to be made, does not depend on how much of it is (`OnWay.unique`).  The invariant
of the single changes is `Kept`: before there is such a directory no more than its way has been made;
afterwards the disk agrees outside it with the one that it was first on, and its names lead nowhere
else.
-/

namespace FlatModules

namespace Disk

/-- A disk after directories were made that were missing on the way that names spell. -/
def Paved (names : List String) (d d' : Disk) : Prop :=
  ∀ q, d'.entryAt? q = d.entryAt? q ∨
    d.entryAt? q = none ∧ ∃ front, front <+: names ∧ d'.NamesLead front q

/-- Whether names lead to a directory once directories are made that are missing on the way that
`names` spell. -/
def OnWay (names : List String) (d : Disk) (front : List String) (place : Place) : Prop :=
  ∃ d₁, Paved names d d₁ ∧ d₁.NamesLead front place

/-- Whether a place is at or below the directory that names lead to once their way is made. -/
def Inside (names : List String) (d : Disk) (place : Place) : Prop :=
  ∃ base, OnWay names d names base ∧ base <+: place

/-- A disk after another on which everything outside the directory that names lead to is as before,
but for directories that were missing on the way. -/
def Confined (names : List String) (d d' : Disk) : Prop :=
  ∀ place, ¬ Inside names d place → d'.entryAt? place = d.entryAt? place ∨
    d.entryAt? place = none ∧ d'.entryAt? place = some .dir ∧
      ∃ front, front <+: names ∧ OnWay names d front place

variable {names : List String} {d d₁ e e' : Disk} {base place : Place}

namespace Paved

theorem refl (names : List String) (d : Disk) : Paved names d d := fun _ => .inl rfl

theorem keeps (h : Paved names d e) {q : Place} {entry : Entry} (there : d.entryAt? q = some entry) :
    e.entryAt? q = some entry := by
  rcases h q with same | ⟨missing, -⟩
  · exact same.trans there
  · simp [missing] at there

/-- What is no directory was there before. -/
theorem of_ne_dir (h : Paved names d e) {q : Place} {entry : Entry} (ne : entry ≠ .dir)
    (there : e.entryAt? q = some entry) : d.entryAt? q = some entry := by
  rcases h q with same | ⟨-, front, -, lead⟩
  · exact same.symm.trans there
  · exact absurd (Option.some.inj (there.symm.trans lead.2)) ne

/-- One more directory on the way. -/
theorem put (h : Paved names d e) {front : List String} {last : String} {above : Place}
    (way : front ++ [last] <+: names) (lead : e.NamesLead front above) (name : Path.IsName last)
    (short : last.utf8ByteSize ≤ nameLimit) (missing : e.entryAt? (above ++ [last]) = none) :
    Paved names d (e.put (above ++ [last]) .dir) := by
  have some_ : above ++ [last] ≠ [] := by simp
  have kept : ∀ q entry, e.entryAt? q = some entry →
      (e.put (above ++ [last]) .dir).entryAt? q = some entry := by
    intro q entry there
    rw [entryAt?_put_of_ne some_]
    · exact there
    · rintro rfl
      simp [missing] at there
  intro q
  by_cases own : q = above ++ [last]
  · subst own
    have before : d.entryAt? (above ++ [last]) = none := by
      rcases h (above ++ [last]) with same | ⟨before, -⟩
      · exact same.symm.trans missing
      · exact before
    exact .inr ⟨before, _, way, (lead.mono kept).concat name short (entryAt?_put_self some_)⟩
  · rw [entryAt?_put_of_ne some_ own]
    exact (h q).imp_right fun ⟨before, front, way, lead⟩ => ⟨before, front, way, lead.mono kept⟩

end Paved

/-- On disks with the same way made, a walk to directories is the same. -/
theorem walkWith_paved {jump jump' : Place → List String → Except DiskError Place} {q : Place}
    (paved : Paved names d e) (paved' : Paved names d e') (dir : e.entryAt? place = some .dir)
    (dir' : e'.entryAt? q = some .dir)
    (hj : ∀ here steps, jump here steps = .ok place → jump' here steps = .ok q → place = q)
    {here : Place} {steps : List String} (run : walkWith jump e .target here steps = .ok place)
    (run' : walkWith jump' e' .target here steps = .ok q) : place = q := by
  -- what is no directory on one of the disks is the same on the other
  have kept {a b : Disk} (ha : Paved names d a) (hb : Paved names d b) {r : Place} {text : String}
      (there : a.entryAt? r = some (.link text)) : b.entryAt? r = some (.link text) :=
    hb.keeps (ha.of_ne_dir (by simp) there)
  induction steps generalizing here with
  | nil => exact (Except.ok.inj run).symm.trans (Except.ok.inj run')
  | cons s ss ih =>
    by_cases idle : s = "." ∨ s = ""
    · rw [walkWith_of_idle idle] at run run'
      exact ih run run'
    by_cases up : s = ".."
    · rw [walkWith, if_neg idle, if_pos up] at run run'
      exact ih run run'
    rw [walkWith_cons_eq_ok_dir_iff dir idle up] at run
    rw [walkWith_cons_eq_ok_dir_iff dir' idle up] at run'
    obtain ⟨-, ⟨there, run⟩ | ⟨text, link, run⟩⟩ := run
    · obtain ⟨-, ⟨-, run'⟩ | ⟨text, link, -⟩⟩ := run'
      · exact ih run run'
      · simp [kept paved' paved link] at there
    · obtain ⟨-, ⟨there, -⟩ | ⟨text', link', run'⟩⟩ := run'
      · simp [kept paved paved' link] at there
      · obtain rfl := Entry.link.inj (Option.some.inj ((kept paved paved' link).symm.trans link'))
        exact hj _ _ run run'

/-- Names lead to one place, however much of their way is made. -/
theorem OnWay.unique {front : List String} {q : Place} (h : OnWay names d front place)
    (h' : OnWay names d front q) : place = q := by
  obtain ⟨e, paved, run, dir⟩ := h
  obtain ⟨e', paved', run', dir'⟩ := h'
  have whole (links : Nat) : ∀ here steps, walk e .target links here steps = .ok place →
      walk e' .target links here steps = .ok q → place = q := by
    induction links with
    | zero => exact fun _ _ run run' => walkWith_paved paved paved' dir dir' (by simp) run run'
    | succ links ih => exact fun _ _ run run' => walkWith_paved paved paved' dir dir' ih run run'
  exact whole _ _ _ run run'

/-- Where names lead to a directory already, what is inside is below that. -/
theorem inside_iff (lead : d.NamesLead names base) : Inside names d place ↔ base <+: place := by
  have here : OnWay names d names base := ⟨d, .refl _ _, lead⟩
  constructor
  · rintro ⟨base', way, below⟩
    exact here.unique way ▸ below
  · exact fun below => ⟨base, here, below⟩

/-- Where names lead to a directory already, nothing is missing on their way. -/
theorem Confined.same (sound : d.Sound) (h : Confined names d e) (lead : d.NamesLead names base)
    (apart : ¬ base <+: place) : e.entryAt? place = d.entryAt? place := by
  rcases h place (fun inside => apart ((inside_iff lead).1 inside)) with
    same | ⟨missing, -, front, ⟨back, whole⟩, way⟩
  · exact same
  · obtain ⟨q, first, -⟩ := NamesLead.split sound (whole.symm ▸ lead)
    rw [way.unique ⟨d, .refl _ _, first⟩, first.2] at missing
    simp at missing

/-- Links inside have the text of a name. -/
def BareInside (names : List String) (d : Disk) : Prop :=
  ∀ place text, Inside names d place → d.entryAt? place = some (.link text) → Path.IsName text

theorem BareInside.below (h : BareInside names d) (paved : Paved names d e)
    (lead : e.NamesLead names base) : e.BareBelow base :=
  fun q text below link => h q text ⟨base, ⟨e, paved, lead⟩, below⟩ (paved.of_ne_dir (by simp) link)

/-! ### The directory, once it is there -/

namespace AgreeOutside

theorem refl (lead : d.NamesLead names base) (bare : d.BareBelow base) : AgreeOutside base d d :=
  ⟨fun _ _ => rfl, lead.2, bare⟩

theorem ne_of_ne_dir (h : AgreeOutside base d e) (ne : e.entryAt? place ≠ some .dir) :
    base ≠ place := by
  rintro rfl
  exact ne h.dir

theorem put (h : AgreeOutside base d e) (below : base <+: place) (ne : e.entryAt? place ≠ some .dir)
    {entry : Entry} (bare : ∀ text, entry = .link text → Path.IsName text) :
    AgreeOutside base d (e.put place entry) := by
  have some_ : place ≠ [] := by
    rintro rfl
    simp at ne
  refine ⟨fun q apart => ?_, ?_, fun q text below' link => ?_⟩
  · rw [entryAt?_put_of_ne some_]
    · exact h.same q apart
    · rintro rfl
      exact apart below
  · rw [entryAt?_put_of_ne some_ (h.ne_of_ne_dir ne)]
    exact h.dir
  · rw [entryAt?_put some_] at link
    split at link
    · exact bare text (Option.some.inj link)
    · exact h.bare q text below' link

theorem remove (h : AgreeOutside base d e) (below : base <+: place)
    (ne : e.entryAt? place ≠ some .dir) : AgreeOutside base d (e.remove place) := by
  have some_ : place ≠ [] := by
    rintro rfl
    simp at ne
  refine ⟨fun q apart => ?_, ?_, fun q text below' link => ?_⟩
  · rw [entryAt?_remove some_, if_neg]
    · exact h.same q apart
    · rintro rfl
      exact apart below
  · rw [entryAt?_remove some_, if_neg (h.ne_of_ne_dir ne)]
    exact h.dir
  · rw [entryAt?_remove some_] at link
    split at link
    · simp at link
    · exact h.bare q text below' link

section

variable (h : AgreeOutside base d d) (h' : AgreeOutside base d e) (lead : d.NamesLead names base)

include h h' lead

/-- Its names lead to it whatever was changed below it, if anywhere. -/
theorem eq_of_namesLead {q : Place} (lead' : e.NamesLead names q) : q = base := by
  have same := NamesLead.blur_eq h h' lead lead'
  rw [Place.blur_self] at same
  have below : base <+: q := Place.below_blur_iff.1 (same ▸ List.prefix_refl _)
  have length := congrArg List.length same
  rw [Place.length_blur] at length
  exact (below.eq_of_length length).symm

/-- What is missing on its way is below it. -/
theorem below_of_way (sound : d.Sound) {front : List String} {last : String} {above : Place}
    (way : front ++ [last] <+: names) (name : Path.IsName last) (lead' : e.NamesLead front above)
    (missing : e.entryAt? (above ++ [last]) = none) : base <+: above ++ [last] := by
  by_contra apart
  obtain ⟨back, whole⟩ := way
  rw [List.append_assoc, List.singleton_append] at whole
  obtain ⟨q, first, left, rest⟩ := NamesLead.split sound (whole.symm ▸ lead)
  have outside : ¬ base <+: above := fun below => apart (below.trans (List.prefix_append _ _))
  have same : q = above := by
    have blurred := NamesLead.blur_eq h h' first lead'
    rw [Place.blur_of_not_below outside] at blurred
    rw [← blurred, Place.blur_of_not_below]
    intro below
    exact outside (blurred ▸ Place.below_blur_iff.2 below)
  subst same
  rw [h'.same _ apart] at missing
  have proper : ¬(last = "." ∨ last = "") := not_or.2 ⟨name.ne_here, name.ne_empty⟩
  have onward : ∃ jump, walkWith jump d .target q (last :: back) = .ok base := by
    cases left <;> exact ⟨_, rest⟩
  obtain ⟨jump, onward⟩ := onward
  rw [walkWith_cons_eq_ok_dir_iff lead.2 proper name.ne_up, missing] at onward
  simp at onward

/-- Where names lead that go on straight down from its own is below it. -/
theorem below_of_namesLead (sound : e.Sound) {rest : List String} {above : Place}
    (noUp : ".." ∉ rest) (lead' : e.NamesLead (names ++ rest) above) : base <+: above := by
  obtain ⟨q, first, left, onward⟩ := lead'.split sound
  obtain rfl := eq_of_namesLead h h' lead first
  have noUp' : ".." ∉ properSteps rest := fun up => noUp (List.mem_of_mem_filter up)
  refine (walk_below sound h'.bare (List.prefix_refl _) h'.dir ?_ onward).resolve_right fun up => ?_
  · exact fun up => noUp' (List.mem_of_mem_dropLast up)
  · exact noUp' up.1

end

end AgreeOutside

/-! ### Changes -/

/-- What single changes keep that are made for paths below a directory. -/
inductive Kept (names : List String) (d e : Disk) : Prop
  /-- There is no such directory yet. -/
  | before (sound : e.Sound) (paved : Paved names d e) (nowhere : ∀ base, ¬ e.NamesLead names base)
  | since {d₁ : Disk} {base : Place} (sound : e.Sound) (sound₁ : d₁.Sound) (paved : Paved names d d₁)
      (lead : d₁.NamesLead names base) (bare : d₁.BareBelow base) (agree : AgreeOutside base d₁ e)

namespace Kept

theorem sound (h : Kept names d e) : e.Sound := by
  cases h <;> assumption

theorem confined (h : Kept names d e) : Confined names d e := by
  intro place outside
  have made {d₁ : Disk} (paved : Paved names d d₁) : d₁.entryAt? place = d.entryAt? place ∨
      d.entryAt? place = none ∧ d₁.entryAt? place = some .dir ∧
        ∃ front, front <+: names ∧ OnWay names d front place :=
    (paved place).imp_right fun ⟨missing, front, way, lead⟩ =>
      ⟨missing, lead.2, front, way, _, paved, lead⟩
  cases h with
  | before _ paved => exact made paved
  | @since d₁ base _ _ paved lead _ agree =>
    rw [agree.same place fun below => outside ⟨base, ⟨d₁, paved, lead⟩, below⟩]
    exact made paved

theorem of_paved (bare : BareInside names d) (sound : e.Sound) (paved : Paved names d e) :
    Kept names d e := by
  by_cases nowhere : ∀ base, ¬ e.NamesLead names base
  · exact .before sound paved nowhere
  · obtain ⟨base, lead⟩ := not_forall_not.1 nowhere
    have bare_ := bare.below paved lead
    exact .since sound sound paved lead bare_ (.refl lead bare_)

end Kept

/-- A list that a name ends begins another if it begins the first part, or goes on from there. -/
theorem prefix_append_cases {front xs ys : List String} {last : String}
    (h : front ++ [last] <+: xs ++ ys) :
    front ++ [last] <+: xs ∨ ∃ mid, front = xs ++ mid ∧ mid ++ [last] <+: ys := by
  rcases List.prefix_or_prefix_of_prefix h (List.prefix_append xs ys) with within | beyond
  · exact .inl within
  · rcases List.prefix_concat_iff.1 beyond with same | ⟨mid, rfl⟩
    · exact .inl (same ▸ List.prefix_refl _)
    · rw [List.append_assoc, List.prefix_append_right_inj] at h
      exact .inr ⟨mid, rfl, h⟩

theorem up_notMem_of_isPrefix {mid rest : List String} {last : String} (h : mid ++ [last] <+: rest)
    (noUp : ".." ∉ rest.dropLast) : ".." ∉ mid := by
  obtain ⟨more, rfl⟩ := h
  intro up
  refine noUp ?_
  rw [List.append_assoc, List.dropLast_append_of_ne_nil (by simp)]
  exact List.mem_append_left _ up

section Edits

variable {b q : Path} {text? : Option String}

/-- Where a file is written below a directory whose names lead there. -/
theorem exists_of_placeToWrite (sound : e.Sound) (relative : q.isAbsolute = false)
    (there : e.placeToWrite (b / q) = .ok place) : ∃ base, e.NamesLead b.names base ∧
      e.entryAt? place ≠ some .dir ∧ ∃ left, walk e .output left base (steps q.text) = .ok place := by
  obtain ⟨at_, located, rest⟩ := bind_eq_ok_iff.1 there
  obtain ⟨ne, rfl⟩ : e.entryAt? at_ ≠ some .dir ∧ at_ = place := by
    split at rest
    · cases rest
    case h_2 other => exact ⟨other, Except.ok.inj rest⟩
  obtain ⟨front, whole, names⟩ := exists_steps_div (p := b) relative
  have walked := walk_of_locate located
  rw [whole] at walked
  obtain ⟨base, first, dir, onward⟩ := walk_split sound (steps_ne_nil _) (entryAt?_nil e) walked
  rw [walk_properSteps_iff dir, names] at first
  exact ⟨base, ⟨first, dir⟩, ne, onward⟩

variable (relative : q.isAbsolute = false) (noUp : ".." ∉ q.names.dropLast)

include relative noUp

/-- A change for a path below a directory keeps the invariant. -/
theorem Kept.edit (h : Kept b.names d e)
    (bare : BareInside b.names d) (linked : text?.isSome → q.names ≠ []) (plain : ∀ text ∈ text?, Path.IsName text)
    (edit : Edit (b / q) text? e e') : Kept b.names d e' := by
  have sound' := edit.sound h.sound
  have names : (b / q).names = b.names ++ q.names := Path.names_div_relative relative
  -- a slot of the path itself is further down than the directory
  have own {dots : DiskError} {place : Place} (some_ : q.names ≠ []) (slot : e.slot dots (b / q) = .ok place) :
      ∃ mid last above, ".." ∉ mid ∧ e.NamesLead (b.names ++ mid) above ∧ place = above ++ [last] := by
    obtain ⟨front, last, above, ends, -, -, lead, rfl⟩ := exists_of_slot h.sound slot
    obtain ⟨mid, last', ends'⟩ := (List.eq_nil_or_concat' q.names).resolve_left some_
    rw [names, ends', ← List.append_assoc] at ends
    obtain ⟨rfl, rfl⟩ := List.append_singleton_inj.1 ends
    rw [ends', List.dropLast_concat] at noUp
    exact ⟨mid, last', above, noUp, lead, rfl⟩
  cases h with
  | before sound paved nowhere =>
    have nowhere' {mid : List String} {above : Place} : ¬ e.NamesLead (b.names ++ mid) above :=
      fun lead => by
        obtain ⟨base, first, -⟩ := lead.split sound
        exact nowhere base first
    cases edit with
    | dir makes =>
      obtain ⟨way, slot, missing⟩ := makes
      obtain ⟨front, last, above, ends, name, short, lead, rfl⟩ := exists_of_slot sound slot
      rw [ends, names] at way
      rcases prefix_append_cases way with within | ⟨mid, rfl, -⟩
      · exact .of_paved bare sound' (paved.put within lead name short missing)
      · exact absurd lead nowhere'
    | file bytes there =>
      obtain ⟨base, lead, -⟩ := exists_of_placeToWrite sound relative there
      exact absurd lead (nowhere base)
    | gone made slot =>
      obtain ⟨mid, last, above, -, lead, -⟩ := own (linked made) slot
      exact absurd lead nowhere'
    | link made slot =>
      obtain ⟨mid, last, above, -, lead, -⟩ := own (linked (made ▸ rfl)) slot
      exact absurd lead nowhere'
  | since sound sound₁ paved lead₁ bare₁ agree =>
    have agree₁ := AgreeOutside.refl lead₁ bare₁
    have deep {mid : List String} {last : String} {above : Place} (noUp : ".." ∉ mid)
        (lead : e.NamesLead (b.names ++ mid) above) :=
      (agree₁.below_of_namesLead agree lead₁ sound noUp lead).trans (List.prefix_append above [last])
    refine .since sound' sound₁ paved lead₁ bare₁ ?_
    cases edit with
    | dir makes =>
      obtain ⟨way, slot, missing⟩ := makes
      obtain ⟨front, last, above, ends, name, short, lead, rfl⟩ := exists_of_slot sound slot
      rw [ends, names] at way
      refine agree.put ?_ (by simp [missing]) (by simp)
      rcases prefix_append_cases way with within | ⟨mid, rfl, beyond⟩
      · exact agree₁.below_of_way agree lead₁ sound₁ within name lead missing
      · exact deep (up_notMem_of_isPrefix beyond noUp) lead
    | file bytes there =>
      obtain ⟨base', lead, ne, left, onward⟩ := exists_of_placeToWrite sound relative there
      obtain rfl := agree₁.eq_of_namesLead agree lead₁ lead
      have below := walk_below sound agree.bare (List.prefix_refl _) agree.dir
        (by rwa [properSteps_steps]) onward
      exact agree.put (below.resolve_right fun up => ne up.2) ne (by simp)
    | gone made slot there ne =>
      obtain ⟨mid, last, above, noUp, lead, rfl⟩ := own (linked made) slot
      exact agree.remove (deep noUp lead) fun dir => ne (Option.some.inj (there.symm.trans dir))
    | link made slot missing =>
      obtain ⟨mid, last, above, noUp, lead, rfl⟩ := own (linked (made ▸ rfl)) slot
      refine agree.put (deep noUp lead) (by simp [missing]) fun text e => ?_
      exact Entry.link.inj e ▸ plain _ made

end Edits

end Disk
end FlatModules
