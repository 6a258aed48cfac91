import FlatModules.Proofs.Disk.Routes

/-!
# Disks — ways that lead to a directory

Where names lead through links (`NamesLead`).  A lookup that goes on after some steps has come to a
directory by them (`walk_split`), and below a directory where links have the text of a bare name it
stays, unless it ends in `..` (`walk_below`).  A way does not change when directories are made
(`NamesLead.mono`); and whatever is changed below a place where links are bare, the same names lead to
no other place that is not below it (`NamesLead.blur_eq`).
-/

namespace FlatModules

open Text

namespace Disk

/-- Whether names lead from the root to a directory, through links. -/
def NamesLead (d : Disk) (names : List String) (place : Place) : Prop :=
  walk d .target linkLimit [] names = .ok place ∧ d.entryAt? place = some .dir

/-- Whether links at or below a place lead to a name beside them. -/
def BareBelow (d : Disk) (base : Place) : Prop :=
  ∀ place text, base <+: place → d.entryAt? place = some (.link text) → Path.IsName text

variable {d e : Disk} {base place : Place} {aim : Aim}
  {jump jump' : Place → List String → Except DiskError Place}

theorem bind_eq_ok_iff {α β : Type} {x : Except DiskError α} {f : α → Except DiskError β} {b : β} :
    x >>= f = .ok b ↔ ∃ a, x = .ok a ∧ f a = .ok b := by
  cases x <;> simp [bind, Except.bind]

/-! ### Lookups that go on -/

/-- A walk that goes on after some steps has come to a directory by them. -/
theorem walkWith_split (sound : d.Sound) {C : Place → Prop} {ys : List String} (ne : ys ≠ [])
    (stop : ∀ here, d.entryAt? here = some .dir → walkWith jump d aim here ys = .ok place → C here)
    (hj : ∀ here xs, d.entryAt? here = some .dir → jump here (xs ++ ys) = .ok place →
      ∃ q, jump' here xs = .ok q ∧ C q) {here : Place} {xs : List String}
    (dir : d.entryAt? here = some .dir) (run : walkWith jump d aim here (xs ++ ys) = .ok place) :
    ∃ q, walkWith jump' d .target here xs = .ok q ∧ C q := by
  induction xs generalizing here with
  | nil => exact ⟨here, rfl, stop here dir run⟩
  | cons s ss ih =>
    have more : ss ++ ys ≠ [] := by simp [ne]
    rw [List.cons_append] at run
    by_cases idle : s = "." ∨ s = ""
    · rw [walkWith_of_idle idle] at run ⊢
      exact ih dir run
    by_cases up : s = ".."
    · rw [walkWith, if_neg idle, if_pos up] at run ⊢
      exact ih (sound.dir_dropLast dir) run
    rw [walkWith, if_neg idle, if_neg up] at run ⊢
    rw [if_neg (by simp)]
    split at run
    · simp at run
    split at run
    · simp at run
    case isFalse short =>
      rw [if_neg short]
      dsimp only at run ⊢
      split at run
      · simp at run
      case h_2 there => exact ih there run
      · simp at run
      case h_4 text link =>
        rw [if_neg fun both => more both.1, ← List.append_assoc] at run
        rw [if_neg (by simp)]
        refine hj _ _ ?_ run
        split
        · exact entryAt?_nil d
        · exact dir

theorem walk_split (sound : d.Sound) {ys : List String} (ne : ys ≠ []) {links : Nat} {here : Place}
    {xs : List String} (dir : d.entryAt? here = some .dir)
    (run : walk d aim links here (xs ++ ys) = .ok place) :
    ∃ q, walk d .target links here xs = .ok q ∧ d.entryAt? q = some .dir ∧
      ∃ left, walk d aim left q ys = .ok place := by
  induction links generalizing here xs with
  | zero => exact walkWith_split sound ne (fun here dir run => ⟨dir, 0, run⟩) (by simp) dir run
  | succ links ih =>
    exact walkWith_split sound ne (fun here dir run => ⟨dir, links + 1, run⟩)
      (fun _ _ dir run => ih dir run) dir run

theorem walkWith_of_idle_all {here : Place} {steps : List String} (idle : properSteps steps = []) :
    walkWith jump d aim here steps = .ok here := by
  induction steps with
  | nil => rfl
  | cons s ss ih =>
    by_cases proper : s = "." ∨ s = ""
    · rw [walkWith_of_idle proper]
      exact ih (properSteps_of_idle proper ss ▸ idle)
    · rw [properSteps_of_proper proper] at idle
      simp at idle

/-- A walk whose last step names nothing ends at a directory. -/
theorem walk_idle (sound : d.Sound) {last : String} (idle : last = "." ∨ last = "") {links : Nat}
    {here : Place} {steps : List String} (dir : d.entryAt? here = some .dir)
    (run : walk d aim links here (steps ++ [last]) = .ok place) : d.entryAt? place = some .dir := by
  obtain ⟨q, -, there, left, rest⟩ := walk_split sound (by simp) dir run
  have nothing : properSteps [last] = [] := properSteps_of_idle idle []
  have same : walk d aim left q [last] = .ok q := by
    cases left <;> exact walkWith_of_idle_all nothing
  exact Except.ok.inj (same.symm.trans rest) ▸ there

/-- What begins names that lead to a directory leads to one, from which the rest goes on. -/
theorem NamesLead.split (sound : d.Sound) {front back : List String}
    (h : d.NamesLead (front ++ back) place) : ∃ q, d.NamesLead front q ∧
      ∃ left, walk d .target left q back = .ok place := by
  obtain ⟨run, dir⟩ := h
  by_cases nil : back = []
  · subst nil
    rw [List.append_nil] at run
    exact ⟨place, ⟨run, dir⟩, 0, rfl⟩
  · obtain ⟨q, first, there, rest⟩ := walk_split sound nil (entryAt?_nil d) run
    exact ⟨q, ⟨first, there⟩, rest⟩

/-- After names that lead to a directory, the name of an entry there leads to it. -/
theorem NamesLead.concat {front : List String} {above : Place} {last : String}
    (h : d.NamesLead front above) (name : Path.IsName last) (short : last.utf8ByteSize ≤ nameLimit)
    (dir : d.entryAt? (above ++ [last]) = some .dir) :
    d.NamesLead (front ++ [last]) (above ++ [last]) := by
  have proper : ¬(last = "." ∨ last = "") := not_or.2 ⟨name.ne_here, name.ne_empty⟩
  have onward {j : Place → List String → Except DiskError Place} {here : Place}
      (there : d.entryAt? (here ++ [last]) = some .dir) :
      walkWith j d .target here [last] = .ok (here ++ [last]) := by
    rw [walkWith_cons_eq_ok_dir_iff there proper name.ne_up]
    exact ⟨short, .inl ⟨there, rfl⟩⟩
  have main {j : Place → List String → Except DiskError Place}
      (hj : ∀ here steps, j here steps = .ok above → j here (steps ++ [last]) = .ok (above ++ [last]))
      {here : Place} {steps : List String} (run : walkWith j d .target here steps = .ok above) :
      walkWith j d .target here (steps ++ [last]) = .ok (above ++ [last]) := by
    induction steps generalizing here with
    | nil =>
      obtain rfl := Except.ok.inj run
      exact onward dir
    | cons s ss ih =>
      rw [List.cons_append]
      by_cases idle : s = "." ∨ s = ""
      · rw [walkWith_of_idle idle] at run ⊢
        exact ih run
      by_cases up : s = ".."
      · rw [walkWith, if_neg idle, if_pos up] at run ⊢
        exact ih run
      · rw [walkWith_cons_eq_ok_dir_iff h.2 idle up] at run
        rw [walkWith_cons_eq_ok_dir_iff dir idle up]
        refine ⟨run.1, run.2.imp (And.imp_right ih) (Exists.imp fun text => And.imp_right fun run => ?_)⟩
        rw [← List.append_assoc]
        exact hj _ _ run
  have whole (links : Nat) : ∀ here steps, walk d .target links here steps = .ok above →
      walk d .target links here (steps ++ [last]) = .ok (above ++ [last]) := by
    induction links with
    | zero => exact fun here steps => main (by simp)
    | succ links ih => exact fun here steps => main ih
  exact ⟨whole _ _ _ h.1, dir⟩

/-- Whether a place can hold a file and holds no link. -/
def Fillable (d : Disk) (place : Place) : Prop :=
  d.entryAt? place = none ∨ ∃ bytes, d.entryAt? place = some (.file bytes)

/-- A walk comes to the same end where no directory and no link that was there is lost, and no file at
its end. -/
theorem walk_of_passed (dirs : ∀ q, d.entryAt? q = some .dir → e.entryAt? q = some .dir)
    (links : ∀ q text, d.entryAt? q = some (.link text) → e.entryAt? q = some (.link text))
    (ends : d.Fillable place → e.Fillable place) {left : Nat} {here : Place} {steps : List String}
    (run : walk d aim left here steps = .ok place) : walk e aim left here steps = .ok place := by
  -- the induction is on the links that may be followed, and then on the steps
  have main {j j' : Place → List String → Except DiskError Place}
      (hj : ∀ here steps, j here steps = .ok place → j' here steps = .ok place) {here : Place}
      {steps : List String} (run : walkWith j d aim here steps = .ok place) :
      walkWith j' e aim here steps = .ok place := by
    induction steps generalizing here with
    | nil => exact run
    | cons s ss ih =>
      have last (fillable : d.Fillable (here ++ [s]))
          (run : (if ss = [] then .ok (here ++ [s]) else .error .notFound : Except DiskError Place) =
            .ok place ∨ (if ss = [] then .ok (here ++ [s]) else .error .notDirectory :
              Except DiskError Place) = .ok place) :
          ss = [] ∧ here ++ [s] = place ∧ e.Fillable (here ++ [s]) := by
        by_cases nil : ss = []
        · simp only [if_pos nil, Except.ok.injEq, or_self] at run
          exact ⟨nil, run, run ▸ ends (run ▸ fillable)⟩
        · simp [if_neg nil] at run
      rw [walkWith] at run ⊢
      split at run
      case isTrue idle => exact if_pos idle ▸ ih run
      case isFalse idle =>
        rw [if_neg idle]
        split at run
        case isTrue up => exact if_pos up ▸ ih run
        case isFalse up =>
          rw [if_neg up]
          split at run
          case isTrue => simp at run
          case isFalse file =>
            rw [if_neg file]
            split at run
            case isTrue => simp at run
            case isFalse short =>
              rw [if_neg short]
              dsimp only at run ⊢
              cases found : d.entryAt? (here ++ [s]) with
              | none =>
                rw [found] at run
                obtain ⟨nil, same, none_ | ⟨bytes, some_⟩⟩ := last (.inl found) (.inl run)
                · rw [none_]
                  exact (if_pos nil).trans (congrArg _ same)
                · rw [some_]
                  exact (if_pos nil).trans (congrArg _ same)
              | some entry =>
                rw [found] at run
                cases entry with
                | dir => exact dirs _ found ▸ ih run
                | file bytes =>
                  obtain ⟨nil, same, none_ | ⟨bytes, some_⟩⟩ := last (.inr ⟨bytes, found⟩) (.inr run)
                  · rw [none_]
                    exact (if_pos nil).trans (congrArg _ same)
                  · rw [some_]
                    exact (if_pos nil).trans (congrArg _ same)
                | link text =>
                  rw [links _ _ found]
                  dsimp only at run ⊢
                  split at run
                  case isTrue final => exact if_pos final ▸ run
                  case isFalse more => exact if_neg more ▸ hj _ _ run
  induction left generalizing here steps with
  | zero => exact main (by simp) run
  | succ left ih => exact main (fun _ _ => ih) run

/-- A way stays where no directory and no link that was there is lost. -/
theorem NamesLead.of_passed {names : List String} (h : d.NamesLead names place)
    (dirs : ∀ q, d.entryAt? q = some .dir → e.entryAt? q = some .dir)
    (links : ∀ q text, d.entryAt? q = some (.link text) → e.entryAt? q = some (.link text)) :
    e.NamesLead names place := by
  refine ⟨walk_of_passed dirs links ?_ h.1, dirs _ h.2⟩
  rintro (missing | ⟨bytes, file⟩)
  · simp [h.2] at missing
  · simp [h.2] at file

/-- A way stays where nothing that was there is lost. -/
theorem NamesLead.mono (keeps : ∀ q entry, d.entryAt? q = some entry → e.entryAt? q = some entry)
    {names : List String} (h : d.NamesLead names place) : e.NamesLead names place :=
  h.of_passed (fun q => keeps q .dir) fun q text => keeps q (.link text)

/-- The slot of a path is in the directory that the names above its last one lead to. -/
theorem exists_of_slot (sound : d.Sound) {dots : DiskError} {p : Path}
    (run : d.slot dots p = .ok place) : ∃ front last above, p.names = front ++ [last] ∧
      Path.IsName last ∧ last.utf8ByteSize ≤ nameLimit ∧ d.NamesLead front above ∧
      place = above ++ [last] := by
  obtain ⟨-, -, run⟩ := bind_eq_ok_iff.1 run
  dsimp only at run
  split at run
  · cases run
  case h_2 last end_ =>
    obtain ⟨here, walked, run⟩ := bind_eq_ok_iff.1 run
    obtain ⟨proper, short, rfl⟩ : ¬(last = "." ∨ last = "..") ∧ last.utf8ByteSize ≤ nameLimit ∧
        place = here ++ [last] := by
      split at run
      · cases run
      · split at run
        · cases run
        case isFalse short => exact ⟨‹_›, by omega, (Except.ok.inj run).symm⟩
    rw [List.getLast?_map] at end_
    obtain ⟨segment, final, rfl⟩ := Option.map_eq_some_iff.1 end_
    obtain ⟨front, split⟩ := List.getLast?_eq_some_iff.1 final
    have mem : segment ∈ p.segments.filter (· ≠ []) := by
      rw [split]
      exact List.mem_append_right _ List.mem_cons_self
    obtain ⟨mem, some_⟩ := List.mem_filter.1 mem
    have some_ : segment ≠ [] := by simpa using some_
    have here_ : segment ≠ ['.'] := fun e => proper (.inl (by rw [e]))
    have names : p.names = Path.namesOf front ++ [String.ofList segment] := by
      have all : p.names = Path.namesOf (p.segments.filter (· ≠ [])) := by
        simp only [Path.names, Path.namesOf, List.filter_filter]
        refine congrArg (List.map String.ofList) (List.filter_congr fun s _ => ?_)
        by_cases none_ : s = [] <;> simp [none_]
      rw [all, split, Path.namesOf_append, Path.namesOf_cons ⟨some_, here_⟩]
      rfl
    refine ⟨_, _, here, names, ⟨fun e => some_ (by simpa using congrArg String.toList e), ?_,
      fun e => proper (.inl e), fun e => proper (.inr e)⟩, short, ⟨?_, ?_⟩, rfl⟩
    · intro slash
      have := mark_eq_false_of_mem_cutAt mem '/' (by simpa using slash)
      simp at this
    · have last : properSteps [String.ofList segment] = [String.ofList segment] :=
        properSteps_of_proper (fun idle => idle.elim (fun e => proper (.inl e)) fun e =>
          some_ (by simpa using congrArg String.toList e)) []
      have steps_ : properSteps (((p.segments.filter (· ≠ [])).map String.ofList).dropLast ++ [""]) =
          Path.namesOf front := by
        have kept := properSteps_segments p
        rw [split, List.map_append, List.map_singleton, properSteps_append, names, last] at kept
        rw [split, List.map_append, List.map_singleton, List.dropLast_concat, properSteps_append,
          List.append_inj_left' kept rfl]
        simp [properSteps]
      have dir := walk_idle sound (.inr rfl) (entryAt?_nil d) walked
      rw [walk_properSteps_iff dir, steps_] at walked
      exact walked
    · exact walk_idle sound (.inr rfl) (entryAt?_nil d) walked

/-- The steps to a relative path below another one are those to the other, and then its own. -/
theorem exists_steps_div {p q : Path} (relative : q.isAbsolute = false) :
    ∃ front, steps (p / q).text = front ++ steps q.text ∧ properSteps front = p.names := by
  have cut (cs ds : List Char) : cutAt (· == '/') (cs ++ '/' :: ds) =
      cutAt (· == '/') cs ++ cutAt (· == '/') ds := cutAt_append_cons (by simp) cs ds
  have split : ∃ segments, cutAt (· == '/') (p / q).text.toList =
      segments ++ cutAt (· == '/') q.text.toList := by
    rw [Path.div_eq_front relative, String.toList_append]
    rcases p.front_eq_or with empty | slash
    · exact ⟨[], by rw [empty]; rfl⟩
    · obtain ⟨cs, e⟩ := List.getLast?_eq_some_iff.1 slash
      exact ⟨_, by rw [e, List.append_assoc, List.singleton_append, cut]⟩
  obtain ⟨segments, split⟩ := split
  have whole : steps (p / q).text =
      (segments.filter (· ≠ [])).map String.ofList ++ steps q.text := by
    have ne := cutAt_ne_nil (· == '/') q.text.toList
    simp only [steps, split, List.filter_append, List.map_append, List.getLast?_append_of_ne_nil _ ne,
      List.append_assoc]
    split <;> simp
  refine ⟨_, whole, ?_⟩
  have names := properSteps_steps (p / q)
  rw [whole, properSteps_append, properSteps_steps, Path.names_div_relative relative] at names
  exact List.append_cancel_right names

theorem steps_ne_nil (text : String) : steps text ≠ [] := by
  unfold steps
  dsimp only
  split
  · simp
  case isFalse last =>
    intro nothing
    have empty : ∀ s ∈ cutAt (· == '/') text.toList, s = [] := by
      simpa [List.filter_eq_nil_iff] using nothing
    obtain ⟨front, segment, e⟩ :=
      (List.eq_nil_or_concat' (cutAt (· == '/') text.toList)).resolve_left (cutAt_ne_nil _ _)
    refine last ?_
    rw [e, List.getLast?_concat, empty segment (by simp [e])]

/-! ### Lookups below a directory -/

/-- Below a directory where links are bare, a walk stays below it, or ends with `..` at a
directory. -/
theorem walkWith_below (sound : d.Sound) (bare : d.BareBelow base)
    (hj : ∀ here steps, base <+: here → d.entryAt? here = some .dir →
      ".." ∉ (properSteps steps).dropLast → jump here steps = .ok place →
        base <+: place ∨ ".." ∈ properSteps steps ∧ d.entryAt? place = some .dir)
    {here : Place} {steps : List String} (below : base <+: here) (dir : d.entryAt? here = some .dir)
    (noUp : ".." ∉ (properSteps steps).dropLast)
    (run : walkWith jump d aim here steps = .ok place) :
    base <+: place ∨ ".." ∈ properSteps steps ∧ d.entryAt? place = some .dir := by
  induction steps generalizing here with
  | nil =>
    obtain rfl := Except.ok.inj run
    exact .inl below
  | cons s ss ih =>
    by_cases idle : s = "." ∨ s = ""
    · rw [walkWith_of_idle idle] at run
      rw [properSteps_of_idle idle] at noUp ⊢
      exact ih below dir noUp run
    rw [properSteps_of_proper idle] at noUp ⊢
    by_cases up : s = ".."
    · have last : properSteps ss = [] := by
        by_contra more
        rw [List.dropLast_cons_of_ne_nil more] at noUp
        exact noUp (up ▸ List.mem_cons_self)
      rw [walkWith, if_neg idle, if_pos up, walkWith_of_idle_all last] at run
      obtain rfl := Except.ok.inj run
      exact .inr ⟨up ▸ List.mem_cons_self, sound.dir_dropLast dir⟩
    have noUp' : ".." ∉ (properSteps ss).dropLast := by
      by_cases more : properSteps ss = []
      · simp [more]
      · rw [List.dropLast_cons_of_ne_nil more] at noUp
        exact fun mem => noUp (List.mem_cons_of_mem _ mem)
    have onward {q : Place} (h : base <+: q ∨ ".." ∈ properSteps ss ∧ d.entryAt? q = some .dir) :
        base <+: q ∨ ".." ∈ s :: properSteps ss ∧ d.entryAt? q = some .dir :=
      h.imp_right (And.imp_left (List.mem_cons_of_mem _))
    have deeper : base <+: here ++ [s] := below.trans (List.prefix_append _ _)
    rw [walkWith, if_neg idle, if_neg up] at run
    split at run
    · simp at run
    split at run
    · simp at run
    dsimp only at run
    split at run
    · split at run
      case isTrue => exact .inl (Except.ok.inj run ▸ deeper)
      case isFalse => simp at run
    case h_2 there => exact onward (ih deeper there noUp' run)
    · split at run
      case isTrue => exact .inl (Except.ok.inj run ▸ deeper)
      case isFalse => simp at run
    case h_4 text link =>
      have name := bare _ text deeper link
      split at run
      case isTrue => exact .inl (Except.ok.inj run ▸ deeper)
      case isFalse =>
        have proper : ¬(text = "." ∨ text = "") := not_or.2 ⟨name.ne_here, name.ne_empty⟩
        rw [if_neg (by simp [name.not_isAbsolute]), steps_of_isName name, List.singleton_append] at run
        have next := hj here (text :: ss) below dir
        rw [properSteps_of_proper proper] at next
        refine onward ((next ?_ run).imp_right (And.imp_left fun mem => ?_))
        · by_cases more : properSteps ss = []
          · simp [more]
          · rw [List.dropLast_cons_of_ne_nil more]
            simpa [name.ne_up.symm] using noUp'
        · simpa [name.ne_up.symm] using mem

theorem walk_below (sound : d.Sound) (bare : d.BareBelow base) {links : Nat} {here : Place}
    {steps : List String} (below : base <+: here) (dir : d.entryAt? here = some .dir)
    (noUp : ".." ∉ (properSteps steps).dropLast) (run : walk d aim links here steps = .ok place) :
    base <+: place ∨ ".." ∈ properSteps steps ∧ d.entryAt? place = some .dir := by
  induction links generalizing here steps with
  | zero => exact walkWith_below sound bare (by simp) below dir noUp run
  | succ links ih =>
    exact walkWith_below sound bare (fun _ _ below dir noUp run => ih below dir noUp run) below dir
      noUp run

/-! ### Ways that do not depend on what is below a place -/

end Disk

/-- A place as it is told when, below `base`, only the depth counts. -/
def Place.blur (base place : Place) : Place :=
  if base <+: place then base ++ List.replicate (place.length - base.length) "" else place

namespace Place

variable {base place : Place}

theorem blur_of_below (h : base <+: place) :
    blur base place = base ++ List.replicate (place.length - base.length) "" := if_pos h

theorem blur_of_not_below (h : ¬ base <+: place) : blur base place = place := if_neg h

theorem below_blur_iff : base <+: blur base place ↔ base <+: place := by
  by_cases h : base <+: place
  · rw [blur_of_below h]
    exact iff_of_true (List.prefix_append _ _) h
  · rw [blur_of_not_below h]

theorem length_blur : (blur base place).length = place.length := by
  by_cases h : base <+: place
  · rw [blur_of_below h, List.length_append, List.length_replicate]
    have := h.length_le
    omega
  · rw [blur_of_not_below h]

theorem blur_self : blur base base = base := by
  rw [blur_of_below (List.prefix_refl _)]
  simp

theorem blur_nil : blur base [] = [] := by
  by_cases h : base <+: []
  · rw [List.prefix_nil.1 h, blur_self]
  · rw [blur_of_not_below h]

theorem blur_eq_of_length {q : Place} (h : base <+: place) (h' : base <+: q)
    (length : place.length = q.length) : blur base place = blur base q := by
  rw [blur_of_below h, blur_of_below h', length]

theorem blur_dropLast : (blur base place).dropLast = blur base place.dropLast := by
  by_cases h : base <+: place.dropLast
  · have h' : base <+: place := h.trans (List.dropLast_prefix _)
    have length := h.length_le
    rw [List.length_dropLast] at length
    rw [blur_of_below h, blur_of_below h', List.length_dropLast]
    by_cases same : place.length = base.length
    · obtain rfl := h'.eq_of_length same.symm
      have nil : base = [] := by
        rw [← List.length_eq_zero_iff]
        omega
      simp [nil]
    · obtain ⟨n, e⟩ : ∃ n, place.length - base.length = n + 1 :=
        Nat.exists_eq_add_one.2 (by have := h'.length_le; omega)
      have e' : place.length - 1 - base.length = n := by omega
      rw [e, e', List.replicate_succ', ← List.append_assoc, List.dropLast_concat]
  · rw [blur_of_not_below h]
    by_cases h' : base <+: place
    · have same : base = place := by
        obtain ⟨rest, rfl⟩ := h'
        obtain rfl | ⟨front, last, rfl⟩ := rest.eq_nil_or_concat'
        · simp
        · refine absurd ?_ h
          rw [← List.append_assoc, List.dropLast_concat]
          exact List.prefix_append _ _
      rw [← same, blur_self]
    · rw [blur_of_not_below h']

/-- A step from a blurred place is below the base exactly if it is so from the place. -/
theorem below_blur_append_iff {name name' : String} (h : base <+: place ∨ name = name') :
    base <+: blur base place ++ [name] ↔ base <+: place ++ [name'] := by
  by_cases below : base <+: place
  · exact iff_of_true ((below_blur_iff.2 below).trans (List.prefix_append _ _))
      (below.trans (List.prefix_append _ _))
  · rw [blur_of_not_below below, h.resolve_left below]

theorem blur_blur_append {name name' : String} (h : base <+: place ++ [name])
    (h' : base <+: blur base place ++ [name']) :
    blur base (blur base place ++ [name']) = blur base (place ++ [name]) :=
  blur_eq_of_length h' h (by simp [length_blur])

end Place

namespace Disk

variable {d e : Disk} {base place : Place}

/-- A way of steps to a directory, where everything at or below `base` counts as a directory. -/
inductive Way (d : Disk) (base : Place) : Place → List String → Place → Prop
  | here (here : Place) : Way d base here [] here
  | idle {here goal : Place} {step : String} {rest : List String} (idle : step = "." ∨ step = "")
      (onward : Way d base here rest goal) : Way d base here (step :: rest) goal
  | up {here goal : Place} {rest : List String} (onward : Way d base here.dropLast rest goal) :
      Way d base here (".." :: rest) goal
  | inside {here goal : Place} {step : String} {rest : List String}
      (proper : ¬(step = "." ∨ step = "")) (ne_up : step ≠ "..") (below : base <+: here ++ [step])
      (onward : Way d base (Place.blur base (here ++ [step])) rest goal) :
      Way d base here (step :: rest) goal
  | dir {here goal : Place} {step : String} {rest : List String}
      (proper : ¬(step = "." ∨ step = "")) (ne_up : step ≠ "..") (apart : ¬ base <+: here ++ [step])
      (there : d.entryAt? (here ++ [step]) = some .dir)
      (onward : Way d base (here ++ [step]) rest goal) : Way d base here (step :: rest) goal
  | link {here goal : Place} {step text : String} {rest : List String}
      (proper : ¬(step = "." ∨ step = "")) (ne_up : step ≠ "..") (apart : ¬ base <+: here ++ [step])
      (there : d.entryAt? (here ++ [step]) = some (.link text))
      (onward : Way d base (if Path.isAbsolute ⟨text⟩ then [] else here) (steps text ++ rest) goal) :
      Way d base here (step :: rest) goal

theorem Way.unique {here goal goal' : Place} {steps : List String} (h : d.Way base here steps goal)
    (h' : d.Way base here steps goal') : goal = goal' := by
  induction h with
  | here => cases h'; rfl
  | idle idle _ ih =>
    cases h' with
    | idle _ onward => exact ih onward
    | up => simp at idle
    | inside proper => exact absurd idle proper
    | dir proper => exact absurd idle proper
    | link proper => exact absurd idle proper
  | up _ ih =>
    cases h' with
    | idle idle => simp at idle
    | up onward => exact ih onward
    | inside _ ne_up => exact absurd rfl ne_up
    | dir _ ne_up => exact absurd rfl ne_up
    | link _ ne_up => exact absurd rfl ne_up
  | inside proper ne_up below _ ih =>
    cases h' with
    | idle idle => exact absurd idle proper
    | up => exact absurd rfl ne_up
    | inside _ _ _ onward => exact ih onward
    | dir _ _ apart => exact absurd below apart
    | link _ _ apart => exact absurd below apart
  | dir proper ne_up apart there _ ih =>
    cases h' with
    | idle idle => exact absurd idle proper
    | up => exact absurd rfl ne_up
    | inside _ _ below => exact absurd below apart
    | dir _ _ _ _ onward => exact ih onward
    | link _ _ _ there' => simp [there] at there'
  | link proper ne_up apart there _ ih =>
    cases h' with
    | idle idle => exact absurd idle proper
    | up => exact absurd rfl ne_up
    | inside _ _ below => exact absurd below apart
    | dir _ _ _ there' => simp [there] at there'
    | link _ _ _ there' onward =>
      obtain rfl := Entry.link.inj (Option.some.inj (there.symm.trans there'))
      exact ih onward

/-- Two disks that agree but below a place, which is a directory with bare links on the second. -/
structure AgreeOutside (base : Place) (d e : Disk) : Prop where
  same : ∀ q, ¬ base <+: q → e.entryAt? q = d.entryAt? q
  dir : e.entryAt? base = some .dir
  bare : e.BareBelow base

theorem walkWith_way {jump : Place → List String → Except DiskError Place}
    (agree : AgreeOutside base d e) (goal : e.entryAt? place = some .dir)
    (hj : ∀ here steps, jump here steps = .ok place →
      d.Way base (Place.blur base here) steps (Place.blur base place))
    {here : Place} {steps : List String} (run : walkWith jump e .target here steps = .ok place) :
    d.Way base (Place.blur base here) steps (Place.blur base place) := by
  induction steps generalizing here with
  | nil =>
    obtain rfl := Except.ok.inj run
    exact .here _
  | cons s ss ih =>
    by_cases idle : s = "." ∨ s = ""
    · rw [walkWith_of_idle idle] at run
      exact .idle idle (ih run)
    by_cases up : s = ".."
    · subst up
      rw [walkWith, if_neg idle, if_pos rfl] at run
      exact .up (Place.blur_dropLast ▸ ih run)
    rw [walkWith_cons_eq_ok_dir_iff goal idle up] at run
    have step : base <+: Place.blur base here ++ [s] ↔ base <+: here ++ [s] :=
      Place.below_blur_append_iff (.inr rfl)
    by_cases below : base <+: here ++ [s]
    · refine .inside idle up (step.2 below) ?_
      rw [Place.blur_blur_append below (step.2 below)]
      obtain ⟨-, ⟨-, run⟩ | ⟨text, link, run⟩⟩ := run
      · exact ih run
      · have name := agree.bare _ text below link
        have around : base <+: here := by
          rcases List.prefix_concat_iff.1 below with same | around
          · rw [← same, agree.dir] at link
            simp at link
          · exact around
        rw [if_neg (by simp [name.not_isAbsolute]), steps_of_isName name, List.singleton_append] at run
        have below' : base <+: here ++ [text] := around.trans (List.prefix_append _ _)
        have step' : base <+: Place.blur base here ++ [text] ↔ base <+: here ++ [text] :=
          Place.below_blur_append_iff (.inl around)
        cases hj _ _ run with
        | idle idle => exact absurd idle (not_or.2 ⟨name.ne_here, name.ne_empty⟩)
        | up => exact absurd rfl name.ne_up
        | inside _ _ below'' onward =>
          rw [Place.blur_blur_append below' below''] at onward
          exact Place.blur_eq_of_length (q := here ++ [s]) below' below (by simp) ▸ onward
        | dir _ _ apart => exact absurd (step'.2 below') apart
        | link _ _ apart => exact absurd (step'.2 below') apart
    · have around : ¬ base <+: here := fun around => below (around.trans (List.prefix_append _ _))
      have here_ := Place.blur_of_not_below around
      have there_ := agree.same _ below
      rw [here_] at step ⊢
      obtain ⟨-, ⟨dir, run⟩ | ⟨text, link, run⟩⟩ := run
      · refine .dir idle up below (there_ ▸ dir) ?_
        exact Place.blur_of_not_below below ▸ ih run
      · refine .link idle up below (there_ ▸ link) ?_
        have start : Place.blur base (if Path.isAbsolute ⟨text⟩ then [] else here) =
            if Path.isAbsolute ⟨text⟩ then [] else here := by
          split
          · exact Place.blur_nil
          · exact here_
        exact start ▸ hj _ _ run

/-- On either disk names lead the same way, up to what is below the place. -/
theorem walk_way (agree : AgreeOutside base d e) (goal : e.entryAt? place = some .dir) {links : Nat}
    {here : Place} {steps : List String} (run : walk e .target links here steps = .ok place) :
    d.Way base (Place.blur base here) steps (Place.blur base place) := by
  induction links generalizing here steps with
  | zero => exact walkWith_way agree goal (by simp) run
  | succ links ih => exact walkWith_way agree goal (fun _ _ run => ih run) run

theorem NamesLead.blur_eq {q : Place} {names : List String} (agree : AgreeOutside base d d)
    (agree' : AgreeOutside base d e) (h : d.NamesLead names place) (h' : e.NamesLead names q) :
    Place.blur base place = Place.blur base q :=
  (walk_way agree h.2 h.1).unique (walk_way agree' h'.2 h'.1)

end Disk
end FlatModules
