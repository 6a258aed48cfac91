import Mathlib.Data.List.Forall2
import FlatModules.Proofs.Disk.Beside
import FlatModules.Proofs.Disk.Confined

/-!
# Disks — changes elsewhere

What a path below a directory names stays as it is when changes are made for other paths below that
directory, even through links.  It is enough to know of the links there what they can be named and
lead to (`OneHop`): names then lead to places that are told by these names alone (`Via`), and a path
is away from another one (`Away`) if no change for it is made where the other can lead.  What is kept
by all changes away from a path is `Untouched`; it says that the path names what it named before
(`Untouched.lstat_eq`).
-/

namespace FlatModules

open Text

namespace Disk

variable {L : String → String → Prop} {c d e e' : Disk} {base place here : Place}
  {names above steps : List String} {last : String} {aim : Aim} {text? : Option String}

/-! ### Where names lead -/

/-- Names and texts of links that lead to a name beside them, under which no link is. -/
structure OneHop (L : String → String → Prop) : Prop where
  isName : ∀ {n m}, L n m → Path.IsName m
  stop : ∀ {n m l}, L n m → ¬ L m l

/-- Names below a place and where they lead, if links are followed in some of them. -/
def Via (L : String → String → Prop) (names places : List String) : Prop :=
  List.Forall₂ (fun n m => m = n ∨ L n m) names places

/-- Whether the links below a place are of a kind. -/
def LinkedBelow (L : String → String → Prop) (base : Place) (d : Disk) : Prop :=
  ∀ above name text, base <+: above → d.entryAt? (above ++ [name]) = some (.link text) → L name text

theorem Via.length_eq {ms : List String} (h : Via L names ms) : ms.length = names.length :=
  (List.Forall₂.length_eq h).symm

theorem walkWith_via (hop : OneHop L) (linked : LinkedBelow L base d)
    {jump : Place → List String → Except DiskError Place}
    (hj : ∀ here steps, base <+: here → d.entryAt? here = some .dir → ".." ∉ properSteps steps →
      jump here steps = .ok place → ∃ ms, place = here ++ ms ∧ Via L (properSteps steps) ms)
    (below : base <+: here) (dir : d.entryAt? here = some .dir) (noUp : ".." ∉ properSteps steps)
    (run : walkWith jump d aim here steps = .ok place) :
    ∃ ms, place = here ++ ms ∧ Via L (properSteps steps) ms := by
  induction steps generalizing here with
  | nil =>
    obtain rfl := Except.ok.inj run
    exact ⟨[], by simp, .nil⟩
  | cons s ss ih =>
    by_cases idle : s = "." ∨ s = ""
    · rw [walkWith_of_idle idle] at run
      rw [properSteps_of_idle idle] at noUp ⊢
      exact ih below dir noUp run
    rw [properSteps_of_proper idle] at noUp ⊢
    rw [List.mem_cons, not_or] at noUp
    have deeper : base <+: here ++ [s] := below.trans (List.prefix_append _ _)
    have own (last : ss = []) : ∃ ms, here ++ [s] = here ++ ms ∧ Via L (s :: properSteps ss) ms := by
      subst last
      exact ⟨[s], rfl, .cons (.inl rfl) .nil⟩
    rw [walkWith, if_neg idle, if_neg (Ne.symm noUp.1)] at run
    split at run
    · simp at run
    split at run
    · simp at run
    dsimp only at run
    split at run
    · split at run
      case isTrue last => exact Except.ok.inj run ▸ own last
      case isFalse => simp at run
    case h_2 there =>
      obtain ⟨ms, rfl, via⟩ := ih deeper there noUp.2 run
      exact ⟨s :: ms, by simp, .cons (.inl rfl) via⟩
    · split at run
      case isTrue last => exact Except.ok.inj run ▸ own last
      case isFalse => simp at run
    case h_4 text link =>
      split at run
      case isTrue last => exact Except.ok.inj run ▸ own last.1
      case isFalse =>
        have kind := linked here s text below link
        have name := hop.isName kind
        have proper : ¬(text = "." ∨ text = "") := not_or.2 ⟨name.ne_here, name.ne_empty⟩
        rw [if_neg (by simp [name.not_isAbsolute]), steps_of_isName name, List.singleton_append] at run
        have next := hj here (text :: ss) below dir
        rw [properSteps_of_proper proper] at next
        obtain ⟨ms, rfl, via⟩ := next (by simpa [name.ne_up.symm] using noUp.2) run
        cases via with
        | @cons _ m _ ms first rest =>
          -- under the text of a link there is none
          obtain rfl : m = text := first.resolve_right (hop.stop kind)
          exact ⟨_, rfl, .cons (.inr kind) rest⟩

/-- Below a directory names lead to where they can lead through the links there. -/
theorem walk_via (hop : OneHop L) (linked : LinkedBelow L base d) {links : Nat}
    (below : base <+: here) (dir : d.entryAt? here = some .dir) (noUp : ".." ∉ properSteps steps)
    (run : walk d aim links here steps = .ok place) :
    ∃ ms, place = here ++ ms ∧ Via L (properSteps steps) ms := by
  induction links generalizing here steps with
  | zero => exact walkWith_via hop linked (by simp) below dir noUp run
  | succ links ih =>
    exact walkWith_via hop linked (fun _ _ below dir noUp => ih below dir noUp) below dir noUp run

/-- A walk whose last step goes up ends at a directory. -/
theorem dir_of_walk_up (sound : d.Sound) {links : Nat} (dir : d.entryAt? here = some .dir)
    (up : (properSteps steps).getLast? = some "..") (run : walk d aim links here steps = .ok place) :
    d.entryAt? place = some .dir := by
  obtain ⟨names, whole⟩ := List.getLast?_eq_some_iff.1 up
  obtain ⟨front, back, rfl, -, rest⟩ := List.filter_eq_append_iff.1 whole
  obtain ⟨idle, back, rfl, -, -, nothing⟩ := List.filter_eq_cons_iff.1 rest
  rw [← List.append_assoc] at run
  obtain ⟨q, -, there, left, run⟩ := walk_split sound (by simp) dir run
  have above : walk d aim left q (".." :: back) = .ok q.dropLast := by
    cases left <;> exact walkWith_of_idle_all nothing
  exact Except.ok.inj (above.symm.trans run) ▸ sound.dir_dropLast there

/-! ### Ways that what is inside has no part in -/

/-- Whether all of a disk is there on another one, too. -/
def PartOf (c d : Disk) : Prop := ∀ q entry, c.entryAt? q = some entry → d.entryAt? q = some entry

/-- Whether names lead to a directory on account of what is outside it. -/
def LeadsFromOutside (d : Disk) (names : List String) (base : Place) : Prop :=
  ∃ c : Disk, c.Sound ∧ PartOf c d ∧ (∀ q, base <+: q → q ≠ base → c.entryAt? q = none) ∧
    c.NamesLead names base

/-- Whether the directory that names lead to, or will lead to once their way is made, is found
without what is inside it; and, if they do not lead there yet, whether nothing is in its place. -/
def Freestanding (names : List String) (d : Disk) : Prop :=
  ∀ d₁ base, Paved names d d₁ → d₁.NamesLead names base →
    d₁.LeadsFromOutside names base ∧ (d.NamesLead names base ∨ d.entryAt? base = none)

/-- A walk that goes on from a directory does so alike on all disks that have all that was passed on
the way there. -/
theorem walk_onward {links : Nat} {xs : List String} (dir : c.entryAt? base = some .dir)
    (run : walk c .target links here xs = .ok base) : ∃ left, ∀ d aim ys, PartOf c d → aim ≠ .output →
      ys ≠ [] → walk d aim links here (xs ++ ys) = walk d aim left base ys := by
  -- the induction is on the links that may be followed, and then on the steps
  have main (j : Place → List String → Except DiskError Place)
      (J : Disk → Aim → Place → List String → Except DiskError Place) (links : Nat)
      (hj : ∀ here xs, j here xs = .ok base → ∃ left, ∀ d aim ys, PartOf c d → aim ≠ .output → ys ≠ [] →
        J d aim here (xs ++ ys) = walk d aim left base ys)
      (own : ∀ d aim ys, walkWith (J d aim) d aim base ys = walk d aim links base ys) :
      ∀ here xs, walkWith j c .target here xs = .ok base → ∃ left, ∀ d aim ys, PartOf c d →
        aim ≠ .output → ys ≠ [] → walkWith (J d aim) d aim here (xs ++ ys) = walk d aim left base ys := by
    intro here xs run
    induction xs generalizing here with
    | nil =>
      obtain rfl := Except.ok.inj run
      exact ⟨links, fun d aim ys _ _ _ => own d aim ys⟩
    | cons s ss ih =>
      by_cases idle : s = "." ∨ s = ""
      · simp only [List.cons_append, walkWith_of_idle idle] at run ⊢
        exact ih here run
      by_cases up : s = ".."
      · rw [walkWith, if_neg idle, if_pos up] at run
        simp only [List.cons_append, walkWith, if_neg idle, if_pos up]
        exact ih _ run
      · obtain ⟨short, next⟩ := (walkWith_cons_eq_ok_dir_iff dir idle up).1 run
        have first (d : Disk) (aim : Aim) (ys : List String) (ne : aim ≠ .output) (some_ : ys ≠ []) :
            (d.entryAt? (here ++ [s]) = some .dir → walkWith (J d aim) d aim here (s :: ss ++ ys) =
              walkWith (J d aim) d aim (here ++ [s]) (ss ++ ys)) ∧
            ∀ text, d.entryAt? (here ++ [s]) = some (.link text) →
              walkWith (J d aim) d aim here (s :: ss ++ ys) =
                J d aim (if Path.isAbsolute ⟨text⟩ then [] else here) (Disk.steps text ++ (ss ++ ys)) := by
          have more : ¬ ss ++ ys = [] := by simp [some_]
          rw [List.cons_append, walkWith, if_neg idle, if_neg up, if_neg fun h => ne h.1,
            if_neg (by omega)]
          dsimp only
          exact ⟨fun there => by rw [there], fun text there => by simp [there, more]⟩
        rcases next with ⟨there, next⟩ | ⟨text, there, next⟩
        · obtain ⟨left, on⟩ := ih _ next
          refine ⟨left, fun d aim ys part ne some_ => ?_⟩
          rw [(first d aim ys ne some_).1 (part _ _ there)]
          exact on d aim ys part ne some_
        · obtain ⟨left, on⟩ := hj _ _ next
          refine ⟨left, fun d aim ys part ne some_ => ?_⟩
          rw [(first d aim ys ne some_).2 text (part _ _ there), ← List.append_assoc]
          exact on d aim ys part ne some_
  induction links generalizing here xs with
  | zero =>
    exact main _ (fun _ _ _ _ => .error .tooManyLinks) 0 (by simp) (fun _ _ _ => rfl) here xs run
  | succ links ih =>
    exact main _ (fun d aim => walk d aim links) (links + 1) (fun _ _ run => ih run)
      (fun _ _ _ => rfl) here xs run

theorem NamesLead.unique {q : Place} (h : d.NamesLead names place) (h' : d.NamesLead names q) :
    place = q :=
  Except.ok.inj (h.1.symm.trans h'.1)

/-- What has nothing inside a directory is there however the inside changes. -/
theorem PartOf.agree (part : PartOf c d) (outer : ∀ q, base <+: q → q ≠ base → c.entryAt? q = none)
    (dir : d.entryAt? base = some .dir) (agree : AgreeOutside base d e) : PartOf c e := by
  intro q entry there
  by_cases below : base <+: q
  · by_cases same : q = base
    · subst same
      exact agree.dir.trans (dir.symm.trans (part _ _ there))
    · simp [outer q below same] at there
  · exact (agree.same q below).trans (part q entry there)

namespace Freestanding

variable (free : Freestanding names d) (way : OnWay names d names base)

include free way

/-- What is passed on the way to the directory is not inside it. -/
theorem eq_of_below {front : List String} (hf : front <+: names) (paved : Paved names d e)
    (lead : e.NamesLead front place) (below : base <+: place) : place = base := by
  obtain ⟨d₁, paved₁, lead₁⟩ := way
  obtain ⟨⟨c, sound, part, outer, leadc⟩, -⟩ := free d₁ base paved₁ lead₁
  obtain ⟨back, whole⟩ := hf
  obtain ⟨q, first, -⟩ := NamesLead.split sound (whole.symm ▸ leadc)
  have there : OnWay names d front q := ⟨d₁, paved₁, first.mono part⟩
  obtain rfl : q = place := there.unique ⟨e, paved, lead⟩
  by_contra ne
  have nothing := outer q below ne
  simp [first.2] at nothing

/-- The names lead to the directory whatever was changed inside it. -/
theorem namesLead {d₁ : Disk} (paved : Paved names d d₁) (lead : d₁.NamesLead names place)
    (agree : AgreeOutside place d₁ e) : place = base ∧ e.NamesLead names base := by
  obtain rfl : base = place := way.unique ⟨d₁, paved, lead⟩
  obtain ⟨⟨c, -, part, outer, leadc⟩, -⟩ := free d₁ base paved lead
  exact ⟨rfl, leadc.mono (part.agree outer lead.2 agree)⟩

end Freestanding

/-! #### Ways without links -/

/-- A walk to a directory that meets no links goes straight down there. -/
theorem dirs_of_walkWith {jump : Place → List String → Except DiskError Place}
    (dir : d.entryAt? place = some .dir) (isName : ∀ n ∈ steps, Path.IsName n)
    (plain : ∀ front text, front <+: steps → d.entryAt? (here ++ front) ≠ some (.link text))
    (run : walkWith jump d .target here steps = .ok place) :
    place = here ++ steps ∧ (∀ n ∈ steps, n.utf8ByteSize ≤ nameLimit) ∧
      ∀ front, front <+: steps → front ≠ [] → d.entryAt? (here ++ front) = some .dir := by
  induction steps generalizing here with
  | nil =>
    obtain rfl := Except.ok.inj run
    exact ⟨by simp, by simp, fun front begins some_ => absurd (List.prefix_nil.1 begins) some_⟩
  | cons s ss ih =>
    obtain ⟨name, isName⟩ := List.forall_mem_cons.1 isName
    have own : [s] <+: s :: ss := ⟨ss, rfl⟩
    rw [walkWith_cons_eq_ok_dir_iff dir (not_or.2 ⟨name.ne_here, name.ne_empty⟩) name.ne_up] at run
    obtain ⟨short, ⟨there, run⟩ | ⟨text, link, -⟩⟩ := run
    · obtain ⟨same, shorts, dirs⟩ := ih isName (fun front text begins => by
        simpa using plain (s :: front) text (List.cons_prefix_cons.2 ⟨rfl, begins⟩)) run
      refine ⟨by simpa using same, List.forall_mem_cons.2 ⟨short, shorts⟩, fun front begins some_ => ?_⟩
      obtain ⟨n, front, rfl⟩ := List.exists_cons_of_ne_nil some_
      obtain ⟨rfl, begins'⟩ := List.cons_prefix_cons.1 begins
      by_cases last : front = []
      · exact last ▸ there
      · simpa using dirs front begins' last
    · exact absurd link (plain [s] text own)

/-- Names lead straight down through directories. -/
theorem namesLead_of_dirs (isName : ∀ n ∈ names, Path.IsName n)
    (short : ∀ n ∈ names, n.utf8ByteSize ≤ nameLimit)
    (dirs : ∀ front, front <+: names → d.entryAt? front = some .dir) : d.NamesLead names names := by
  induction names using List.reverseRecOn with
  | nil => exact ⟨rfl, entryAt?_nil d⟩
  | append_singleton front n ih =>
    have here : n ∈ front ++ [n] := by simp
    refine (ih (fun n hn => isName n (by simp [hn])) (fun n hn => short n (by simp [hn]))
      fun front' begins => dirs front' (begins.trans (List.prefix_append _ _))).concat
      (isName n here) (short n here) (dirs _ (List.prefix_refl _))

/-- A disk with the directories on a way and nothing else. -/
theorem exists_way (isName : ∀ n ∈ names, Path.IsName n) : ∃ c : Disk, c.Sound ∧
    ∀ q entry, c.entryAt? q = some entry ↔ entry = .dir ∧ q <+: names := by
  induction names using List.reverseRecOn with
  | nil =>
    refine ⟨⟨[]⟩, ⟨by simp, by simp, by simp⟩, fun q entry => ?_⟩
    cases q with
    | nil => simp [eq_comm]
    | cons n q => simp [entryAt?_eq_lookup]
  | append_singleton front n ih =>
    obtain ⟨c, sound, entries⟩ := ih fun n hn => isName n (by simp [hn])
    have some_ : front ++ [n] ≠ [] := by simp
    have missing : c.entryAt? (front ++ [n]) ≠ some .dir := by
      rw [ne_eq, entries]
      rintro ⟨-, begins⟩
      have length := begins.length_le
      rw [List.length_append, List.length_singleton] at length
      omega
    refine ⟨c.put (front ++ [n]) .dir, sound.put isName missing ?_, fun q entry => ?_⟩
    · rw [List.dropLast_concat, entries]
      exact ⟨rfl, List.prefix_refl _⟩
    · rw [entryAt?_put some_, List.prefix_concat_iff]
      split
      case isTrue same => simp [same, eq_comm]
      case isFalse other => rw [entries, or_iff_right other]

/-- A directory on whose way are neither links nor `..` is found without what is inside it. -/
theorem Freestanding.of_plain (sound : d.Sound) (isName : ∀ n ∈ names, Path.IsName n)
    (plain : ∀ front text, front <+: names → d.entryAt? front ≠ some (.link text)) :
    Freestanding names d := by
  intro d₁ base paved lead
  obtain ⟨rfl, short, dirs⟩ : base = names ∧ (∀ n ∈ names, n.utf8ByteSize ≤ nameLimit) ∧
      ∀ front, front <+: names → front ≠ [] → d₁.entryAt? front = some .dir := by
    refine dirs_of_walkWith lead.2 isName ?_ lead.1
    intro front text begins link
    exact plain front text begins (paved.of_ne_dir (by simp) link)
  constructor
  · obtain ⟨c, sound', entries⟩ := exists_way isName
    refine ⟨c, sound', fun q entry there => ?_, fun q below ne => ?_, ?_⟩
    · obtain ⟨rfl, begins⟩ := (entries q entry).1 there
      by_cases top : q = []
      · exact top ▸ entryAt?_nil d₁
      · exact dirs q begins top
    · cases there : c.entryAt? q with
      | none => rfl
      | some entry =>
        obtain ⟨-, begins⟩ := (entries q entry).1 there
        exact absurd (below.eq_of_length_le begins.length_le).symm ne
    · exact namesLead_of_dirs isName short fun front begins => (entries front .dir).2 ⟨rfl, begins⟩
  · refine (paved base).imp (fun same => ?_) fun missing => missing.1
    refine namesLead_of_dirs isName short fun front ⟨back, whole⟩ => ?_
    have there : d.entryAt? (front ++ back) = some .dir := whole.symm ▸ same.symm.trans lead.2
    by_cases nil : back = []
    · simpa [nil] using there
    · exact sound.dir_of_prefix nil there

/-! ### Single changes -/

/-- What a change does that is made for names below a directory, by where these can lead. -/
inductive Changed (L : String → String → Prop) (base : Place) (names : List String)
    (text? : Option String) (d : Disk) : Disk → Prop
  /-- A directory is made on the way to the directory. -/
  | way {place : Place} (missing : d.entryAt? place = none) (outer : base <+: place → place = base) :
      Changed L base names text? d (d.put place .dir)
  | dir {front ms : List String} {last : String} (begins : front ++ [last] <+: names)
      (via : Via L front ms) (missing : d.entryAt? (base ++ ms ++ [last]) = none) :
      Changed L base names text? d (d.put (base ++ ms ++ [last]) .dir)
  | file {ms : List String} (via : Via L names ms) (plain : ∀ text, d.entryAt? (base ++ ms) ≠ some (.link text))
      (ne : d.entryAt? (base ++ ms) ≠ some .dir) (bytes : ByteArray) :
      Changed L base names text? d (d.put (base ++ ms) (.file bytes))
  | gone {front ms : List String} {last : String} (whole : names = front ++ [last]) (via : Via L front ms)
      (linked : text?.isSome) (ne : d.entryAt? (base ++ ms ++ [last]) ≠ some .dir) :
      Changed L base names text? d (d.remove (base ++ ms ++ [last]))
  | link {front ms : List String} {last text : String} (whole : names = front ++ [last])
      (via : Via L front ms) (linked : text? = some text)
      (missing : d.entryAt? (base ++ ms ++ [last]) = none) :
      Changed L base names text? d (d.put (base ++ ms ++ [last]) (.link text))

theorem properSteps_of_sublist {front : List String} {p : Path} (sub : front.Sublist p.names) :
    properSteps front = front := by
  refine List.filter_eq_self.2 fun n hn => ?_
  have proper : properSteps p.names = p.names := properSteps_steps p ▸ properSteps_properSteps _
  exact List.filter_eq_self.1 proper n (sub.subset hn)

theorem Edit.changed {b q : Path} (hop : OneHop L) (free : Freestanding b.names d)
    (way : OnWay b.names d b.names base) (kept : Kept b.names d e) (linked : LinkedBelow L base e)
    (relative : q.isAbsolute = false) (noUp : ".." ∉ q.names.dropLast)
    (named : text?.isSome → q.names ≠ []) (edit : Edit (b / q) text? e e') :
    Changed L base q.names text? e e' := by
  have names : (b / q).names = b.names ++ q.names := Path.names_div_relative relative
  have sound := kept.sound
  -- where names of the path lead that go on below the directory
  have inside {mid : List String} {last : String} {above : Place} (lead : e.NamesLead b.names base)
      (begins : mid ++ [last] <+: q.names) (there : e.NamesLead (b.names ++ mid) above) :
      ∃ ms, above = base ++ ms ∧ Via L mid ms := by
    obtain ⟨base', first, left, onward⟩ := there.split sound
    obtain rfl := lead.unique first
    have proper : properSteps mid = mid :=
      properSteps_of_sublist ((List.prefix_append mid [last]).trans begins).sublist
    have reached := walk_via hop linked (List.prefix_refl _) lead.2
      (proper.symm ▸ up_notMem_of_isPrefix begins noUp) onward
    rwa [proper] at reached
  have own {dots : DiskError} {place : Place} (some_ : q.names ≠ []) (slot : e.slot dots (b / q) = .ok place) :
      ∃ mid last above, q.names = mid ++ [last] ∧ e.NamesLead (b.names ++ mid) above ∧
        place = above ++ [last] := by
    obtain ⟨front, last, above, ends, -, -, lead, rfl⟩ := exists_of_slot sound slot
    obtain ⟨mid, last', ends'⟩ := (List.eq_nil_or_concat' q.names).resolve_left some_
    rw [names, ends', ← List.append_assoc] at ends
    obtain ⟨rfl, rfl⟩ := List.append_singleton_inj.1 ends
    exact ⟨mid, last', above, ends', lead, rfl⟩
  cases kept with
  | before sound paved nowhere =>
    have nowhere' {mid : List String} {above : Place} : ¬ e.NamesLead (b.names ++ mid) above :=
      fun lead => by
        obtain ⟨base, first, -⟩ := lead.split sound
        exact nowhere base first
    cases edit with
    | dir makes =>
      obtain ⟨begins, slot, missing⟩ := makes
      obtain ⟨front, last, above, ends, name, short, lead, rfl⟩ := exists_of_slot sound slot
      rw [ends, names] at begins
      rcases prefix_append_cases begins with within | ⟨mid, rfl, -⟩
      · refine .way missing (free.eq_of_below way within (paved.put within lead name short missing) ?_)
        have some_ : above ++ [last] ≠ [] := by simp
        have keeps : ∀ q entry, e.entryAt? q = some entry →
            (e.put (above ++ [last]) .dir).entryAt? q = some entry := by
          intro q entry there
          rw [entryAt?_put_of_ne some_]
          · exact there
          · rintro rfl
            simp [missing] at there
        exact (lead.mono keeps).concat name short (entryAt?_put_self some_)
      · exact absurd lead nowhere'
    | file bytes there =>
      obtain ⟨base, lead, -⟩ := exists_of_placeToWrite sound relative there
      exact absurd lead (nowhere base)
    | gone made slot =>
      obtain ⟨mid, last, above, -, lead, -⟩ := own (named made) slot
      exact absurd lead nowhere'
    | link made slot =>
      obtain ⟨mid, last, above, -, lead, -⟩ := own (named (made ▸ rfl)) slot
      exact absurd lead nowhere'
  | @since d₁ place sound sound₁ paved lead₁ bare agree =>
    obtain ⟨rfl, lead⟩ := free.namesLead way paved lead₁ agree
    cases edit with
    | dir makes =>
      obtain ⟨begins, slot, missing⟩ := makes
      obtain ⟨front, last, above, ends, name, short, there, rfl⟩ := exists_of_slot sound slot
      rw [ends, names] at begins
      rcases prefix_append_cases begins with within | ⟨mid, rfl, beyond⟩
      · -- nothing is missing on a way that leads there
        obtain ⟨back, whole⟩ := within
        obtain ⟨q, first, -⟩ := NamesLead.split sound (whole.symm ▸ lead)
        obtain ⟨above', first', left, onward⟩ := first.split sound
        obtain rfl := there.unique first'
        have proper : ¬(last = "." ∨ last = "") := not_or.2 ⟨name.ne_here, name.ne_empty⟩
        have onward : ∃ jump, walkWith jump e .target above [last] = .ok q := by
          cases left <;> exact ⟨_, onward⟩
        obtain ⟨jump, onward⟩ := onward
        rw [walkWith_cons_eq_ok_dir_iff first.2 proper name.ne_up, missing] at onward
        simp at onward
      · obtain ⟨ms, rfl, via⟩ := inside lead beyond there
        exact .dir beyond via missing
    | file bytes there =>
      obtain ⟨base', first, ne, left, onward⟩ := exists_of_placeToWrite sound relative there
      obtain rfl := lead.unique first
      have guarded : e.Guarded fun _ => False := ⟨sound, fun _ _ _ _ _ => id⟩
      obtain ⟨-, -, plain⟩ := slot_of_placeToWrite guarded (fun _ _ => id) there
      have noUp : ".." ∉ q.names := fun up => by
        obtain ⟨front, last, ends⟩ := (List.eq_nil_or_concat' q.names).resolve_left (List.ne_nil_of_mem up)
        rw [ends, List.dropLast_concat] at noUp
        obtain rfl : ".." = last := by simpa [ends, noUp] using up
        exact ne (dir_of_walk_up sound lead.2 (by rw [properSteps_steps, ends, List.getLast?_concat]) onward)
      obtain ⟨ms, rfl, via⟩ := walk_via hop linked (List.prefix_refl _) lead.2
        (by rwa [properSteps_steps]) onward
      rw [properSteps_steps] at via
      exact .file via plain ne bytes
    | gone made slot there ne =>
      obtain ⟨mid, last, above, whole, there', rfl⟩ := own (named made) slot
      obtain ⟨ms, rfl, via⟩ := inside lead ⟨[], (List.append_nil _).trans whole.symm⟩ there'
      exact .gone whole via made fun dir => ne (Option.some.inj (there.symm.trans dir))
    | link made slot missing =>
      obtain ⟨mid, last, above, whole, there, rfl⟩ := own (named (made ▸ rfl)) slot
      obtain ⟨ms, rfl, via⟩ := inside lead ⟨[], (List.append_nil _).trans whole.symm⟩ there
      exact .link whole via made missing

/-! ### What changes elsewhere keep -/

/-- Whether no change for names is made where others can lead, which end in `last`. -/
def Away (L : String → String → Prop) (above : List String) (last : String) (names : List String) :
    Prop :=
  ∀ ms, Via L above ms →
    (∀ front, front ++ [last] <+: names → ¬ Via L front ms) ∧ ¬ Via L names (ms ++ [last])

/-- What is done for the directory above a path is done away from it. -/
theorem away_above (L : String → String → Prop) (above : List String) (last : String) :
    Away L above last above := by
  intro ms via
  have level := via.length_eq
  refine ⟨fun front begins via' => ?_, fun via' => ?_⟩
  · have shorter := begins.length_le
    rw [List.length_append, List.length_singleton, ← via'.length_eq] at shorter
    omega
  · have longer := via'.length_eq
    rw [List.length_append, List.length_singleton] at longer
    omega

/-- What is kept by changes away from a path below a directory: whatever is where the path can lead,
and the links on the way there. -/
structure Untouched (L : String → String → Prop) (base : Place) (above : List String) (last : String)
    (d e : Disk) : Prop where
  linked : LinkedBelow L base e
  slot : ∀ ms, Via L above ms → e.entryAt? (base ++ ms ++ [last]) = d.entryAt? (base ++ ms ++ [last])
  link : ∀ q n text, base <+: q → above[q.length - base.length]? = some n →
    (e.entryAt? (q ++ [n]) = some (.link text) ↔ d.entryAt? (q ++ [n]) = some (.link text))

theorem Untouched.changed (h : Untouched L base above last d e) (away : Away L above last names)
    (made : ∀ text ∈ text?, ∀ n ∈ names.getLast?, L n text)
    (beside : text?.isSome → ∀ front n, names = front ++ [n] → above[front.length]? ≠ some n)
    (changed : Changed L base names text? e e') : Untouched L base above last d e' := by
  -- what takes the place of no link, and is none, makes no difference to links
  have links {place q : Place} {entry : Entry} (ne : place ≠ []) (text : String)
      (before : e.entryAt? place ≠ some (.link text)) (after : entry ≠ .link text) :
      (e.put place entry).entryAt? q = some (.link text) ↔ e.entryAt? q = some (.link text) := by
    rw [entryAt?_put ne]
    split
    case isTrue same => exact iff_of_false (by simpa using after) (same ▸ before)
    case isFalse => exact Iff.rfl
  have quiet {place : Place} {entry : Entry} (ne : place ≠ [])
      (before : ∀ text, e.entryAt? place ≠ some (.link text)) (after : ∀ text, entry ≠ .link text)
      (other : ∀ ms, Via L above ms → base ++ ms ++ [last] ≠ place) :
      Untouched L base above last d (e.put place entry) := by
    refine ⟨fun q n text below link => ?_, fun ms via => ?_, fun q n text below onWay => ?_⟩
    · exact h.linked q n text below ((links ne text (before text) (after text)).1 link)
    · rw [entryAt?_put_of_ne ne (other ms via)]
      exact h.slot ms via
    · rw [links ne text (before text) (after text)]
      exact h.link q n text below onWay
  have apart {front ms ms' : List String} {n : String} (begins : front ++ [n] <+: names)
      (via : Via L front ms') (via' : Via L above ms) : base ++ ms ++ [last] ≠ base ++ ms' ++ [n] := by
    intro same
    obtain ⟨above, rfl⟩ := List.append_singleton_inj.1 same
    obtain rfl := List.append_cancel_left above
    exact (away ms via').1 front begins via
  have passed {front ms : List String} {n m : String} {q : Place} (linked : text?.isSome)
      (whole : names = front ++ [n]) (via : Via L front ms)
      (onWay : above[q.length - base.length]? = some m) : q ++ [m] ≠ base ++ ms ++ [n] := by
    intro same
    obtain ⟨rfl, rfl⟩ := List.append_singleton_inj.1 same
    rw [List.length_append, Nat.add_sub_cancel_left, via.length_eq] at onWay
    exact beside linked front m whole onWay
  cases changed with
  | @way place missing outer =>
    refine quiet (by rintro rfl; simp at missing) (by simp [missing]) (by simp) fun ms _ same => ?_
    have lengths := congrArg List.length (outer (same ▸ by simp))
    rw [← same] at lengths
    simp at lengths
  | @dir front ms n begins via missing =>
    refine quiet (by simp) (fun text link => ?_) (by simp) fun ms' via' => apart begins via via'
    rw [missing] at link
    simp at link
  | @file ms via plain ne bytes =>
    refine quiet ?_ plain (by simp) fun ms' via' same => ?_
    · intro nil
      simp [nil] at ne
    · rw [List.append_assoc] at same
      obtain rfl := List.append_cancel_left same
      exact (away ms' via').2 via
  | @gone front ms n whole via linked ne =>
    have some_ : base ++ ms ++ [n] ≠ [] := by simp
    refine ⟨fun q m text below link => ?_, fun ms' via' => ?_, fun q m text below onWay => ?_⟩
    · rw [entryAt?_remove some_] at link
      split at link
      · simp at link
      · exact h.linked q m text below link
    · rw [entryAt?_remove some_, if_neg (apart (whole ▸ List.prefix_refl names) via via')]
      exact h.slot ms' via'
    · rw [entryAt?_remove some_, if_neg (passed linked whole via onWay)]
      exact h.link q m text below onWay
  | @link front ms n text whole via linked missing =>
    have some_ : base ++ ms ++ [n] ≠ [] := by simp
    refine ⟨fun q m text' below there => ?_, fun ms' via' => ?_, fun q m text' below onWay => ?_⟩
    · rw [entryAt?_put some_] at there
      split at there
      case isTrue same =>
        obtain ⟨-, rfl⟩ := List.append_singleton_inj.1 same
        obtain rfl := Entry.link.inj (Option.some.inj there)
        exact made _ linked _ (by rw [whole, List.getLast?_concat]; rfl)
      case isFalse => exact h.linked q m text' below there
    · rw [entryAt?_put_of_ne some_ (apart (whole ▸ List.prefix_refl names) via via')]
      exact h.slot ms' via'
    · rw [entryAt?_put_of_ne some_ (passed (linked ▸ rfl) whole via onWay)]
      exact h.link q m text' below onWay

/-! ### What a path names -/

/-- Where a path with a name at its end leads to by the names before. -/
theorem walk_front_iff {p : Path} (ends : p.EndsIn last) (whole : p.names = names ++ [last]) :
    ∃ front, Disk.steps p.text = front ++ [last] ∧
      (p.segments.filter (· ≠ [])).map String.ofList = front ++ [last] ∧
      ∀ {d : Disk} {q : Place}, d.entryAt? q = some .dir →
        (walk d .target linkLimit [] front = .ok q ↔ d.NamesLead names q) := by
  obtain ⟨front, listed, steps_⟩ := ends.exists_steps
  obtain ⟨-, -, ne, ne'⟩ := ends
  have same : properSteps front = names := by
    have all := properSteps_steps p
    rw [steps_, whole, properSteps_append] at all
    exact List.append_inj_left' all (by simp [properSteps, ne, ne'])
  refine ⟨front, steps_, listed, fun dir => ?_⟩
  rw [walk_properSteps_iff dir, same]
  exact ⟨fun run => ⟨run, dir⟩, And.left⟩

/-- Looking up an entry ends in the directory that the names above its last one lead to. -/
theorem lstat_eq_ok_iff (sound : d.Sound) {p : Path} (ends : p.EndsIn last) (ne_up : last ≠ "..")
    (whole : p.names = names ++ [last]) {entry : Entry} : d.lstat p = .ok entry ↔
      checkPath p = .ok () ∧ last.utf8ByteSize ≤ nameLimit ∧
        ∃ q, d.NamesLead names q ∧ d.entryAt? (q ++ [last]) = some entry := by
  obtain ⟨front, steps_, -, lead⟩ := walk_front_iff ends whole
  obtain ⟨-, -, ne, ne'⟩ := ends
  -- a link at the end is the entry that is looked for
  have final (left : Nat) (q : Place) : walk d .entry left q [last] =
      if last.utf8ByteSize ≤ nameLimit then .ok (q ++ [last]) else .error .nameTooLong := by
    have one (jump : Place → List String → Except DiskError Place) :
        walkWith jump d .entry q [last] =
          if last.utf8ByteSize ≤ nameLimit then .ok (q ++ [last]) else .error .nameTooLong := by
      rw [walkWith, if_neg (not_or.2 ⟨ne', ne⟩), if_neg ne_up, if_neg (by simp)]
      by_cases short : last.utf8ByteSize ≤ nameLimit
      · rw [if_neg (by omega), if_pos short]
        dsimp only
        split <;> simp [walkWith]
      · rw [if_pos (by omega), if_neg short]
    cases left <;> exact one _
  have walked : d.lstat p = .ok entry ↔ checkPath p = .ok () ∧
      ∃ place, walk d .entry linkLimit [] (front ++ [last]) = .ok place ∧ d.entryAt? place = some entry := by
    have there (place : Place) : d.entryThere place = .ok entry ↔ d.entryAt? place = some entry := by
      rw [entryThere]
      cases d.entryAt? place <;> simp
    rw [lstat, bind_eq_ok_iff]
    simp only [locate, steps_, bind_eq_ok_iff, there]
    constructor
    · rintro ⟨place, ⟨⟨⟩, check, run⟩, found⟩
      exact ⟨check, place, run, found⟩
    · rintro ⟨check, place, run, found⟩
      exact ⟨place, ⟨⟨⟩, check, run⟩, found⟩
  rw [walked]
  refine and_congr_right fun _ => ⟨?_, ?_⟩
  · rintro ⟨place, run, found⟩
    obtain ⟨q, first, dir, left, rest⟩ := walk_split sound (by simp) (entryAt?_nil d) run
    rw [final] at rest
    split at rest
    case isTrue short =>
      obtain rfl := Except.ok.inj rest
      exact ⟨short, q, (lead dir).1 first, found⟩
    case isFalse => simp at rest
  · rintro ⟨short, q, there, found⟩
    obtain ⟨left, onward⟩ := walk_onward there.2 ((lead there.2).2 there)
    refine ⟨q ++ [last], ?_, found⟩
    rw [onward d .entry [last] (fun _ _ => id) (by simp) (by simp), final, if_pos short]

/-- The slot of a path is in the directory that the names above its last one lead to. -/
theorem slot_iff (sound : d.Sound) {p : Path} (ends : p.EndsIn last) (ne_up : last ≠ "..")
    (whole : p.names = names ++ [last]) {dots : DiskError} : d.slot dots p = .ok place ↔
      checkPath p = .ok () ∧ last.utf8ByteSize ≤ nameLimit ∧
        ∃ q, d.NamesLead names q ∧ place = q ++ [last] := by
  obtain ⟨front, -, listed, lead⟩ := walk_front_iff ends whole
  obtain ⟨-, -, ne, ne'⟩ := ends
  have proper : ¬(last = "." ∨ last = "..") := not_or.2 ⟨ne', ne_up⟩
  have opened (q : Place) :
      walk d .target linkLimit [] (front ++ [""]) = .ok q ↔ d.NamesLead names q := by
    have idle : properSteps (front ++ [""]) = properSteps front := by simp [properSteps]
    constructor
    · intro run
      have dir := walk_idle sound (.inr rfl) (entryAt?_nil d) run
      rw [walk_properSteps_iff dir, idle, ← walk_properSteps_iff dir] at run
      exact (lead dir).1 run
    · intro there
      rw [walk_properSteps_iff there.2, idle, ← walk_properSteps_iff there.2]
      exact (lead there.2).2 there
  simp only [slot, listed, List.getLast?_concat, List.dropLast_concat, bind_eq_ok_iff]
  constructor
  · rintro ⟨⟨⟩, check, q, run, rest⟩
    rw [if_neg proper] at rest
    by_cases short : last.utf8ByteSize ≤ nameLimit
    · rw [if_neg (by omega)] at rest
      exact ⟨check, short, q, (opened q).1 run, (Except.ok.inj rest).symm⟩
    · rw [if_pos (by omega)] at rest
      cases rest
  · rintro ⟨check, short, q, there, rfl⟩
    refine ⟨⟨⟩, check, q, (opened q).2 there, ?_⟩
    rw [if_neg proper, if_neg (by omega)]
    rfl

/-- Whether steps are names of a way, but for a first one that no link has. -/
def Tracks (L : String → String → Prop) (way steps : List String) : Prop :=
  steps = way ∨ ∃ n text rest, way = n :: rest ∧ steps = text :: rest ∧ ∀ l, ¬ L text l

theorem Tracks.cons {way ss : List String} {s : String} (h : Tracks L way (s :: ss)) :
    (∃ n, way = n :: ss) ∧ ((∃ l, L s l) → way = s :: ss) := by
  rcases h with rfl | ⟨n, text, rest, rfl, same, unlinked⟩
  · exact ⟨⟨s, rfl⟩, fun _ => rfl⟩
  · obtain ⟨rfl, rfl⟩ := List.cons.inj same
    exact ⟨⟨n, rfl⟩, fun ⟨l, kind⟩ => absurd kind (unlinked l)⟩

/-- Below a directory names lead to a directory on each disk that has it and the links on the way. -/
theorem walk_transfer (hop : OneHop L) (linked : LinkedBelow L base d) (sound : e.Sound)
    (dir' : d.entryAt? place = some .dir) (there : e.entryAt? place = some .dir) {way : List String}
    (links : ∀ q n text, base <+: q → way[q.length - base.length]? = some n →
      d.entryAt? (q ++ [n]) = some (.link text) → e.entryAt? (q ++ [n]) = some (.link text))
    {left : Nat} (below : base <+: here) (dir : d.entryAt? here = some .dir)
    (noUp : ".." ∉ properSteps steps)
    (tracks : Tracks L (way.drop (here.length - base.length)) (properSteps steps))
    (run : walk d .target left here steps = .ok place) : walk e .target left here steps = .ok place := by
  -- the induction is on the links that may be followed, and then on the steps
  have main (j j' : Place → List String → Except DiskError Place)
      (reach : ∀ here steps, base <+: here → d.entryAt? here = some .dir → ".." ∉ properSteps steps →
        j here steps = .ok place → ∃ ms, place = here ++ ms ∧ Via L (properSteps steps) ms)
      (hj : ∀ here steps, base <+: here → d.entryAt? here = some .dir → ".." ∉ properSteps steps →
        Tracks L (way.drop (here.length - base.length)) (properSteps steps) →
        j here steps = .ok place → j' here steps = .ok place) :
      ∀ here steps, base <+: here → d.entryAt? here = some .dir → ".." ∉ properSteps steps →
        Tracks L (way.drop (here.length - base.length)) (properSteps steps) →
        walkWith j d .target here steps = .ok place → walkWith j' e .target here steps = .ok place := by
    intro here steps below dir noUp tracks run
    induction steps generalizing here with
    | nil => exact run
    | cons s ss ih =>
      by_cases idle : s = "." ∨ s = ""
      · rw [walkWith_of_idle idle] at run ⊢
        rw [properSteps_of_idle idle] at noUp tracks
        exact ih here below dir noUp tracks run
      rw [properSteps_of_proper idle] at noUp tracks
      rw [List.mem_cons, not_or] at noUp
      obtain ⟨⟨n, onward⟩, own⟩ := tracks.cons
      have deeper : base <+: here ++ [s] := below.trans (List.prefix_append _ _)
      have next : way.drop ((here ++ [s]).length - base.length) = properSteps ss := by
        have level : (here ++ [s]).length - base.length = here.length - base.length + 1 := by
          have length := below.length_le
          simp only [List.length_append, List.length_singleton]
          omega
        rw [level, ← List.drop_drop, onward, List.drop_one, List.tail_cons]
      rw [walkWith_cons_eq_ok_dir_iff dir' idle (Ne.symm noUp.1)] at run
      rw [walkWith_cons_eq_ok_dir_iff there idle (Ne.symm noUp.1)]
      refine ⟨run.1, run.2.imp (fun ⟨next', run⟩ => ⟨?_, ih _ deeper next' noUp.2 (.inl next.symm) run⟩)
        fun ⟨text, link, run⟩ => ⟨text, ?_, ?_⟩⟩
      · obtain ⟨ms', whole', -⟩ := walkWith_via hop linked
          (fun here steps below dir noUp run => reach here steps below dir noUp run) deeper next' noUp.2 run
        subst whole'
        by_cases last : ms' = []
        · simpa [last] using there
        · exact sound.dir_of_prefix last there
      · refine links here s text below ?_ link
        rw [← List.head?_drop, own ⟨text, linked here s text below link⟩, List.head?_cons]
      · have kind := linked here s text below link
        have name := hop.isName kind
        have proper : ¬(text = "." ∨ text = "") := not_or.2 ⟨name.ne_here, name.ne_empty⟩
        rw [if_neg (by simp [name.not_isAbsolute])] at run ⊢
        refine hj here _ below dir ?_ ?_ run
        · rw [steps_of_isName name, List.singleton_append, properSteps_of_proper proper]
          simpa [name.ne_up.symm] using noUp.2
        · -- the text stands where the name of the link stood
          rw [steps_of_isName name, List.singleton_append, properSteps_of_proper proper]
          exact .inr ⟨s, text, _, own ⟨text, kind⟩, rfl, fun l => hop.stop kind⟩
  induction left generalizing here steps with
  | zero => exact main _ _ (by simp) (by simp) here steps below dir noUp tracks run
  | succ left ih =>
    exact main _ _ (fun here steps below dir noUp => walk_via hop linked below dir noUp)
      (fun here steps below dir noUp tracks => ih below dir noUp tracks) here steps below dir noUp tracks run

/-- Names that go on below a directory lead on each disk to where they lead on one, if the directory is
found on account of what both have, and that place and the links above it are there. -/
theorem NamesLead.transfer {front : List String} {q : Place} (hop : OneHop L)
    (linked : LinkedBelow L base d) (sound : e.Sound) (lead : c.NamesLead names base) (part : PartOf c d) (part' : PartOf c e) (proper : properSteps front = front) (noUp : ".." ∉ front)
    (there : d.NamesLead (names ++ front) q) (dir : e.entryAt? q = some .dir)
    (links : ∀ r n text, base <+: r → front[r.length - base.length]? = some n →
      d.entryAt? (r ++ [n]) = some (.link text) → e.entryAt? (r ++ [n]) = some (.link text)) :
    e.NamesLead (names ++ front) q := by
  refine ⟨?_, dir⟩
  by_cases nil : front = []
  · subst nil
    rw [List.append_nil] at there ⊢
    rw [there.unique (lead.mono part)]
    exact (lead.mono part').1
  · obtain ⟨left, onward⟩ := walk_onward lead.2 lead.1
    have run := there.1
    rw [onward d .target front part (by simp) nil] at run
    rw [onward e .target front part' (by simp) nil]
    exact walk_transfer hop linked sound there.2 dir links (List.prefix_refl _) (part _ _ lead.2)
      (proper.symm ▸ noUp) (.inl (by simpa using proper)) run

/-- The names of a directory lead to it on account of what is outside, however the inside changed. -/
theorem Freestanding.leadsFromOutside (free : Freestanding names d) (way : OnWay names d names base)
    (kept : Kept names d e) (lead : e.NamesLead names place) :
    place = base ∧ e.LeadsFromOutside names base := by
  cases kept with
  | before _ _ nowhere => exact absurd lead (nowhere place)
  | @since d₁ _ _ _ paved lead₁ _ agree =>
    obtain ⟨rfl, lead'⟩ := free.namesLead way paved lead₁ agree
    obtain ⟨⟨c, sound, part, outer, leadc⟩, -⟩ := free d₁ _ paved lead₁
    exact ⟨lead.unique lead', c, sound, part.agree outer lead₁.2 agree, outer, leadc⟩

section Entry

variable {b q : Path}

/-- A path away from which all changes were names the entry that it named before. -/
theorem Untouched.lstat_iff (h : Untouched L base above last d e) (hop : OneHop L)
    (free : Freestanding b.names d) (way : OnWay b.names d b.names base) (sound : d.Sound)
    (kept : Kept b.names d e) (linked : LinkedBelow L base d) (relative : q.isAbsolute = false)
    (noUp : ".." ∉ q.names) (whole : q.names = above ++ [last]) (ends : q.EndsIn last) {entry : Entry} :
    e.lstat (b / q) = .ok entry ↔ d.lstat (b / q) = .ok entry := by
  have whole_ : (b / q).names = b.names ++ above ++ [last] := by
    rw [Path.names_div_relative relative, whole, List.append_assoc]
  rw [whole, List.mem_append, not_or] at noUp
  have proper : properSteps above = above :=
    properSteps_of_sublist (whole ▸ List.sublist_append_left above [last])
  have ne_up : last ≠ ".." := fun up => noUp.2 (by simp [up])
  rw [lstat_eq_ok_iff kept.sound (ends.under b) ne_up whole_,
    lstat_eq_ok_iff sound (ends.under b) ne_up whole_]
  refine and_congr_right fun _ => and_congr_right fun _ => ?_
  -- what either disk has at the end of the path is where the names can lead
  have reach {d : Disk} {r : Place} (sound : d.Sound) (linked : LinkedBelow L base d)
      (lead : d.NamesLead b.names base) (there : d.NamesLead (b.names ++ above) r) :
      ∃ ms, r = base ++ ms ∧ Via L above ms := by
    obtain ⟨base', first, left, onward⟩ := there.split sound
    obtain rfl := lead.unique first
    have run := walk_via hop linked (List.prefix_refl _) lead.2 (proper.symm ▸ noUp.1) onward
    rwa [proper] at run
  have common (lead : d.NamesLead b.names base) :
      ∃ c, c.NamesLead b.names base ∧ PartOf c d ∧ PartOf c e := by
    obtain ⟨⟨c, -, part, outer, leadc⟩, -⟩ := free d base (.refl _ _) lead
    refine ⟨c, leadc, part, ?_⟩
    cases kept with
    | before _ paved nowhere => exact absurd (lead.mono fun _ _ => paved.keeps) (nowhere base)
    | @since d₁ place _ _ paved lead₁ _ agree =>
      obtain ⟨rfl, -⟩ := free.namesLead way paved lead₁ agree
      exact PartOf.agree (fun q entry there => paved.keeps (part q entry there)) outer lead₁.2 agree
  constructor
  · rintro ⟨r, there, found⟩
    obtain ⟨base', first, -⟩ := there.split kept.sound
    obtain ⟨rfl, -⟩ := free.leadsFromOutside way kept first
    obtain ⟨ms, rfl, via⟩ := reach kept.sound h.linked first there
    rw [h.slot ms via] at found
    have dir := sound.dir_of_entry found
    have lead : d.NamesLead b.names base' := by
      obtain ⟨d₁, paved, lead₁⟩ := way
      refine (free d₁ base' paved lead₁).2.resolve_right fun missing => ?_
      have there : d.entryAt? base' = some .dir := by
        by_cases nil : ms = []
        · simpa [nil] using dir
        · exact sound.dir_of_prefix nil dir
      simp [missing] at there
    obtain ⟨c, leadc, part, part'⟩ := common lead
    refine ⟨_, leadc.transfer hop h.linked sound part' part proper noUp.1 there dir ?_, found⟩
    exact fun r n text below onWay => (h.link r n text below onWay).1
  · rintro ⟨r, there, found⟩
    obtain ⟨base', first, -⟩ := there.split sound
    obtain rfl := way.unique ⟨d, .refl _ _, first⟩
    obtain ⟨c, leadc, part, part'⟩ := common first
    obtain ⟨ms, rfl, via⟩ := reach sound linked first there
    rw [← h.slot ms via] at found
    have dir := kept.sound.dir_of_entry found
    refine ⟨_, leadc.transfer hop linked kept.sound part part' proper noUp.1 there dir ?_, found⟩
    exact fun r n text below onWay => (h.link r n text below onWay).2

/-- Where what is at the end of a path was removed, its slot is still there. -/
theorem slot_of_remove (hop : OneHop L) (free : Freestanding b.names d)
    (way : OnWay b.names d b.names base) (kept : Kept b.names d e) (linked : LinkedBelow L base e)
    (relative : q.isAbsolute = false) (noUp : ".." ∉ q.names) (whole : q.names = above ++ [last])
    (ends : q.EndsIn last) {dots dots' : DiskError} (slot : e.slot dots (b / q) = .ok place)
    (ne : e.entryAt? place ≠ some .dir) : (e.remove place).slot dots' (b / q) = .ok place := by
  have whole_ : (b / q).names = b.names ++ above ++ [last] := by
    rw [Path.names_div_relative relative, whole, List.append_assoc]
  rw [whole, List.mem_append, not_or] at noUp
  have proper : properSteps above = above :=
    properSteps_of_sublist (whole ▸ List.sublist_append_left above [last])
  have ne_up : last ≠ ".." := fun up => noUp.2 (by simp [up])
  obtain ⟨check, short, r, there, rfl⟩ := (slot_iff kept.sound (ends.under b) ne_up whole_).1 slot
  have sound' : (e.remove (r ++ [last])).Sound := kept.sound.filter_ne ne
  refine (slot_iff sound' (ends.under b) ne_up whole_).2 ⟨check, short, r, ?_, rfl⟩
  obtain ⟨base', first, left, onward⟩ := there.split kept.sound
  obtain ⟨rfl, c, -, part, outer, leadc⟩ := free.leadsFromOutside way kept first
  have run := walk_via hop linked (List.prefix_refl _) first.2 (proper.symm ▸ noUp.1) onward
  rw [proper] at run
  obtain ⟨ms, rfl, via⟩ := run
  have some_ : base' ++ ms ++ [last] ≠ [] := by simp
  have keeps {s : Place} (other : s ≠ base' ++ ms ++ [last]) :
      (e.remove (base' ++ ms ++ [last])).entryAt? s = e.entryAt? s := by
    rw [entryAt?_remove some_, if_neg other]
  refine leadc.transfer hop linked sound' part (fun s entry found => ?_) proper noUp.1 there ?_ ?_
  · rw [keeps]
    · exact part s entry found
    · rintro rfl
      rw [outer _ (by simp) (by simp)] at found
      simp at found
  · rw [keeps (by simp)]
    exact there.2
  · intro s n text below onWay link
    rw [keeps]
    · exact link
    · intro same
      obtain ⟨level, -⟩ := List.getElem?_eq_some_iff.1 onWay
      have lengths := congrArg List.length same
      simp only [List.length_append, List.length_singleton, via.length_eq] at lengths
      omega

end Entry

end Disk
end FlatModules
