import FlatModules.Disk.Files
import FlatModules.Proofs.Disk.Entries
import FlatModules.Proofs.Path.Names

/-!
# Disks — lookup

Where names lead from a directory when no link is on the way (`follow`), the places passed
(`trail`), and the lookup of a path in these terms.  A path that ends in a name is found exactly if
it `Fits` and its trail is of directories (`locate_eq`); a link at its end is followed once
(`Lands`).
-/

namespace FlatModules

open Text

/-- The place that a name leads to from a directory, `..` to the one above. -/
def Place.step (here : Place) (name : String) : Place :=
  if name = ".." then here.dropLast else here ++ [name]

/-- The place that names lead to from a directory. -/
def Place.follow (here : Place) (names : List String) : Place :=
  names.foldl Place.step here

/-- The places that names pass from a directory on, the last included. -/
def Place.trail : Place → List String → List Place
  | _, [] => []
  | here, name :: names => here.step name :: Place.trail (here.step name) names

namespace Place

@[simp] theorem follow_nil (here : Place) : here.follow [] = here := rfl

@[simp] theorem follow_append (here : Place) (ns ms : List String) :
    here.follow (ns ++ ms) = (here.follow ns).follow ms := by
  simp [follow]

theorem step_of_ne {here : Place} {name : String} (h : name ≠ "..") :
    here.step name = here ++ [name] := if_neg h

/-- Names without `..` are written after the place that they start from. -/
theorem follow_of_noUp {names : List String} (h : ".." ∉ names) (here : Place) :
    here.follow names = here ++ names := by
  induction names generalizing here with
  | nil => simp
  | cons n ns ih =>
    rw [List.mem_cons, not_or] at h
    change (here.step n).follow ns = _
    rw [ih h.2, step_of_ne (Ne.symm h.1), List.append_assoc, List.singleton_append]

@[simp] theorem trail_nil (here : Place) : here.trail [] = [] := rfl

@[simp] theorem trail_append (here : Place) (ns ms : List String) :
    here.trail (ns ++ ms) = here.trail ns ++ (here.follow ns).trail ms := by
  induction ns generalizing here with
  | nil => rfl
  | cons n ns ih => simp [trail, follow, ih]

theorem mem_trail_of_noUp {names : List String} (h : ".." ∉ names) {here q : Place} :
    q ∈ here.trail names ↔ ∃ front, front ≠ [] ∧ front <+: names ∧ q = here ++ front := by
  induction names generalizing here with
  | nil => simp [and_comm]
  | cons n ns ih =>
    rw [List.mem_cons, not_or] at h
    rw [trail, List.mem_cons, ih h.2, step_of_ne (Ne.symm h.1)]
    constructor
    · rintro (rfl | ⟨front, -, hf, rfl⟩)
      · exact ⟨[n], by simp, by simp, rfl⟩
      · exact ⟨n :: front, by simp, by simpa using hf, by simp⟩
    · rintro ⟨front, hne, hf, rfl⟩
      obtain ⟨m, front, rfl⟩ := List.exists_cons_of_ne_nil hne
      obtain ⟨rfl, rest⟩ := List.cons_prefix_cons.1 hf
      by_cases nil : front = []
      · exact .inl (by simp [nil])
      · exact .inr ⟨front, nil, rest, by simp⟩

theorem follow_mem_trail {here : Place} {names : List String} (h : names ≠ []) :
    here.follow names ∈ here.trail names := by
  induction names generalizing here with
  | nil => exact absurd rfl h
  | cons n ns ih =>
    by_cases nil : ns = []
    · simp [nil, trail, follow]
    · exact List.mem_cons_of_mem _ (ih nil)

end Place

/-- A path that operations take, of names that entries can have. -/
structure Path.Fits (p : Path) : Prop where
  check : Disk.checkPath p = .ok ()
  short : ∀ n ∈ p.names, n.utf8ByteSize ≤ Disk.nameLimit

/-- A name that is short enough below a path that fits makes one that fits. -/
theorem Path.Fits.div {p : Path} {name : String} (h : p.Fits) (isName : IsName name)
    (noZero : '\x00' ∉ name.toList) (len : p.text.utf8ByteSize + 1 + name.utf8ByteSize ≤ Disk.pathLimit)
    (short : name.utf8ByteSize ≤ Disk.nameLimit) : (p / ⟨name⟩).Fits := by
  have zero : '\x00' ∉ p.text.toList := by
    intro mem
    have check := h.check
    simp [Disk.checkPath, Disk.checkSpelling, mem, bind, Except.bind] at check
  have front : '\x00' ∉ p.front.toList ∧ p.front.utf8ByteSize ≤ p.text.utf8ByteSize + 1 := by
    unfold Path.front
    split
    · exact ⟨zero, Nat.le_succ _⟩
    · refine ⟨by simpa using zero, ?_⟩
      rw [String.utf8ByteSize_append]
      exact Nat.le_refl _
  have text : (p / ⟨name⟩).text = p.front ++ name := by rw [div_eq isName]
  refine ⟨?_, fun n hn => ?_⟩
  · have spelled : Disk.checkSpelling (p / ⟨name⟩) = .ok () := by
      rw [Disk.checkSpelling, text, if_neg (by simpa using ⟨front.1, noZero⟩), if_neg]
      simp [isName.ne_empty]
    have long : ¬ (p / ⟨name⟩).text.utf8ByteSize > Disk.pathLimit := by
      rw [text, String.utf8ByteSize_append]
      omega
    rw [Disk.checkPath, spelled]
    simp [bind, Except.bind, pure, Except.pure, long]
  · rw [names_div isName] at hn
    exact (List.mem_append.1 hn).elim (h.short n) fun hn => List.mem_singleton.1 hn ▸ short

namespace Disk

/-- Follows names through directories alone. -/
def enter (d : Disk) : Place → List String → Except DiskError Place
  | here, [] => .ok here
  | here, name :: names =>
    if name = ".." then enter d here.dropLast names
    else if name.utf8ByteSize > nameLimit then .error .nameTooLong
    else match d.entryAt? (here ++ [name]) with
      | some .dir => enter d (here ++ [name]) names
      | none => .error .notFound
      | _ => .error .notDirectory

/-- Whether no link is at any of the places. -/
def NoLinks (d : Disk) (places : List Place) : Prop :=
  ∀ q ∈ places, ∀ text, d.entryAt? q ≠ some (.link text)

/-- Whether there are directories at all of the places. -/
def Dirs (d : Disk) (places : List Place) : Prop :=
  ∀ q ∈ places, d.entryAt? q = some .dir

theorem Dirs.noLinks {d : Disk} {places : List Place} (h : d.Dirs places) : d.NoLinks places := by
  intro q hq text e
  simp [h q hq] at e

variable {d : Disk}

theorem Sound.dir_dropLast (h : d.Sound) {here : Place} (hh : d.entryAt? here = some .dir) :
    d.entryAt? here.dropLast = some .dir := by
  obtain rfl | ⟨front, last, rfl⟩ := here.eq_nil_or_concat'
  · rfl
  · rw [List.dropLast_concat]
    exact h.dir_of_entry hh

/-- Names are followed exactly if they are short and pass directories. -/
theorem enter_eq_ok_iff (h : d.Sound) {here place : Place} (hh : d.entryAt? here = some .dir)
    {names : List String} :
    d.enter here names = .ok place ↔
      place = here.follow names ∧ (∀ n ∈ names, n.utf8ByteSize ≤ nameLimit) ∧
        d.Dirs (here.trail names) := by
  induction names generalizing here with
  | nil => simp [enter, Dirs, eq_comm]
  | cons n ns ih =>
    have next : here.follow (n :: ns) = (here.step n).follow ns := rfl
    unfold enter
    by_cases up : n = ".."
    · have dir := h.dir_dropLast hh
      have short : ("..").utf8ByteSize ≤ nameLimit := by decide
      subst up
      rw [if_pos rfl, ih dir, next, Place.step, if_pos rfl]
      simp [Place.trail, Place.step, Dirs, dir, short]
    · rw [if_neg up, next, Place.step_of_ne up]
      by_cases long : n.utf8ByteSize > nameLimit
      · have not_short : ¬ n.utf8ByteSize ≤ nameLimit := by omega
        simp [long, not_short]
      · rw [if_neg long]
        have short : n.utf8ByteSize ≤ nameLimit := by omega
        cases e : d.entryAt? (here ++ [n]) with
        | none => simp [Place.trail, Place.step_of_ne up, Dirs, e]
        | some entry =>
          cases entry with
          | dir => simp [Place.trail, Place.step_of_ne up, Dirs, e, ih e, short]
          | file bytes => simp [Place.trail, Place.step_of_ne up, Dirs, e]
          | link text => simp [Place.trail, Place.step_of_ne up, Dirs, e]

/-! ### Walking -/

variable {jump : Place → List String → Except DiskError Place} {aim : Aim}

/-- The steps that lead on. -/
def properSteps (steps : List String) : List String :=
  steps.filter fun s => s ≠ "" ∧ s ≠ "."

theorem walkWith_of_idle {step : String} (h : step = "." ∨ step = "") (here : Place)
    (rest : List String) :
    walkWith jump d aim here (step :: rest) = walkWith jump d aim here rest := by
  rw [walkWith, if_pos h]

theorem properSteps_of_idle {step : String} (h : step = "." ∨ step = "") (rest : List String) :
    properSteps (step :: rest) = properSteps rest := by
  rcases h with rfl | rfl <;> simp [properSteps]

theorem properSteps_of_proper {step : String} (h : ¬(step = "." ∨ step = "")) (rest : List String) :
    properSteps (step :: rest) = step :: properSteps rest := by
  rw [not_or] at h
  simp [properSteps, h]

/-- The last step of a walk, from a directory. -/
def finish (jump : Place → List String → Except DiskError Place) (d : Disk) (aim : Aim)
    (here : Place) (last : String) : Except DiskError Place :=
  if last.utf8ByteSize > nameLimit then .error .nameTooLong
  else match d.entryAt? (here ++ [last]) with
    | some (.link text) =>
      if aim = .entry then .ok (here ++ [last])
      else jump (if Path.isAbsolute ⟨text⟩ then [] else here) (steps text)
    | _ => .ok (here ++ [last])

/-- A walk to a name is its last step from where the steps before lead. -/
theorem walkWith_concat {last : String} (hl : last ≠ "" ∧ last ≠ "." ∧ last ≠ "..") {here : Place}
    {steps : List String} (hn : d.NoLinks (here.trail (properSteps steps))) :
    walkWith jump d aim here (steps ++ [last]) =
      d.enter here (properSteps steps) >>= fun above => finish jump d aim above last := by
  induction steps generalizing here with
  | nil =>
    have proper : ¬(last = "." ∨ last = "") := not_or.2 ⟨hl.2.1, hl.1⟩
    change walkWith jump d aim here [last] = finish jump d aim here last
    rw [walkWith, if_neg proper, if_neg hl.2.2, if_neg (by simp), finish]
    split
    · rfl
    · dsimp only
      split <;> simp [*, walkWith]
  | cons s ss ih =>
    rw [List.cons_append]
    by_cases idle : s = "." ∨ s = ""
    · rw [properSteps_of_idle idle] at hn ⊢
      rw [walkWith_of_idle idle, ih hn]
    · rw [properSteps_of_proper idle] at hn ⊢
      have tail : d.NoLinks ((here.step s).trail (properSteps ss)) :=
        fun q hq => hn q (List.mem_cons_of_mem _ hq)
      have more : ss ++ [last] ≠ [] ∧ ss ++ [last] ≠ [""] := by
        refine ⟨by simp, fun e => hl.1 ?_⟩
        have := congrArg List.getLast? e
        simpa using this
      rw [walkWith, if_neg idle, enter]
      by_cases up : s = ".."
      · rw [Place.step, if_pos up] at tail
        rw [if_pos up, if_pos up, ih tail]
      · rw [Place.step_of_ne up] at tail
        rw [if_neg up, if_neg up, if_neg (fun h => more.2 h.2)]
        split
        · rfl
        · dsimp only
          have here_ := hn (here ++ [s]) (by simp [Place.trail, Place.step_of_ne up])
          cases e : d.entryAt? (here ++ [s]) with
          | none => simp [more.1]; rfl
          | some entry =>
            cases entry with
            | dir => simp only [ih tail]
            | file bytes => simp [more.1]; rfl
            | link text => exact absurd e (here_ text)

/-- A walk that must end at a directory follows the names. -/
theorem walkWith_dir (ha : aim ≠ .output) {here : Place} {steps : List String}
    (hn : d.NoLinks (here.trail (properSteps steps))) :
    walkWith jump d aim here (steps ++ [""]) = d.enter here (properSteps steps) := by
  induction steps generalizing here with
  | nil => rfl
  | cons s ss ih =>
    rw [List.cons_append]
    by_cases idle : s = "." ∨ s = ""
    · rw [properSteps_of_idle idle] at hn ⊢
      rw [walkWith_of_idle idle, ih hn]
    · rw [properSteps_of_proper idle] at hn ⊢
      have tail : d.NoLinks ((here.step s).trail (properSteps ss)) :=
        fun q hq => hn q (List.mem_cons_of_mem _ hq)
      rw [walkWith, if_neg idle, enter]
      by_cases up : s = ".."
      · rw [Place.step, if_pos up] at tail
        rw [if_pos up, if_pos up, ih tail]
      · rw [Place.step_of_ne up] at tail
        rw [if_neg up, if_neg up, if_neg (fun h => ha h.1)]
        split
        · rfl
        · dsimp only
          have here_ := hn (here ++ [s]) (by simp [Place.trail, Place.step_of_ne up])
          cases e : d.entryAt? (here ++ [s]) with
          | none => simp
          | some entry =>
            cases entry with
            | dir => simp only [ih tail]
            | file bytes => simp
            | link text => exact absurd e (here_ text)

/-! ### Paths -/

theorem properSteps_segments (p : Path) :
    properSteps ((p.segments.filter (· ≠ [])).map String.ofList) = p.names := by
  rw [properSteps, Path.names, Path.namesOf, List.filter_map, List.filter_filter]
  congr 1
  refine List.filter_congr fun s _ => ?_
  have empty : String.ofList s = "" ↔ s = [] := by simp
  have dot : String.ofList s = "." ↔ s = ['.'] := by
    rw [← String.toList_inj, String.toList_ofList]
    rfl
  simp only [Function.comp_apply, empty, dot, ne_eq, decide_not, Bool.decide_and]
  by_cases h : s = [] <;> simp [h]

theorem properSteps_steps (p : Path) : properSteps (steps p.text) = p.names := by
  have kept := properSteps_segments p
  unfold steps
  dsimp only
  split
  · rw [properSteps, List.filter_append]
    exact (List.append_nil _).trans kept
  · exact kept

/-- A path that ends in a name, with no link before that. -/
structure Leads (d : Disk) (p : Path) (above : List String) (last : String) : Prop where
  ends : p.EndsIn last
  names : p.names = above ++ [last]
  ne_up : last ≠ ".."
  noLinks : d.NoLinks (Place.trail [] above)

/-- Where writing at a place ends up: there, or beside it through one link. -/
inductive Lands (d : Disk) : Place → Place → Prop
  | here {place} (h : ∀ text, d.entryAt? place ≠ some (.link text)) : d.Lands place place
  | beside {above name text} (h : d.entryAt? (above ++ [name]) = some (.link text))
      (hn : Path.IsName text) (short : text.utf8ByteSize ≤ nameLimit)
      (end_ : ∀ text', d.entryAt? (above ++ [text]) ≠ some (.link text')) :
      d.Lands (above ++ [name]) (above ++ [text])

theorem steps_of_isName {name : String} (h : Path.IsName name) : steps name = [name] := by
  have cut : cutAt (· == '/') name.toList = [name.toList] :=
    cutAt_of_notMem fun c hc => beq_false_of_ne fun e => h.noSlash (e ▸ hc)
  simp [steps, cut, h.ne_nil]

theorem walk_linkLimit (d : Disk) (aim : Aim) :
    walk d aim linkLimit = walkWith (walk d aim 39) d aim := rfl

theorem finish_of_lands {above : Place} {last : String} {goal : Place} (ha : aim ≠ .entry)
    (h : d.Lands (above ++ [last]) goal) :
    finish (walk d aim 39) d aim above last =
      if last.utf8ByteSize > nameLimit then .error .nameTooLong else .ok goal := by
  have still {jump : Place → List String → Except DiskError Place} {here : Place} {name : String}
      (h : ∀ text, d.entryAt? (here ++ [name]) ≠ some (.link text)) :
      finish jump d aim here name =
        if name.utf8ByteSize > nameLimit then .error .nameTooLong else .ok (here ++ [name]) := by
    unfold finish
    split
    · rfl
    · split
      · exact absurd ‹_› (h _)
      · rfl
  generalize e : above ++ [last] = place at h
  cases h with
  | here h =>
    subst e
    exact still h
  | @beside above' name text h hn short end_ =>
    obtain ⟨rfl, rfl⟩ : above = above' ∧ last = name := by simpa using e
    have proper : text ≠ "" ∧ text ≠ "." ∧ text ≠ ".." := ⟨hn.ne_empty, hn.ne_here, hn.ne_up⟩
    have walked : walk d aim 39 above [text] = .ok (above ++ [text]) := by
      change walkWith (walk d aim 38) d aim above ([] ++ [text]) = _
      rw [walkWith_concat proper (by simp [NoLinks, properSteps])]
      change finish _ d aim above text = _
      rw [still end_, if_neg (by omega)]
    unfold finish
    rw [h]
    simp only [ha, ↓reduceIte, hn.not_isAbsolute, Bool.false_eq_true, steps_of_isName hn, walked]

namespace Leads

variable {p : Path} {above : List String} {last : String}

theorem proper (h : d.Leads p above last) : last ≠ "" ∧ last ≠ "." ∧ last ≠ ".." := by
  obtain ⟨-, -, ne, ne'⟩ := h.ends
  exact ⟨ne, ne', h.ne_up⟩

theorem follow_names (h : d.Leads p above last) :
    Place.follow [] p.names = Place.follow [] above ++ [last] := by
  rw [h.names, Place.follow_append]
  exact Place.step_of_ne h.ne_up

theorem locate_eq (h : d.Leads p above last) (aim : Aim) :
    d.locate aim p = (checkPath p >>= fun _ =>
      d.enter [] above >>= fun here => finish (walk d aim 39) d aim here last) := by
  obtain ⟨front, -, steps_⟩ := h.ends.exists_steps
  have front_ : properSteps front = above := by
    have names := properSteps_steps p
    rw [steps_, h.names] at names
    simp only [properSteps, List.filter_append] at names ⊢
    refine List.append_inj_left' names ?_
    simp [h.proper]
  unfold locate
  rw [walk_linkLimit, steps_, walkWith_concat h.proper (front_ ▸ h.noLinks), front_]

theorem locate_eq_ok_iff_of_finish (h : d.Leads p above last) (sound : d.Sound) {aim : Aim}
    {goal q : Place} (ends : finish (walk d aim 39) d aim (Place.follow [] above) last =
      if last.utf8ByteSize > nameLimit then .error .nameTooLong else .ok goal) :
    d.locate aim p = .ok q ↔ q = goal ∧ p.Fits ∧ d.Dirs (Place.trail [] above) := by
  rw [h.locate_eq]
  constructor
  · intro e
    cases check : checkPath p with
    | error e' => simp [check, bind, Except.bind] at e
    | ok =>
      cases walked : d.enter [] above with
      | error e' => simp [check, walked, bind, Except.bind] at e
      | ok place =>
        obtain ⟨rfl, short, dirs⟩ := (enter_eq_ok_iff sound (entryAt?_nil d)).1 walked
        simp only [check, walked, bind, Except.bind, ends] at e
        split at e
        case isTrue => simp at e
        case isFalse last_ =>
          refine ⟨(Except.ok.inj e).symm, ⟨check, ?_⟩, dirs⟩
          rw [h.names]
          simp only [List.mem_append, List.mem_singleton]
          rintro n (hn | rfl)
          · exact short n hn
          · omega
  · rintro ⟨rfl, fits, dirs⟩
    have short := fits.short
    rw [h.names] at short
    have walked : d.enter [] above = .ok (Place.follow [] above) :=
      (enter_eq_ok_iff sound (entryAt?_nil d)).2 ⟨rfl, fun n hn => short n (List.mem_append_left _ hn), dirs⟩
    have last_ := short last (by simp)
    simp only [fits.check, walked, bind, Except.bind, ends]
    rw [if_neg (by omega)]

/-- A path is found exactly if it fits and everything on the way is a directory. -/
theorem locate_eq_ok_iff (h : d.Leads p above last) (sound : d.Sound) {aim : Aim}
    (ha : aim ≠ .entry) {goal q : Place} (lands : d.Lands (Place.follow [] p.names) goal) :
    d.locate aim p = .ok q ↔ q = goal ∧ p.Fits ∧ d.Dirs (Place.trail [] above) := by
  rw [h.follow_names] at lands
  exact h.locate_eq_ok_iff_of_finish sound (finish_of_lands ha lands)

/-- The same for the path of an entry, where a link at the end is not followed. -/
theorem locate_entry_eq_ok_iff (h : d.Leads p above last) (sound : d.Sound) {q : Place} :
    d.locate .entry p = .ok q ↔
      q = Place.follow [] p.names ∧ p.Fits ∧ d.Dirs (Place.trail [] above) := by
  rw [h.follow_names]
  refine h.locate_eq_ok_iff_of_finish sound ?_
  unfold finish
  split
  · rfl
  · split <;> rfl

/-- The bytes of a file can be read exactly if the path fits and the way is of directories. -/
theorem readBytes_eq_ok_iff (h : d.Leads p above last) (sound : d.Sound) {goal : Place}
    (lands : d.Lands (Place.follow [] p.names) goal) {bytes : ByteArray} :
    d.readBytes p = .ok bytes ↔
      p.Fits ∧ d.Dirs (Place.trail [] above) ∧ d.entryAt? goal = some (.file bytes) := by
  have located {q : Place} :=
    h.locate_eq_ok_iff (q := q) sound (show Aim.target ≠ .entry by decide) lands
  unfold readBytes stat entryThere
  cases e : d.locate .target p with
  | error e' =>
    simp only [bind, Except.bind, reduceCtorEq, false_iff]
    rintro ⟨fits, dirs, -⟩
    rw [e] at located
    exact absurd (located.2 ⟨rfl, fits, dirs⟩) (by simp)
  | ok q =>
    obtain ⟨rfl, fits, dirs⟩ := located.1 e
    simp only [bind, Except.bind, fits, dirs, true_and]
    cases e : d.entryAt? q with
    | none => simp
    | some entry => cases entry <;> simp [pure, Except.pure, throw, throwThe, MonadExceptOf.throw]

end Leads

theorem isFile_iff {p : Path} : d.isFile p = true ↔ ∃ bytes, d.readBytes p = .ok bytes := by
  unfold isFile readBytes
  cases d.stat p with
  | error e => simp [bind, Except.bind]
  | ok entry =>
    cases entry <;> simp [bind, Except.bind, pure, Except.pure, throw, throwThe,
      MonadExceptOf.throw]

/-- A walk ends at a directory exactly if the names can be followed. -/
theorem walkWith_eq_ok_dir_iff {j : Place → List String → Except DiskError Place}
    (sound : d.Sound) {here q : Place} {steps : List String}
    (hh : d.entryAt? here = some .dir) (hn : d.NoLinks (here.trail (properSteps steps))) :
    (walkWith j d .target here steps = .ok q ∧ d.entryAt? q = some .dir) ↔
      d.enter here (properSteps steps) = .ok q := by
  induction steps generalizing here with
  | nil =>
    simp only [walkWith, properSteps, List.filter_nil, enter, Except.ok.injEq]
    exact ⟨fun h => h.1, fun h => ⟨h, h ▸ hh⟩⟩
  | cons s ss ih =>
    by_cases idle : s = "." ∨ s = ""
    · rw [properSteps_of_idle idle] at hn ⊢
      rw [walkWith_of_idle idle, ih hh hn]
    · rw [properSteps_of_proper idle] at hn ⊢
      have tail : d.NoLinks ((here.step s).trail (properSteps ss)) :=
        fun q hq => hn q (List.mem_cons_of_mem _ hq)
      rw [walkWith, if_neg idle, enter]
      by_cases up : s = ".."
      · rw [Place.step, if_pos up] at tail
        rw [if_pos up, if_pos up, ih (sound.dir_dropLast hh) tail]
      · rw [Place.step_of_ne up] at tail
        rw [if_neg up, if_neg up, if_neg (by simp)]
        split
        · simp
        · dsimp only
          have here_ := hn (here ++ [s]) (by simp [Place.trail, Place.step_of_ne up])
          cases e : d.entryAt? (here ++ [s]) with
          | none =>
            simp only [reduceCtorEq, iff_false, not_and]
            split
            · rintro h
              rw [← Except.ok.inj h, e]
              simp
            · simp
          | some entry =>
            cases entry with
            | dir => exact ih e tail
            | file bytes =>
              simp only [reduceCtorEq, iff_false, not_and]
              split
              · rintro h
                rw [← Except.ok.inj h, e]
                simp
              · simp
            | link text => exact absurd e (here_ text)

/-- A path is one of a directory exactly if it fits and everything on the way is a directory. -/
theorem isDir_iff (sound : d.Sound) {p : Path} (hn : d.NoLinks (Place.trail [] p.names)) :
    d.isDir p = true ↔ p.Fits ∧ d.Dirs (Place.trail [] p.names) := by
  have walked {q : Place} := walkWith_eq_ok_dir_iff (j := walk d .target 39) sound (q := q)
    (entryAt?_nil d) (show d.NoLinks (Place.trail [] (properSteps (steps p.text))) by
      rwa [properSteps_steps])
  rw [properSteps_steps] at walked
  have stat_ : d.isDir p = true ↔ ∃ q, d.locate .target p = .ok q ∧ d.entryAt? q = some .dir := by
    unfold isDir stat entryThere
    cases d.locate .target p with
    | error e => simp [bind, Except.bind]
    | ok q =>
      simp only [bind, Except.bind, Except.ok.injEq, exists_eq_left']
      cases d.entryAt? q with
      | none => simp
      | some entry => cases entry <;> simp
  rw [stat_]
  unfold locate
  rw [walk_linkLimit]
  constructor
  · rintro ⟨q, e, dir⟩
    cases check : checkPath p with
    | error e' => simp [check, bind, Except.bind] at e
    | ok =>
      simp only [check, bind, Except.bind] at e
      obtain ⟨-, short, dirs⟩ := (enter_eq_ok_iff sound (entryAt?_nil d)).1 (walked.1 ⟨e, dir⟩)
      exact ⟨⟨check, short⟩, dirs⟩
  · rintro ⟨⟨check, short⟩, dirs⟩
    obtain ⟨e, dir⟩ := walked.2
      ((enter_eq_ok_iff sound (entryAt?_nil d)).2 ⟨rfl, short, dirs⟩)
    exact ⟨_, by simpa only [check, bind, Except.bind] using e, dir⟩

theorem locate_of_isDir (sound : d.Sound) {p : Path} (hn : d.NoLinks (Place.trail [] p.names))
    (h : d.isDir p = true) : d.locate .target p = .ok (Place.follow [] p.names) := by
  obtain ⟨⟨check, short⟩, dirs⟩ := (isDir_iff sound hn).1 h
  have walked := walkWith_eq_ok_dir_iff (j := walk d .target 39) sound (q := Place.follow [] p.names)
    (entryAt?_nil d) (show d.NoLinks (Place.trail [] (properSteps (steps p.text))) by
      rwa [properSteps_steps])
  rw [properSteps_steps] at walked
  obtain ⟨e, -⟩ := walked.2 ((enter_eq_ok_iff sound (entryAt?_nil d)).2 ⟨rfl, short, dirs⟩)
  unfold locate
  rw [walk_linkLimit]
  simpa only [check, bind, Except.bind] using e

end Disk
end FlatModules
