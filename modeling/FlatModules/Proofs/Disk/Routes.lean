import FlatModules.Proofs.Disk.Walk

/-!
# Disks — the way to a directory

Lookups that may follow links.  A lookup that ends at a directory does not depend on idle steps
(`walk_properSteps_iff`), and one that goes on from there does so whatever links led to it
(`walk_append`).  So a directory has one place however its path is spelled, and what is below it by
name is below that place (`place_eq_append`); where a path leads to a file, there is an entry of its
last name in the directory above (`exists_entry_of_isFile`).
-/

namespace FlatModules

open Text

namespace Disk

variable {d : Disk} {jump jump' : Place → List String → Except DiskError Place}

@[simp] theorem properSteps_append (xs ys : List String) :
    properSteps (xs ++ ys) = properSteps xs ++ properSteps ys := by
  simp [properSteps]

@[simp] theorem properSteps_properSteps (xs : List String) :
    properSteps (properSteps xs) = properSteps xs := by
  simp [properSteps]

theorem properSteps_of_isName {names : List String} (h : ∀ n ∈ names, Path.IsName n) :
    properSteps names = names :=
  List.filter_eq_self.2 fun n hn => by simpa using ⟨(h n hn).ne_empty, (h n hn).ne_here⟩

/-- Where a walk to a directory goes from its first name: through a directory or a link. -/
theorem walkWith_cons_eq_ok_dir_iff {q : Place} (dir : d.entryAt? q = some .dir) {here : Place}
    {step : String} (proper : ¬(step = "." ∨ step = "")) (ne_up : step ≠ "..")
    {rest : List String} :
    walkWith jump d .target here (step :: rest) = .ok q ↔ step.utf8ByteSize ≤ nameLimit ∧
      (d.entryAt? (here ++ [step]) = some .dir ∧
          walkWith jump d .target (here ++ [step]) rest = .ok q ∨
        ∃ text, d.entryAt? (here ++ [step]) = some (.link text) ∧
          jump (if Path.isAbsolute ⟨text⟩ then [] else here) (steps text ++ rest) = .ok q) := by
  -- what is no directory is not where the walk ends
  have ends {e : DiskError} (no : d.entryAt? (here ++ [step]) ≠ some .dir) :
      (if rest = [] then .ok (here ++ [step]) else .error e : Except DiskError Place) ≠ .ok q := by
    split
    · intro same
      exact no (Except.ok.inj same ▸ dir)
    · simp
  have no_output : ¬(Aim.target = .output ∧ rest = [""]) := by simp
  rw [walkWith, if_neg proper, if_neg ne_up, if_neg no_output]
  by_cases long : step.utf8ByteSize > nameLimit
  · rw [if_pos long]
    exact iff_of_false (by simp) fun h => by omega
  · rw [if_neg long]
    dsimp only
    have short : step.utf8ByteSize ≤ nameLimit := by omega
    cases e : d.entryAt? (here ++ [step]) with
    | none => simpa [short] using ends (by simp [e])
    | some entry =>
      cases entry with
      | dir => simp [short]
      | file bytes => simpa [short] using ends (by simp [e])
      | link text => simp [short]

/-- A walk to a directory passes over idle steps, if what it does at a link does. -/
theorem walkWith_properSteps_iff (jump : Place → List String → Except DiskError Place) {q : Place}
    (dir : d.entryAt? q = some .dir)
    (hj : ∀ here steps, jump here steps = .ok q ↔ jump here (properSteps steps) = .ok q)
    {here : Place} {steps : List String} :
    walkWith jump d .target here steps = .ok q ↔
      walkWith jump d .target here (properSteps steps) = .ok q := by
  induction steps generalizing here with
  | nil => rfl
  | cons s ss ih =>
    by_cases idle : s = "." ∨ s = ""
    · rw [properSteps_of_idle idle, walkWith_of_idle idle, ih]
    · rw [properSteps_of_proper idle]
      by_cases up : s = ".."
      · rw [walkWith, walkWith, if_neg idle, if_neg idle, if_pos up, if_pos up, ih]
      · have jump_ (here : Place) (text : String) : jump here (Disk.steps text ++ ss) = .ok q ↔
            jump here (Disk.steps text ++ properSteps ss) = .ok q := by
          rw [hj, hj _ (Disk.steps text ++ properSteps ss)]
          simp
        rw [walkWith_cons_eq_ok_dir_iff dir idle up, walkWith_cons_eq_ok_dir_iff dir idle up]
        simp only [ih, jump_]

theorem walk_properSteps_iff {q : Place} (dir : d.entryAt? q = some .dir) {links : Nat}
    {here : Place} {steps : List String} :
    walk d .target links here steps = .ok q ↔
      walk d .target links here (properSteps steps) = .ok q := by
  induction links generalizing here steps with
  | zero => exact walkWith_properSteps_iff (fun _ _ => _) dir fun _ _ => Iff.rfl
  | succ links ih => exact walkWith_properSteps_iff (walk d .target links) dir fun _ _ => ih

/-- A walk over some steps and then others, where the first lead to a directory by themselves:
whatever follows from going on there follows. -/
theorem walkWith_append {C : Prop} {p q : Place} {ys : List String}
    (dir : d.entryAt? q = some .dir) (base : walkWith jump d .target q ys = .ok p → C)
    (hj : ∀ here xs, jump here (xs ++ ys) = .ok p → jump' here xs = .ok q → C) {here : Place}
    {xs : List String} (whole : walkWith jump d .target here (xs ++ ys) = .ok p)
    (first : walkWith jump' d .target here xs = .ok q) : C := by
  induction xs generalizing here with
  | nil =>
    obtain rfl := Except.ok.inj first
    exact base whole
  | cons s ss ih =>
    rw [List.cons_append] at whole
    by_cases idle : s = "." ∨ s = ""
    · rw [walkWith_of_idle idle] at whole first
      exact ih whole first
    · by_cases up : s = ".."
      · rw [walkWith, if_neg idle, if_pos up] at whole first
        exact ih whole first
      · obtain ⟨short, ⟨here_, first⟩ | ⟨text, here_, first⟩⟩ :=
          (walkWith_cons_eq_ok_dir_iff dir idle up).1 first
        all_goals
          have not_long : ¬ s.utf8ByteSize > nameLimit := by omega
          have no_output : ¬(Aim.target = .output ∧ ss ++ ys = [""]) := by simp
          rw [walkWith, if_neg idle, if_neg up, if_neg no_output, if_neg not_long] at whole
          simp only [here_] at whole
        · exact ih whole first
        · simp only [reduceCtorEq, and_false, ↓reduceIte, ← List.append_assoc] at whole
          exact hj _ _ whole first

theorem walk_append {p q : Place} {ys : List String} (dir : d.entryAt? q = some .dir)
    {links links' : Nat} {here : Place} {xs : List String}
    (whole : walk d .target links here (xs ++ ys) = .ok p)
    (first : walk d .target links' here xs = .ok q) :
    ∃ left, walk d .target left q ys = .ok p := by
  induction links generalizing links' here xs with
  | zero =>
    have first' : ∃ jump', walkWith jump' d .target here xs = .ok q := by
      cases links' <;> exact ⟨_, first⟩
    obtain ⟨jump', first'⟩ := first'
    exact walkWith_append dir (fun h => ⟨0, h⟩) (fun _ _ h => by simp at h) whole first'
  | succ links ih =>
    cases links' with
    | zero =>
      exact walkWith_append dir (fun h => ⟨links + 1, h⟩) (fun _ _ _ h => by simp at h) whole first
    | succ links' =>
      exact walkWith_append dir (fun h => ⟨links + 1, h⟩) (fun _ _ => ih) whole first

/-- Whether a path leads to a directory at a place. -/
def DirAt (d : Disk) (p : Path) (place : Place) : Prop :=
  d.isDir p = true ∧ d.locate .target p = .ok place

theorem walk_of_locate {aim : Aim} {p : Path} {place : Place} (h : d.locate aim p = .ok place) :
    walk d aim linkLimit [] (steps p.text) = .ok place := by
  unfold locate at h
  cases check : checkPath p with
  | error e => simp [check, bind, Except.bind] at h
  | ok => simpa [check, bind, Except.bind] using h

namespace DirAt

variable {p q : Path} {place place' : Place}

theorem entryAt? (h : d.DirAt p place) : d.entryAt? place = some .dir := by
  obtain ⟨dir, located⟩ := h
  unfold isDir stat entryThere at dir
  rw [located] at dir
  cases e : d.entryAt? place with
  | none => simp [e, bind, Except.bind] at dir
  | some entry => cases entry <;> simp_all [bind, Except.bind]

theorem walk_names (h : d.DirAt p place) : walk d .target linkLimit [] p.names = .ok place := by
  rw [← properSteps_steps, ← walk_properSteps_iff h.entryAt?]
  exact walk_of_locate h.2

/-- A directory that names spell below another one is at these names below its place, if no link is
there. -/
theorem place_eq_append (sound : d.Sound) (hq : d.DirAt q place) (hp : d.DirAt p place')
    {rest : List String} (names : p.names = q.names ++ rest) (proper : ∀ n ∈ rest, Path.IsName n)
    (noLinks : d.NoLinks (place.trail rest)) : place' = place ++ rest := by
  have whole := hp.walk_names
  rw [names] at whole
  obtain ⟨left, onward⟩ := walk_append hq.entryAt? whole hq.walk_names
  have steps := properSteps_of_isName proper
  have entered : d.enter place (properSteps rest) = .ok place' := by
    have noLinks : d.NoLinks (place.trail (properSteps rest)) := steps.symm ▸ noLinks
    cases left <;>
      exact (walkWith_eq_ok_dir_iff sound hq.entryAt? noLinks).1 ⟨onward, hp.entryAt?⟩
  rw [steps] at entered
  have follow := ((enter_eq_ok_iff sound hq.entryAt?).1 entered).1
  rw [follow, Place.follow_of_noUp fun up => (proper _ up).ne_up rfl]

/-- A directory has one place, however it is spelled. -/
theorem place_eq (sound : d.Sound) (hq : d.DirAt q place) (hp : d.DirAt p place')
    (names : p.names = q.names) : place' = place := by
  have same := hq.place_eq_append sound hp (show _ = _ ++ [] by simpa using names) (by simp)
    (by simp [NoLinks])
  simpa using same

/-- What is a file by its path has an entry in the directory that it is in. -/
theorem exists_entry_of_isFile (hq : d.DirAt q place) {last : String} (ends : p.EndsIn last)
    (ne_up : last ≠ "..") (names : p.names = q.names ++ [last]) (h : d.isFile p = true) :
    ∃ entry, d.entryAt? (place ++ [last]) = some entry ∧ entry ≠ .dir := by
  obtain ⟨goal, located, bytes, there⟩ : ∃ goal, d.locate .target p = .ok goal ∧
      ∃ bytes, d.entryAt? goal = some (.file bytes) := by
    unfold isFile stat entryThere at h
    cases located : d.locate .target p with
    | error e => simp [located, bind, Except.bind] at h
    | ok goal =>
      cases e : d.entryAt? goal with
      | none => simp [located, e, bind, Except.bind] at h
      | some entry => cases entry <;> simp_all [bind, Except.bind]
  obtain ⟨front, -, steps_⟩ := ends.exists_steps
  have isName := ends.isName ne_up
  have front_ : properSteps front = q.names := by
    have all := properSteps_steps p
    have last_ : properSteps [last] = [last] := properSteps_of_isName (by simpa using isName)
    rw [steps_, names, properSteps_append, last_] at all
    exact List.append_cancel_right all
  have whole := walk_of_locate located
  rw [steps_] at whole
  have first : walk d .target linkLimit [] front = .ok place := by
    rw [walk_properSteps_iff hq.entryAt?, front_]
    exact hq.walk_names
  obtain ⟨left, onward⟩ := walk_append hq.entryAt? whole first
  have proper : ¬(last = "." ∨ last = "") := not_or.2 ⟨isName.ne_here, isName.ne_empty⟩
  have onward : ∃ jump, walkWith jump d .target place [last] = .ok goal := by
    cases left <;> exact ⟨_, onward⟩
  obtain ⟨jump, onward⟩ := onward
  rw [walkWith, if_neg proper, if_neg ne_up, if_neg (by simp)] at onward
  split at onward
  · simp at onward
  · dsimp only at onward
    cases e : d.entryAt? (place ++ [last]) with
    | none =>
      simp only [e, ↓reduceIte, Except.ok.injEq] at onward
      rw [← onward, e] at there
      simp at there
    | some entry =>
      refine ⟨entry, rfl, ?_⟩
      rintro rfl
      simp only [e, walkWith, Except.ok.injEq] at onward
      rw [← onward, e] at there
      simp at there

end DirAt

end Disk
end FlatModules
