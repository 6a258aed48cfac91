import FlatModules.Proofs.Build.Nested

/-!
# Build — whose failure it is

A failure is hard if it was made from the hard error of a rule or from a copy that failed
(`MadeHard`).  The engine tells such a failure by its target, which it has noted; in every world
that it comes to this is right of every failure that it kept (`Tracked`), though a failure may be the
outcome of many targets (`Blames`).  So a target that no rule builds, and of which there is no copy,
has the first hard failure among its declared dependencies for its outcome, and is reported as one
without a rule only if there is none (`hard_failure_surfaces`).
-/

namespace FlatModules

open Relation

namespace Local

variable {p : Project} {f : Failure} {outcomes outcomes' : List (Path × Outcome)}
  {q target : Path} {o : Outcome} {n : Nat} {w w₁ w₂ w' : World LocalState}

/-- A failure that was made for its target from the hard error of a rule, or from a copy that
failed. -/
inductive MadeHard (p : Project) : Failure → Prop
  | rule {n : Nat} {target : Path} {r : Rule} {stem : String} {e : RuleError}
      {w w₁ : World LocalState} (hs : r.product.stem? target = some stem)
      (run : (r.apply (contextOf p (buildWithin p n)) target).run w = some (.error e, w₁))
      (final : e.reason? = none) : MadeHard p ⟨w₁.nextFailure, target, r.name ++ ": " ++ e.message⟩
  | copy {id : Nat} {target : Path} {e : DiskError} {d d' : Disk}
      (isFile : d.isFile (p.root / target) = true)
      (copied : (do
        DiskM.makeParents (p.buildDir / target)
        DiskM.copy (p.root / target) (p.buildDir / target) : DiskM Unit).run.run d = (.error e, d')) :
      MadeHard p ⟨id, target, "failed to copy source: " ++ e.message⟩

/-- The wording of a hard failure names its cause behind a colon. -/
theorem MadeHard.colon_mem (h : MadeHard p f) : ':' ∈ f.message.toList := by
  cases h <;> simp

/-- A chain of targets that failed because of one another, all with the same failure, down to the
target that the failure was made for. -/
inductive Blames (p : Project) (outcomes : List (Path × Outcome)) (f : Failure) : Path → Prop
  | own {q : Path} (hard : MadeHard p f) (same : f.target.same q = true)
      (known : lookupPath? q outcomes = some (.error f)) : Blames p outcomes f q
  | dependency {q q' : Path} {r : Rule} {stem : String} {d : Pattern} (same : q'.same q = true)
      (known : lookupPath? q outcomes = some (.error f)) (hs : r.product.stem? q' = some stem)
      (hd : d ∈ r.dependencies) (rest : Blames p outcomes f (d.fill stem)) : Blames p outcomes f q

namespace Blames

theorem hard (h : Blames p outcomes f q) : MadeHard p f := by
  induction h with
  | own hard => exact hard
  | dependency _ _ _ _ _ ih => exact ih

theorem known (h : Blames p outcomes f q) : lookupPath? q outcomes = some (.error f) := by
  cases h with
  | own _ _ known => exact known
  | dependency _ known => exact known

theorem mono (kept : ∀ q o, lookupPath? q outcomes = some o → lookupPath? q outcomes' = some o)
    (h : Blames p outcomes f q) : Blames p outcomes' f q := by
  induction h with
  | own hard same known => exact .own hard same (kept _ _ known)
  | dependency same known hs hd _ ih => exact .dependency same (kept _ _ known) hs hd ih

end Blames

/-- What a world tells of an outcome that a request for a target came to. -/
inductive Told (p : Project) (w : World LocalState) (q : Path) : Outcome → Prop
  | built (path : Path) : Told p w q (.ok path)
  | hard {f : Failure} (blames : Blames p w.own.outcomes f q)
      (listed : listsPath f.target w.own.hard = true) : Told p w q (.error f)
  | missing {f : Failure} (message : f.message = "no rule to build target")
      (own : f.target.same q = true) (unlisted : listsPath f.target w.own.hard = false) :
      Told p w q (.error f)
  | cycle {f : Failure} (message : f.message = "dependency cycle") (own : f.target = q)
      (busy : listsPath q w.own.inProgress = true) : Told p w q (.error f)

/-- A world in which the targets that failed for a reason of their own are known, and so is of each
outcome that was kept whether it is such a failure. -/
structure Tracked (p : Project) (w : World LocalState) : Prop where
  hard : ∀ q, listsPath q w.own.hard = true → lookupPath? q w.own.outcomes ≠ none
  busy : ∀ q, listsPath q w.own.inProgress = true → lookupPath? q w.own.outcomes = none
  told : ∀ q o, lookupPath? q w.own.outcomes = some o → Told p w q o

/-- A hard failure that a request came to is some target's own. -/
theorem Told.blames (h : Told p w q (.error f)) (hard : MadeHard p f) : Blames p w.own.outcomes f q := by
  have colon := hard.colon_mem
  cases h with
  | hard blames => exact blames
  | missing message => exact absurd (message ▸ colon) (by decide)
  | cycle message => exact absurd (message ▸ colon) (by decide)

theorem Tracked.of_new (h : w.own = {}) : Tracked p w := by
  constructor <;> simp [h, listsPath, lookupPath?]

theorem Tracked.stable (p : Project) : Stable (Tracked p) := by
  intro u u' outcomes inProgress hard h
  constructor
  · rw [outcomes, hard]
    exact h.hard
  · rw [outcomes, inProgress]
    exact h.busy
  · intro q o known
    rw [outcomes] at known
    cases h.told q o known with
    | built => exact .built _
    | hard blames listed => exact .hard (outcomes ▸ blames) (hard ▸ listed)
    | missing message own unlisted => exact .missing message own (hard ▸ unlisted)
    | cycle message own busy => exact .cycle message own (inProgress ▸ busy)

namespace Tracked

variable (h : Tracked p w)
include h

theorem not_listed_of_busy (busy : listsPath q w.own.inProgress = true) :
    listsPath q w.own.hard = false := by
  rw [Bool.eq_false_iff]
  exact fun listed => h.hard q listed (h.busy q busy)

/-- The engine tells a hard failure by its target. -/
theorem listed_iff (told : Told p w q (.error f)) :
    listsPath f.target w.own.hard = true ↔ MadeHard p f := by
  have soft {message : String} (same : f.message = message) (plain : ':' ∉ message.toList)
      (unlisted : listsPath f.target w.own.hard = false) :
      listsPath f.target w.own.hard = true ↔ MadeHard p f := by
    refine ⟨fun listed => by simp [unlisted] at listed, fun hard => absurd hard.colon_mem ?_⟩
    rwa [same]
  cases told with
  | hard blames listed => exact ⟨fun _ => blames.hard, fun _ => listed⟩
  | missing message _ unlisted => exact soft message (by decide) unlisted
  | cycle message own busy => exact soft message (by decide) (own ▸ h.not_listed_of_busy busy)

end Tracked

/-! ### Targets that no rule builds -/

/-- Rules tried in turn for a target that none of them settles, with the failures, in order, of the
declared dependencies for which rules were skipped. -/
inductive Passed (p : Project) (build : Path → Step Outcome) (target : Path) :
    List Rule → World LocalState → List Failure → World LocalState → Prop
  | nil (w : World LocalState) : Passed p build target [] w [] w
  | other {r rest w failures w'} (hs : r.product.stem? target = none)
      (next : Passed p build target rest w failures w') :
      Passed p build target (r :: rest) w failures w'
  | skipped {r rest stem d w failure w₁ failures w'} (hs : r.product.stem? target = some stem)
      (hd : d ∈ r.dependencies) (missing : build (d.fill stem) w = some (.error failure, w₁))
      (next : Passed p build target rest w₁ failures w') :
      Passed p build target (r :: rest) w (failure :: failures) w'
  | left {r rest stem w outcomes w₁ signal w₂ failures w'} (hs : r.product.stem? target = some stem)
      (asked : (engineOf p build).build (r.dependencies.map fun d => [d.fill stem]) w =
        some (outcomes, w₁))
      (ready : firstError? outcomes = none)
      (left : (engineOf p build).dispatch target (r.apply (contextOf p build) target) w₁ =
        some (.error (.inapplicable signal), w₂))
      (next : Passed p build target rest w₂ failures w') :
      Passed p build target (r :: rest) w failures w'

/-- A hard failure that is the first in a list. -/
def FirstHard (p : Project) (failures : List Failure) (f : Failure) : Prop :=
  MadeHard p f ∧ ∃ before after, failures = before ++ f :: after ∧ ∀ g ∈ before, ¬ MadeHard p g

theorem FirstHard.unique {failures : List Failure} {g : Failure} (h : FirstHard p failures f)
    (h' : FirstHard p failures g) : f = g := by
  obtain ⟨hard, before, after, same, soft⟩ := h
  obtain ⟨hard', before', after', same', soft'⟩ := h'
  rw [same, List.append_eq_append_iff] at same'
  rcases same' with ⟨xs, rfl, rest⟩ | ⟨xs, rfl, rest⟩
  · cases xs with
    | nil => exact (List.cons.inj rest).1
    | cons x xs =>
      obtain rfl : f = x := (List.cons.inj rest).1
      exact absurd hard (soft' f (by simp))
  · cases xs with
    | nil => exact (List.cons.inj rest).1.symm
    | cons x xs =>
      obtain rfl : g = x := (List.cons.inj rest).1
      exact absurd hard' (soft g (by simp))

theorem FirstHard.append {failures more : List Failure} (h : FirstHard p failures f) :
    FirstHard p (failures ++ more) f := by
  obtain ⟨hard, before, after, rfl, soft⟩ := h
  exact ⟨hard, before, after ++ more, by simp, soft⟩

/-- The failure that stands in the way of a target after some declared dependencies failed. -/
inductive Blocked (p : Project) (target : Path) (w : World LocalState) (failures : List Failure) :
    Option Failure → Prop
  | free (soft : ∀ g ∈ failures, ¬ MadeHard p g) : Blocked p target w failures none
  | hard {f : Failure} {r : Rule} {stem : String} {d : Pattern} (first : FirstHard p failures f)
      (hs : r.product.stem? target = some stem) (hd : d ∈ r.dependencies)
      (blames : Blames p w.own.outcomes f (d.fill stem))
      (listed : listsPath f.target w.own.hard = true) : Blocked p target w failures (some f)

namespace Blocked

variable {failures : List Failure} {blocked : Option Failure}

theorem later (h : Blocked p target w failures blocked) (grown : Grown w w') :
    Blocked p target w' failures blocked := by
  cases h with
  | free soft => exact .free soft
  | hard first hs hd blames listed =>
    exact .hard first hs hd (blames.mono grown.outcomes) (grown.hard _ listed)

/-- A declared dependency that fails stands in the way if it is the first that fails hard. -/
theorem skip (h : Blocked p target w failures blocked) (tracked : Tracked p w) {r : Rule}
    {stem : String} {d : Pattern} (hs : r.product.stem? target = some stem) (hd : d ∈ r.dependencies)
    (told : Told p w (d.fill stem) (.error f)) :
    Blocked p target w (failures ++ [f])
      (if blocked.isNone ∧ listsPath f.target w.own.hard then some f else blocked) := by
  have iff := tracked.listed_iff told
  cases h with
  | hard first hs hd blames listed =>
    simp only [Option.isNone_some, Bool.false_eq_true, false_and, ↓reduceIte]
    exact .hard first.append hs hd blames listed
  | free soft =>
    by_cases listed : listsPath f.target w.own.hard = true
    · simp only [Option.isNone_none, listed, and_self, ↓reduceIte]
      have hard := iff.1 listed
      exact .hard ⟨hard, failures, [], rfl, soft⟩ hs hd (told.blames hard) listed
    · simp only [listed, Bool.false_eq_true, and_false, ↓reduceIte]
      refine .free fun g mem => ?_
      rcases List.mem_append.1 mem with mem | mem
      · exact soft g mem
      · obtain rfl := List.mem_singleton.1 mem
        exact fun hard => listed (iff.2 hard)

end Blocked

/-! ### The building of a target -/

/-- How the trying of rules ends: one of them settles the target, or none does. -/
inductive Ended (p : Project) (build : Path → Step Outcome) (target : Path) :
    List Rule → World LocalState → Outcome → World LocalState → Prop
  | built {front r rest stem w failures w₁ outcomes w₂ path w'}
      (passed : Passed p build target front w failures w₁) (hs : r.product.stem? target = some stem)
      (asked : (engineOf p build).build (r.dependencies.map fun d => [d.fill stem]) w₁ =
        some (outcomes, w₂))
      (built : (engineOf p build).dispatch target (r.apply (contextOf p build) target) w₂ =
        some (.ok path, w')) : Ended p build target (front ++ r :: rest) w (.ok path) w'
  | failed {front r rest stem w failures w₁ outcomes w₂ e w₃}
      (passed : Passed p build target front w failures w₁) (hs : r.product.stem? target = some stem)
      (asked : (engineOf p build).build (r.dependencies.map fun d => [d.fill stem]) w₁ =
        some (outcomes, w₂))
      (failed : (engineOf p build).dispatch target (r.apply (contextOf p build) target) w₂ =
        some (.error (.rule e), w₃)) :
      Ended p build target (front ++ r :: rest) w
        (.error ⟨w₃.nextFailure, target, r.name ++ ": " ++ e.message⟩) (hardened target w₃)
  | passed {rules w failures w₁ o w'} (passed : Passed p build target rules w failures w₁) :
      Ended p build target rules w o w'

theorem Ended.cons {build : Path → Step Outcome} {r : Rule} {rest : List Rule}
    (h : Ended p build target rest w₁ o w')
    (passes : ∀ front failures w₂, Passed p build target front w₁ failures w₂ →
      ∃ failures', Passed p build target (r :: front) w failures' w₂) :
    Ended p build target (r :: rest) w o w' := by
  cases h with
  | built passed hs asked built =>
    obtain ⟨failures, passed⟩ := passes _ _ _ passed
    exact .built passed hs asked built
  | failed passed hs asked failed =>
    obtain ⟨failures, passed⟩ := passes _ _ _ passed
    exact .failed passed hs asked failed
  | passed passed =>
    obtain ⟨failures, passed⟩ := passes _ _ _ passed
    exact .passed passed

theorem ended_of_tryRules {build : Path → Step Outcome} {rules : List Rule} {blocked : Option Failure}
    (run : tryRules p (engineOf p build) target rules blocked w = some (o, w')) :
    Ended p build target rules w o w' := by
  induction rules generalizing blocked w with
  | nil => exact .passed (.nil w)
  | cons r rest ih =>
    cases hs : r.product.stem? target with
    | none =>
      rw [tryRules_cons_of_none hs] at run
      exact (ih run).cons fun _ _ _ passed => ⟨_, .other hs passed⟩
    | some stem =>
      rw [tryRules, hs] at run
      obtain ⟨outcomes, w₁, asked, run⟩ := Work.bind_eq_some.1 run
      cases ready : firstError? outcomes with
      | some failure =>
        simp only [ready] at run
        obtain ⟨listed, w₂, same, run⟩ := Work.bind_eq_some.1 run
        obtain ⟨-, rfl⟩ := Prod.mk.inj (Option.some.inj same)
        obtain ⟨d, hd, missing⟩ := Tried.exists_of_skipped asked ready
        have ended : Ended p build target rest w₁ o w' := by split at run <;> exact ih run
        exact ended.cons fun _ _ _ passed => ⟨_, .skipped hs (by simp [hd]) missing passed⟩
      | none =>
        simp only [ready] at run
        obtain ⟨result, w₂, dispatched, run⟩ := Work.bind_eq_some.1 run
        cases result with
        | ok path =>
          obtain ⟨rfl, rfl⟩ := Prod.mk.inj (Option.some.inj run)
          exact @Ended.built p build target [] r rest _ _ _ _ _ _ _ _ (.nil w) hs asked dispatched
        | error e =>
          cases e with
          | inapplicable signal =>
            exact (ih run).cons fun _ _ _ passed => ⟨_, .left hs asked ready dispatched passed⟩
          | rule e =>
            obtain ⟨rfl, rfl⟩ := Prod.mk.inj (Option.some.inj run)
            exact @Ended.failed p build target [] r rest _ _ _ _ _ _ _ _ (.nil w) hs asked dispatched

theorem Ended.passed_of_soft {rs : List Rule} (h : Ended p (buildWithin p n) target rs w (.error f) w')
    (soft : ¬ MadeHard p f) :
    ∃ failures w₁, Passed p (buildWithin p n) target rs w failures w₁ := by
  cases h with
  | failed passed hs asked failed =>
    obtain ⟨apply, final⟩ := dispatch_eq_rule.1 failed
    exact absurd (.rule hs apply final) soft
  | passed passed => exact ⟨_, _, passed⟩

/-- What becomes of a target that no rule settles: the project's own file if it can be copied, else
the failure that stands in its way. -/
def fallback (copied : Outcome) (blocked : Option Failure) : Outcome :=
  match copied, blocked with
  | .error _, some failure => .error failure
  | outcome, _ => outcome

theorem tryRules_nil_eq_some {engine : Engine LocalState} {blocked : Option Failure}
    (run : tryRules p engine target [] blocked w = some (o, w')) :
    ∃ copied, copySource p target w = some (copied, w') ∧ o = fallback copied blocked := by
  rw [tryRules] at run
  obtain ⟨copied, w₁, copy, run⟩ := Work.bind_eq_some.1 run
  refine ⟨copied, ?_⟩
  cases copied <;> cases blocked <;>
  · obtain ⟨rfl, rfl⟩ := Prod.mk.inj (Option.some.inj run)
    exact ⟨copy, rfl⟩

/-- A declared dependency is the only one of its rule. -/
theorem asked_of_missing {build : Path → Step Outcome} {r : Rule} {stem : String} {d : Pattern}
    (hd : d ∈ r.dependencies) (missing : build (d.fill stem) w = some (.error f, w')) :
    (engineOf p build).build (r.dependencies.map fun d => [d.fill stem]) w = some ([.error f], w') := by
  obtain e | ⟨d', e⟩ := dependencies_cases r
  · simp [e] at hd
  · obtain rfl : d = d' := by simpa [e] using hd
    rw [e]
    change List.mapM (firstBuilt build) [[d.fill stem]] w = _
    rw [List.mapM_cons]
    exact (Work.bind_of_eq_some missing).trans rfl

/-- Requests that leave a tracked world tracked, and tell what they come to. -/
def Tells (p : Project) (build : Path → Step Outcome) (r : Path) : Prop :=
  ∀ u, Tracked p u → ∀ o u', build r u = some (o, u') → Tracked p u' ∧ Told p u' r o

section Production

variable (tells : ∀ r, Asks p target r → Tells p (buildWithin p n) r)
include tells

theorem agree_tracked (r : Path) (asks : Asks p target r) :
    Agree (Tracked p) (buildWithin p n r) (buildWithin p n r) :=
  ⟨fun _ _ => rfl, fun u hu o u' run => (tells r asks u hu o u' run).1⟩

theorem tracked_of_asked {r : Rule} {stem : String} {outcomes : List Outcome}
    (hs : r.product.stem? target = some stem) (tracked : Tracked p w)
    (asked : (engineOf p (buildWithin p n)).build (r.dependencies.map fun d => [d.fill stem]) w =
      some (outcomes, w')) : Tracked p w' := by
  have dependencies : ∀ targets ∈ r.dependencies.map fun d => [d.fill stem], ∀ q ∈ targets,
      Agree (Tracked p) (buildWithin p n q) (buildWithin p n q) := by
    simpa using fun d hd => agree_tracked tells _ (.dependency hs hd)
  exact ((Agree.parallel (Tracked.stable p) p target).batches dependencies).kept w tracked outcomes w'
    asked

theorem tracked_of_dispatch {r : Rule} {stem : String} {result : Except DispatchError Path}
    (hs : r.product.stem? target = some stem) (tracked : Tracked p w)
    (dispatched : (engineOf p (buildWithin p n)).dispatch target
      (r.apply (contextOf p (buildWithin p n)) target) w = some (result, w')) : Tracked p w' :=
  ((Agree.parallel (Tracked.stable p) p target).dispatch (agree_tracked tells) hs).kept w tracked
    result w' dispatched

/-- After rules that do not settle a target, the first hard failure among those of the declared
dependencies stands in its way. -/
theorem Passed.stands {front : List Rule} {failures done : List Failure} {blocked : Option Failure}
    (passed : Passed p (buildWithin p n) target front w failures w₁) (tracked : Tracked p w)
    (stands : Blocked p target w done blocked) :
    Tracked p w₁ ∧ ∃ blocked', Blocked p target w₁ (done ++ failures) blocked' ∧ ∀ rest,
      tryRules p (engineOf p (buildWithin p n)) target (front ++ rest) blocked w =
        tryRules p (engineOf p (buildWithin p n)) target rest blocked' w₁ := by
  induction passed generalizing done blocked with
  | nil w => exact ⟨tracked, blocked, by simpa using stands, fun _ => rfl⟩
  | other hs next ih =>
    simp only [List.cons_append, tryRules_cons_of_none hs]
    exact ih tracked stands
  | @skipped r front stem d w failure w₁ failures w₂ hs hd missing next ih =>
    obtain ⟨tracked₁, told⟩ := tells _ (.dependency hs hd) w tracked _ w₁ missing
    have stands₁ := stands.later (Calls.nestedTarget missing).grown
    obtain ⟨tracked₂, blocked', stands₂, same⟩ := ih tracked₁ (stands₁.skip tracked₁ hs hd told)
    refine ⟨tracked₂, blocked', by simpa using stands₂, fun rest => ?_⟩
    rw [← same, List.cons_append, tryRules, hs]
    refine (Work.bind_of_eq_some (asked_of_missing hd missing)).trans ?_
    change (isHard failure >>= _) w₁ = _
    rw [Work.bind_of_eq_some (show isHard failure w₁ = some (_, w₁) from rfl)]
    split <;> rfl
  | @left r front stem w outcomes w₁ signal w₂ failures w₃ hs asked ready left next ih =>
    have within := buildWithin_follows (closed_true p) n
    have grown : Grown w₁ w₂ := (follows_dispatch (T := fun _ => True) trivial
      (follows_apply (closed_true p) trivial within r) (fun _ => within _ trivial) _ _ _ left).grown
    have tracked₁ := tracked_of_asked tells hs tracked asked
    have tracked₂ := tracked_of_dispatch tells hs tracked₁ left
    obtain ⟨tracked₃, blocked', stands₃, same⟩ :=
      ih tracked₂ (stands.later ((Calls.nestedBatches asked).grown.trans grown))
    refine ⟨tracked₃, blocked', stands₃, fun rest => ?_⟩
    rw [← same, List.cons_append, tryRules, hs]
    refine (Work.bind_of_eq_some asked).trans ?_
    simp only [ready]
    exact Work.bind_of_eq_some left

end Production

/-- How the copying of the project's own file ends. -/
inductive Copied (p : Project) (target : Path) (w : World LocalState) :
    Outcome → World LocalState → Prop
  | done (d : Disk) : Copied p target w (.ok target) { w with disk := d }
  | failed (d : Disk) {f : Failure} (hard : MadeHard p f) (own : f.target = target) :
      Copied p target w (.error f) (hardened target { w with disk := d })
  | missing : Copied p target w (.error ⟨w.nextFailure, target, "no rule to build target"⟩)
      { w with nextFailure := w.nextFailure + 1 }

theorem copied_of_copySource (run : copySource p target w = some (o, w')) : Copied p target w o w' := by
  unfold copySource at run
  rw [Work.bind_of_eq_some Work.get_run] at run
  by_cases isFile : w.disk.isFile (p.root / target) = true
  · simp only [isFile, ↓reduceIte] at run
    obtain ⟨result, w₁, copied, run⟩ := Work.bind_eq_some.1 run
    rw [Work.onDisk_run] at copied
    obtain ⟨failed, rfl⟩ := Prod.mk.inj (Option.some.inj copied)
    cases result with
    | ok _ =>
      obtain ⟨rfl, rfl⟩ := Prod.mk.inj (Option.some.inj run)
      exact .done _
    | error e =>
      obtain ⟨rfl, rfl⟩ := Prod.mk.inj (Option.some.inj run)
      exact .failed _ (.copy isFile (Prod.ext failed rfl)) rfl
  · simp only [isFile, Bool.false_eq_true, ↓reduceIte] at run
    obtain ⟨rfl, rfl⟩ := Prod.mk.inj (Option.some.inj run)
    exact .missing

/-- A world in which, of what the engine keeps, at most a target was noted since as one that failed
for a reason of its own. -/
structure Noted (target : Path) (w w' : World LocalState) : Prop where
  outcomes : w'.own.outcomes = w.own.outcomes
  inProgress : w'.own.inProgress = w.own.inProgress
  hard : w'.own.hard = w.own.hard ∨ w'.own.hard = target :: w.own.hard

theorem Copied.noted (h : Copied p target w o w') : Noted target w w' := by
  cases h with
  | done => exact ⟨rfl, rfl, .inl rfl⟩
  | failed => exact ⟨rfl, rfl, .inr rfl⟩
  | missing => exact ⟨rfl, rfl, .inl rfl⟩

theorem lookupPath?_finished (o : Outcome) (w : World LocalState) (q : Path) :
    lookupPath? q (finished target o w).own.outcomes =
      if target.same q then some o else lookupPath? q w.own.outcomes := rfl

theorem Noted.listed (h : Noted target w w') (listed : listsPath q w.own.hard = true) :
    listsPath q w'.own.hard = true := by
  rcases h.hard with same | same
  · exact same ▸ listed
  · rw [same, listsPath_cons, listed, Bool.or_true]

/-- A target that is being built has no outcome that its own could take the place of. -/
theorem Tracked.kept (h : Tracked p w) (noted : Noted target w w')
    (busy : listsPath target w.own.inProgress = true) (o o' : Outcome) (q : Path)
    (known : lookupPath? q w.own.outcomes = some o') :
    lookupPath? q (finished target o w').own.outcomes = some o' := by
  rw [lookupPath?_finished, noted.outcomes]
  split
  case isTrue same =>
    rw [← lookupPath?_congr same, h.busy target busy] at known
    simp at known
  case isFalse => exact known

/-- The world in which the building of a target ends is tracked if its outcome is told. -/
theorem Tracked.finish (h : Tracked p w) (noted : Noted target w w')
    (busy : listsPath target w.own.inProgress = true)
    (told : ∀ q, target.same q = true → Told p (finished target o w') q o) :
    Tracked p (finished target o w') := by
  have lookup (q : Path) : lookupPath? q (finished target o w').own.outcomes =
      if target.same q then some o else lookupPath? q w.own.outcomes := by
    rw [lookupPath?_finished, noted.outcomes]
  have listed {q : Path} (other : target.same q = false) :
      listsPath q w'.own.hard = listsPath q w.own.hard := by
    rcases noted.hard with same | same
    · rw [same]
    · rw [same, listsPath_cons, other, Bool.false_or]
  constructor
  case hard =>
    intro q hq
    rw [lookup]
    cases same : target.same q with
    | true => simp
    | false => exact h.hard q ((listed same) ▸ hq)
  case busy =>
    intro q hq
    obtain ⟨r, mem, same⟩ := List.any_eq_true.1 hq
    obtain ⟨mem, other⟩ := List.mem_filter.1 mem
    have other : target.same q = false := by
      rw [Path.same_comm, Path.same_congr same] at other
      simpa using other
    rw [lookup, other]
    exact h.busy q (List.any_eq_true.2 ⟨r, noted.inProgress ▸ mem, same⟩)
  case told =>
    intro q o' known
    rw [lookup] at known
    cases same : target.same q with
    | true =>
      rw [same] at known
      obtain rfl : o = o' := Option.some.inj known
      exact told q same
    | false =>
      rw [same] at known
      cases h.told q o' known with
      | built => exact .built _
      | hard blames marked =>
        exact .hard (blames.mono fun r o' => h.kept noted busy o o' r) (noted.listed marked)
      | missing message own unlisted =>
        have other : target.same _ = target.same q := Path.same_congr own target
        exact .missing message own ((listed (other.trans same)).trans unlisted)
      | cycle message own busy => simp [h.busy q busy] at known

theorem Told.of_own (hard : MadeHard p f) (own : f.target = target) (same : target.same q = true)
    (w : World LocalState) : Told p (finished target (.error f) (hardened target w)) q (.error f) := by
  refine .hard (.own hard (own ▸ same) ?_) ?_
  · rw [lookupPath?_finished, same]
    rfl
  · change listsPath _ (target :: _) = true
    rw [listsPath_cons, own, Path.same_self, Bool.true_or]

/-- The building of a target leaves a tracked world, which tells what the target came to. -/
theorem tracked_finished (tells : ∀ r, Asks p target r → Tells p (buildWithin p n) r)
    (tracked : Tracked p w) (busy : listsPath target w'.own.inProgress = true)
    {rs : List Rule} (run : tryRules p (engineOf p (buildWithin p n)) target rs none w = some (o, w')) :
    Tracked p (finished target o w') := by
  have nothing : Blocked p target w [] none := .free (by simp)
  have known {q : Path} (same : target.same q = true) :
      lookupPath? q (finished target o w').own.outcomes = some o := by
    rw [lookupPath?_finished, same]
    rfl
  cases ended_of_tryRules run with
  | built passed hs asked built =>
    obtain ⟨tracked, -⟩ := passed.stands tells tracked nothing
    have tracked := tracked_of_dispatch tells hs (tracked_of_asked tells hs tracked asked) built
    exact tracked.finish ⟨rfl, rfl, .inl rfl⟩ busy fun q _ => .built _
  | failed passed hs asked failed =>
    obtain ⟨tracked, -⟩ := passed.stands tells tracked nothing
    have tracked := tracked_of_dispatch tells hs (tracked_of_asked tells hs tracked asked) failed
    obtain ⟨apply, final⟩ := dispatch_eq_rule.1 failed
    exact tracked.finish ⟨rfl, rfl, .inr rfl⟩ busy fun q same =>
      .of_own (.rule hs apply final) rfl same _
  | @passed _ _ failures w₁ _ _ passed =>
    obtain ⟨tracked, blocked, stands, skips⟩ := passed.stands tells tracked nothing
    have skips := skips []
    rw [List.append_nil] at skips
    obtain ⟨copied, copy, rfl⟩ := tryRules_nil_eq_some (skips.symm.trans run)
    have copies := copied_of_copySource copy
    have noted := copies.noted
    rw [noted.inProgress] at busy
    refine tracked.finish noted busy fun q same => ?_
    cases stands with
    | @hard f _ _ _ first hs hd blames listed =>
      cases copied with
      | ok path => exact .built _
      | error _ =>
        have rest := blames.mono fun r o' => tracked.kept noted busy (.error f) o' r
        exact .hard (.dependency same (known same) hs hd rest) (noted.listed listed)
    | free soft =>
      cases copies with
      | done => exact .built _
      | failed d hard own => exact .of_own hard own same _
      | missing => exact .missing rfl same (tracked.not_listed_of_busy busy)

theorem Tracked.enter (h : Tracked p w) (new : lookupPath? target w.own.outcomes = none) :
    Tracked p (entered target w) where
  hard := h.hard
  busy q hq := by
    change listsPath q (target :: w.own.inProgress) = true at hq
    rw [listsPath_cons, Bool.or_eq_true] at hq
    rcases hq with same | listed
    · exact (lookupPath?_congr same _).symm.trans new
    · exact h.busy q listed
  told q o known := by
    cases h.told q o known with
    | built => exact .built _
    | hard blames listed => exact .hard blames listed
    | missing message own unlisted => exact .missing message own unlisted
    | cycle message own busy => exact absurd known (by simp [entered, h.busy q busy])

/-- A build leaves a tracked world, which tells what the target came to. -/
theorem buildWithin_tells (p : Project) (n : Nat) (q : Path) : Tells p (buildWithin p n) q := by
  induction n generalizing q with
  | zero =>
    intro w _ o w' run
    simp [buildWithin, Work.exhausted] at run
  | succ n ih =>
    intro w tracked o w' run
    rw [buildWithin] at run
    cases known : lookupPath? q w.own.outcomes with
    | some o' =>
      rw [once_of_known known] at run
      obtain ⟨rfl, rfl⟩ := Prod.mk.inj (Option.some.inj run)
      exact ⟨tracked, tracked.told q _ known⟩
    | none =>
      cases busy : listsPath q w.own.inProgress with
      | true =>
        rw [once_of_inProgress known busy] at run
        obtain ⟨rfl, rfl⟩ := Prod.mk.inj (Option.some.inj run)
        exact ⟨Tracked.stable p w _ rfl rfl rfl tracked, .cycle rfl rfl busy⟩
      | false =>
        rw [once_of_new known busy] at run
        obtain ⟨⟨o', w₁⟩, run', same⟩ := Option.map_eq_some_iff.1 run
        obtain ⟨rfl, rfl⟩ := Prod.mk.inj same
        have grown := (follows_tryRules (closed_true p) trivial
          (buildWithin_follows (closed_true p) n) rules none _ _ _ run').grown
        have building : listsPath q w₁.own.inProgress = true := by
          rw [grown.inProgress]
          change listsPath q (q :: _) = true
          rw [listsPath_cons, Path.same_self, Bool.true_or]
        have tracked' := tracked_finished (fun r _ => ih r) (tracked.enter known) building run'
        refine ⟨tracked', tracked'.told q o' ?_⟩
        rw [lookupPath?_finished, Path.same_self]
        rfl

/-! ### Calls -/

/-- A world in which an engine is asked for targets that began with nothing kept. -/
def Served (p : Project) (w : World LocalState) : Prop := ∃ w₀, w₀.own = {} ∧ Onwards p w₀ w

theorem Calls.tracked (h : Calls p w w') (tracked : Tracked p w) : Tracked p w' := by
  have agree (n : Nat) (r : Path) : Agree (Tracked p) (buildWithin p n r) (buildWithin p n r) :=
    ⟨fun _ _ => rfl, fun u hu o u' run => (buildWithin_tells p n r u hu o u' run).1⟩
  have whole (r : Path) : Agree (Tracked p) (Local.build p r) (Local.build p r) := agree _ r
  have par := Agree.parallel (Tracked.stable p) p
  cases h with
  | target run => exact (whole _).kept w tracked _ w' run
  | batches run => exact ((par .empty).batches fun _ _ r _ => whole r).kept w tracked _ w' run
  | signal run => exact ((par _).signal (whole _)).kept w tracked _ w' run
  | nestedTarget run => exact (agree _ _).kept w tracked _ w' run
  | nestedBatches run => exact ((par .empty).batches fun _ _ r _ => agree _ r).kept w tracked _ w' run
  | nestedSignal run => exact ((par _).signal (agree _ _)).kept w tracked _ w' run

theorem Served.tracked (h : Served p w) : Tracked p w := by
  obtain ⟨w₀, new, onwards⟩ := h
  induction onwards with
  | refl => exact .of_new new
  | call _ call ih => exact call.tracked ih
  | @change w₁ _ d ih => exact Tracked.stable p w₁ _ rfl rfl rfl ih

/-- The calls that an engine makes while it serves a request, that for the request included. -/
def Made (p : Project) (c : Call) : Prop :=
  ∃ w q, Served p w ∧ ReflTransGen (Nested p) ⟨depth p q, q, w⟩ c

theorem Made.tracked {c : Call} (made : Made p c) : Tracked p c.world := by
  obtain ⟨w, q, served, nested⟩ := made
  induction nested with
  | refl => exact served.tracked
  | @tail c c' _ nested ih =>
    refine (nested.step (Tracked.stable p) (ih.enter nested.enters.new) ?_).2
    exact fun r _ u hu o u' run => (buildWithin_tells p _ r u hu o u' run).1

theorem Made.ends (supplied : p.metadata.Supplied) {c : Call} (made : Made p c) :
    ∃ o v, c.result p = some (o, v) := by
  obtain ⟨w, q, -, nested⟩ := made
  cases nested with
  | refl =>
    obtain ⟨o, v, run, -⟩ := exists_build_eq_some supplied.reaches q w
    exact ⟨o, v, run⟩
  | tail _ nested => exact nested.ends

/-- What the building of a target comes to where no rule settles it.  If the project's file cannot be
copied and a declared dependency failed hard, it is the failure of the first such dependency, the
identical one.  A failure is hard, or reports a target without a rule.  A hard one is that of every
target down a chain of declared dependencies to the one that it was made for; a target is reported as
one without a rule only if no declared dependency of a rule that it matches failed hard. -/
theorem hard_failure_surfaces (supplied : p.metadata.Supplied) {c : Call} (made : Made p c)
    (enters : c.Enters) : ∃ n o v, c.depth = n + 1 ∧ c.result p = some (o, v) ∧
      (∀ failures w₁ failed w₂ f,
        Passed p (buildWithin p n) c.target rules (entered c.target c.world) failures w₁ →
        copySource p c.target w₁ = some (.error failed, w₂) → FirstHard p failures f → o = .error f) ∧
      (∀ f, o = .error f → MadeHard p f ∨ f.message = "no rule to build target") ∧
      (∀ f, o = .error f → MadeHard p f → Blames p v.own.outcomes f c.target) ∧
      ∀ f, o = .error f → f.message = "no rule to build target" → ∃ failures w₁,
        Passed p (buildWithin p n) c.target rules (entered c.target c.world) failures w₁ ∧
        ∀ g ∈ failures, ¬ MadeHard p g := by
  obtain ⟨o, v, result⟩ := made.ends supplied
  obtain ⟨n, target, w⟩ := c
  cases n with
  | zero => simp [Call.result, buildWithin, Work.exhausted] at result
  | succ n =>
    refine ⟨n, o, v, rfl, result, ?_⟩
    obtain ⟨tracked', told⟩ := buildWithin_tells p (n + 1) target w made.tracked o v result
    have known := lookupPath?_of_once enters.idle result
    have tracked := made.tracked.enter enters.new
    have tells (r : Path) (_ : Asks p target r) := buildWithin_tells p n r
    have nothing : Blocked p target (entered target w) [] none := .free (by simp)
    change buildWithin p (n + 1) target w = some (o, v) at result
    rw [buildWithin, once_of_new enters.new enters.idle] at result
    obtain ⟨⟨o', w'⟩, run, same⟩ := Option.map_eq_some_iff.1 result
    obtain ⟨rfl, rfl⟩ := Prod.mk.inj same
    -- what stands in the way of the target after rules that do not settle it is its outcome
    have after {failures : List Failure} {w₁ : World LocalState}
        (passed : Passed p (buildWithin p n) target rules (entered target w) failures w₁) :
        ∃ blocked copied, Blocked p target w₁ failures blocked ∧
          copySource p target w₁ = some (copied, w') ∧ o' = fallback copied blocked := by
      obtain ⟨-, blocked, stands, skips⟩ := passed.stands tells tracked nothing
      have skips := skips []
      rw [List.append_nil] at skips
      obtain ⟨copied, copy, same⟩ := tryRules_nil_eq_some (skips.symm.trans run)
      exact ⟨blocked, copied, by simpa using stands, copy, same⟩
    refine ⟨fun failures w₁ failed w₂ f passed copy first => ?_, fun f same => ?_, fun f same hard => ?_,
      fun f same message => ?_⟩
    · obtain ⟨blocked, copied, stands, copy', rfl⟩ := after passed
      obtain ⟨rfl, -⟩ := Prod.mk.inj (Option.some.inj (copy'.symm.trans copy))
      cases stands with
      | free soft =>
        obtain ⟨hard, before, after, rfl, -⟩ := first
        exact absurd hard (soft f (by simp))
      | hard first' => exact congrArg Except.error (first'.unique first)
    · subst same
      cases told with
      | hard blames => exact .inl blames.hard
      | missing message => exact .inr message
      | cycle message own busy =>
        rw [tracked'.busy target busy] at known
        simp at known
    · subst same
      exact told.blames hard
    · subst same
      have soft : ¬ MadeHard p f := fun hard => by
        have colon := hard.colon_mem
        rw [message] at colon
        exact absurd colon (by decide)
      obtain ⟨failures, w₁, passed⟩ := (ended_of_tryRules run).passed_of_soft soft
      obtain ⟨blocked, copied, stands, -, same⟩ := after passed
      refine ⟨failures, w₁, passed, ?_⟩
      cases stands with
      | free soft => exact soft
      | hard first =>
        cases copied with
        | ok path => simp [fallback] at same
        | error _ => exact absurd (Except.error.inj same ▸ first.1) soft

set_option maxRecDepth 100000 in
/-- The dependencies of a record of dependencies fail with the failure of the record, for which there
was no analyzer. -/
theorem hard_failure_surfaces_smallDisk :
    let p := sampleProject smallDisk libConfig
    let target : Path := ⟨"lib/foo/foo__a.ml.depends.depends"⟩
    let c : Call := ⟨depth p target, target, newWorld smallDisk⟩
    Made p c ∧ c.Enters ∧ ∃ f v, c.result p = some (.error f, v) ∧
      f.target = ⟨"lib/foo/foo__a.ml.depends"⟩ ∧ Blames p v.own.outcomes f target := by
  intro p target c
  have made : Made p c := ⟨_, _, ⟨_, rfl, .refl⟩, .refl⟩
  have enters : c.Enters := ⟨rfl, rfl⟩
  obtain ⟨n, o, v, -, result, -, kinds, blames, -⟩ :=
    hard_failure_surfaces (.tree (sampleTree smallDisk libConfig)) made enters
  have outcome : ((c.result p).bind fun x => firstError? [x.1]).any (fun f =>
      f.target == ⟨"lib/foo/foo__a.ml.depends"⟩ && f.message != "no rule to build target") = true := by
    decide +kernel
  rw [result, Option.bind_some] at outcome
  cases o with
  | ok path => simp [firstError?] at outcome
  | error f =>
    obtain ⟨own, message⟩ := Bool.and_eq_true_iff.1 outcome
    have hard := (kinds f rfl).resolve_right (by simpa using message)
    exact ⟨made, enters, f, v, result, by simpa using own, blames f rfl hard⟩

end Local
end FlatModules
