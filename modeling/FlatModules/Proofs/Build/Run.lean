import FlatModules.Build.Local

/-!
# Build — runs of steps

A run of a step is its result in a world with the world that it leaves.  A run of several steps is
a run of each in turn (`Work.bind_eq_some`); a rule stops at its first error
(`Attempt.bind_eq_some`).
-/

namespace FlatModules

namespace Work

variable {σ α β : Type} {w : World σ}

theorem bind_eq_some {m : Work σ α} {f : α → Work σ β} {r : β × World σ} :
    (m >>= f) w = some r ↔ ∃ a w₁, m w = some (a, w₁) ∧ f a w₁ = some r := by
  change ((m w).bind fun x => f x.1 x.2) = some r ↔ _
  rw [Option.bind_eq_some_iff]
  exact ⟨fun ⟨x, h, h'⟩ => ⟨x.1, x.2, h, h'⟩, fun ⟨a, w₁, h, h'⟩ => ⟨(a, w₁), h, h'⟩⟩

theorem bind_of_eq_some {m : Work σ α} {f : α → Work σ β} {a : α} {v : World σ}
    (h : m w = some (a, v)) : (m >>= f) w = f a v := by
  change ((m w).bind fun x => f x.1 x.2) = _
  rw [h]
  rfl

@[simp] theorem pure_run (a : α) : (pure a : Work σ α) w = some (a, w) := rfl

@[simp] theorem newFailure_run (target : Path) (message : String) :
    (newFailure target message : Work σ _) w =
      some (⟨w.nextFailure, target, message⟩, { w with nextFailure := w.nextFailure + 1 }) := rfl

@[simp] theorem onDisk_run (step : DiskM α) :
    (onDisk step : Work σ _) w =
      some ((step.run.run w.disk).1, { w with disk := (step.run.run w.disk).2 }) := rfl

@[simp] theorem noteRun_run (arguments : Option (List String)) :
    (noteRun arguments : Work σ _) w =
      some ((), { w with runs := w.runs ++ arguments.toList }) := rfl

@[simp] theorem own_run : (own : Work σ σ) w = some (w.own, w) := rfl

@[simp] theorem modifyOwn_run (f : σ → σ) :
    (modifyOwn f : Work σ _) w = some ((), { w with own := f w.own }) := rfl

@[simp] theorem get_run : (get : Work σ _) w = some (w, w) := rfl

@[simp] theorem set_run (w' : World σ) : (set w' : Work σ _) w = some ((), w') := rfl

end Work

namespace Attempt

variable {σ α β : Type} {w : World σ}

theorem bind_eq_some {m : Attempt σ α} {f : α → Attempt σ β} {r : Except RuleError β × World σ} :
    (m >>= f).run w = some r ↔
      (∃ a w₁, m.run w = some (.ok a, w₁) ∧ (f a).run w₁ = some r) ∨
        ∃ e w₁, m.run w = some (.error e, w₁) ∧ r = (.error e, w₁) := by
  rw [ExceptT.run_bind, Work.bind_eq_some]
  constructor
  · rintro ⟨result, w₁, h, h'⟩
    cases result with
    | ok a => exact .inl ⟨a, w₁, h, h'⟩
    | error e => exact .inr ⟨e, w₁, h, (Option.some.inj h').symm⟩
  · rintro (⟨a, w₁, h, h'⟩ | ⟨e, w₁, h, rfl⟩)
    · exact ⟨.ok a, w₁, h, h'⟩
    · exact ⟨.error e, w₁, h, rfl⟩

theorem bind_of_ok {m : Attempt σ α} {f : α → Attempt σ β} {a : α} {w₁ : World σ}
    (h : m.run w = some (.ok a, w₁)) : (m >>= f).run w = (f a).run w₁ := by
  rw [ExceptT.run_bind, Work.bind_of_eq_some h]

theorem bind_of_error {m : Attempt σ α} {f : α → Attempt σ β} {e : RuleError} {w₁ : World σ}
    (h : m.run w = some (.error e, w₁)) : (m >>= f).run w = some (.error e, w₁) := by
  rw [ExceptT.run_bind, Work.bind_of_eq_some h]
  rfl

@[simp] theorem pure_run (a : α) : (pure a : Attempt σ α).run w = some (.ok a, w) := rfl

@[simp] theorem throw_run (e : RuleError) :
    (throw e : Attempt σ α).run w = some (.error e, w) := rfl

@[simp] theorem lift_run (m : Work σ α) :
    (liftM m : Attempt σ α).run w = (m w).map fun x => (.ok x.1, x.2) := by
  cases h : m w <;> simp [ExceptT.run, liftM, monadLift, MonadLift.monadLift, ExceptT.lift,
    ExceptT.mk, Functor.map, StateT.map, h]

@[simp] theorem disk_run : (disk : Attempt σ Disk).run w = some (.ok w.disk, w) := rfl

theorem onDisk_run (path : Path) (step : DiskM α) :
    (onDisk path step : Attempt σ α).run w =
      some (match (step.run.run w.disk).1 with
        | .ok a => .ok a
        | .error e => .error (.disk path e), { w with disk := (step.run.run w.disk).2 }) := by
  have lifted : (liftM (Work.onDisk step : Work σ _) : Attempt σ _).run w =
      some (.ok (step.run.run w.disk).1, { w with disk := (step.run.run w.disk).2 }) := by
    rw [lift_run, Work.onDisk_run]
    rfl
  unfold onDisk
  rw [bind_of_ok lifted]
  cases (step.run.run w.disk).1 <;> rfl

theorem onDisk_run_ok {step : DiskM α} {a : α} {d : Disk}
    (h : step.run.run w.disk = (.ok a, d)) (path : Path) :
    (onDisk path step : Attempt σ α).run w = some (.ok a, { w with disk := d }) := by
  rw [onDisk_run, h]

theorem onDisk_run_error {step : DiskM α} {e : DiskError} {d : Disk}
    (h : step.run.run w.disk = (.error e, d)) (path : Path) :
    (onDisk path step : Attempt σ α).run w =
      some (.error (.disk path e), { w with disk := d }) := by
  rw [onDisk_run, h]

@[simp] theorem orThrow_some_run (a : α) (e : RuleError) :
    (orThrow (some a) e : Attempt σ α).run w = some (.ok a, w) := rfl

@[simp] theorem orThrow_none_run (e : RuleError) :
    (orThrow none e : Attempt σ α).run w = some (.error e, w) := rfl

end Attempt

/-! ### What a rule requires -/

theorem firstFailure?_eq_none {xs : List (Path × Outcome)} (h : firstFailure? xs = none) :
    ∀ x ∈ xs, ∃ path, x.2 = .ok path := by
  induction xs with
  | nil => simp
  | cons x xs ih =>
    obtain ⟨q, o⟩ := x
    cases o with
    | error f => simp [firstFailure?] at h
    | ok path => simpa using ih h

theorem mem_of_firstFailure? {xs : List (Path × Outcome)} {q : Path} {f : Failure}
    (h : firstFailure? xs = some (q, f)) : (q, .error f) ∈ xs := by
  induction xs with
  | nil => simp [firstFailure?] at h
  | cons x xs ih =>
    obtain ⟨r, o⟩ := x
    cases o with
    | error g =>
      obtain ⟨rfl, rfl⟩ := Prod.mk.inj (Option.some.inj h)
      exact List.mem_cons_self
    | ok path => exact List.mem_cons_of_mem _ (ih h)

namespace Context

variable {σ : Type} {c : Context σ} {targets : List Path} {w w' : World σ} {outcomes : List Outcome}

/-- A rule is told of the first failure among the outcomes of what it requires. -/
theorem requireAll_run (asked : c.engine.build (targets.map ([·])) w = some (outcomes, w')) :
    (c.requireAll targets).run w =
      some (match firstFailure? (targets.zip outcomes) with
        | some (target, failure) => .error (.dependencyFailed target failure)
        | none => .ok (), w') := by
  have lifted := Attempt.lift_run (w := w) (c.engine.build (targets.map ([·])))
  rw [asked] at lifted
  unfold requireAll
  rw [Attempt.bind_of_ok lifted]
  cases firstFailure? (targets.zip outcomes) <;> rfl

theorem requireAll_run_of_none (asked : c.engine.build (targets.map ([·])) w = none) :
    (c.requireAll targets).run w = none := by
  have lifted := Attempt.lift_run (w := w) (c.engine.build (targets.map ([·])))
  rw [asked] at lifted
  unfold requireAll
  rw [ExceptT.run_bind, Option.eq_none_iff_forall_ne_some]
  intro r run
  obtain ⟨a, w₁, step, -⟩ := Work.bind_eq_some.1 run
  simp [lifted] at step

theorem exists_of_requireAll {result : Except RuleError Unit}
    (run : (c.requireAll targets).run w = some (result, w')) :
    ∃ outcomes, c.engine.build (targets.map ([·])) w = some (outcomes, w') ∧
      (firstFailure? (targets.zip outcomes) = none ∧ result = .ok () ∨
        ∃ target failure, firstFailure? (targets.zip outcomes) = some (target, failure) ∧
          result = .error (.dependencyFailed target failure)) := by
  cases asked : c.engine.build (targets.map ([·])) w with
  | none => simp [requireAll_run_of_none asked] at run
  | some x =>
    obtain ⟨outcomes, w₁⟩ := x
    obtain ⟨rfl, rfl⟩ := Prod.mk.inj (Option.some.inj ((requireAll_run asked).symm.trans run))
    refine ⟨outcomes, rfl, ?_⟩
    cases failure : firstFailure? (targets.zip outcomes) with
    | none => exact .inl ⟨rfl, rfl⟩
    | some x => exact .inr ⟨x.1, x.2, rfl, rfl⟩

end Context

namespace Local

/-- A world in which a target is being built. -/
def entered (target : Path) (w : World LocalState) : World LocalState :=
  { w with own := { w.own with inProgress := target :: w.own.inProgress } }

/-- A world in which the building of a target has come to an outcome. -/
def finished (target : Path) (o : Outcome) (w : World LocalState) : World LocalState :=
  { w with own := { w.own with
      inProgress := w.own.inProgress.filter (!·.same target)
      outcomes := (target, o) :: w.own.outcomes } }

variable {target : Path} {produce : Step Outcome} {w w' : World LocalState} {o : Outcome}

theorem once_of_known (h : lookupPath? target w.own.outcomes = some o) :
    once target produce w = some (o, w) := by
  unfold once
  rw [Work.bind_of_eq_some Work.own_run]
  simp only [h]
  rfl

theorem once_of_inProgress (h : lookupPath? target w.own.outcomes = none)
    (hp : listsPath target w.own.inProgress = true) :
    once target produce w =
      some (.error ⟨w.nextFailure, target, "dependency cycle"⟩,
        { w with nextFailure := w.nextFailure + 1 }) := by
  unfold once
  rw [Work.bind_of_eq_some Work.own_run]
  simp only [h]
  rw [Work.bind_of_eq_some Work.own_run]
  simp only [hp, ↓reduceIte]
  rfl

theorem once_of_new (h : lookupPath? target w.own.outcomes = none)
    (hp : listsPath target w.own.inProgress = false) :
    once target produce w =
      (produce (entered target w)).map fun x => (x.1, finished target x.1 x.2) := by
  unfold once
  rw [Work.bind_of_eq_some Work.own_run]
  simp only [h]
  rw [Work.bind_of_eq_some Work.own_run]
  simp only [hp, Bool.false_eq_true, ↓reduceIte]
  rw [Work.bind_of_eq_some (Work.modifyOwn_run _)]
  change (produce >>= _) (entered target w) = _
  cases e : produce (entered target w) with
  | none =>
    change (produce (entered target w)).bind _ = _
    rw [e]
    rfl
  | some x =>
    rw [Work.bind_of_eq_some (a := x.1) (v := x.2) e]
    rfl

end Local

end FlatModules
