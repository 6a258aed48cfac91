import FlatModules.Proofs.Build.Requiring
import FlatModules.Proofs.Build.Signals

/-!
# Build — the two kinds of failure

An attempt on a target that fails for good comes through a dispatch as it is, and nothing is asked for.
One that leaves the target to others is answered with the failure that is kept for its reason
(`Engine.failures_kept_apart`).  As no rule takes a failure out of the table (`Rule.entering_apply`),
that failure also answers every later attempt, by whatever rule, that leaves the target for the same
reason (`settledFor_of_kept`).
-/

namespace FlatModules

open Local

variable {σ α β : Type} {e : Engine σ} {w w' w₁ w₂ : World σ} {target : Path} {reason : String}
  {f : Failure} {attempt : Attempt σ Applied} {result : Except RuleError Applied}

/-! ### Leaving a target to others -/

/-- How an attempt ends that leaves its target to others, and for which reason: it says so, or what it
looked for in the metadata is not there. -/
inductive LeavesFor : Except RuleError Applied → String → Prop
  | inapplicable (reason : String) : LeavesFor (.ok (.inapplicable reason)) reason
  | notANamespace (path : Path) : LeavesFor (.error (.notANamespace path)) "not a namespace"
  | notNamespacedFile (path : Path) :
      LeavesFor (.error (.notNamespacedFile path)) "not a namespaced file"
  | notALibrary (path : Path) : LeavesFor (.error (.notALibrary path)) "not a library namespace"

theorem leavesFor_iff : LeavesFor result reason ↔ reasonOf result = some reason := by
  constructor
  · rintro (_ | _ | _ | _) <;> rfl
  · intro because
    obtain err | path | reason' := result
    · have because : err.reason? = some reason := because
      cases err with
      | notANamespace path => cases because; exact .notANamespace path
      | notNamespacedFile path => cases because; exact .notNamespacedFile path
      | notALibrary path => cases because; exact .notALibrary path
      | dependencyFailed | analyzer | log | digest | disk => cases because
    · cases because
    · cases because
      exact .inapplicable reason

theorem reason?_eq_none_iff {err : RuleError} :
    err.reason? = none ↔ ¬ ∃ reason, LeavesFor (.error err) reason := by
  simp only [leavesFor_iff, reasonOf, ← Option.isSome_iff_exists, Option.not_isSome_iff_eq_none]

/-! ### Rules and engines go to the table only to look up, to enter and to signal -/

/-- An engine that changes the table of failures only by entering into it and by signals, whatever a
rule calls it for. -/
structure Engine.OnlyEnters (e : Engine σ) : Prop where
  build : ∀ batches, Entering (e.build batches)
  tags : ∀ path, Entering (e.tags path)
  attach : ∀ path tags, Entering (e.attach path tags)

namespace Entering

theorem attempt_bind {m : Attempt σ α} {f : α → Attempt σ β} (h : Entering m.run)
    (hf : ∀ x, Entering (f x).run) : Entering (m >>= f).run := by
  rw [ExceptT.run_bind]
  refine .bind h fun result _ _ _ => ?_
  cases result with
  | ok x => exact hf x
  | error err => exact .pure _

theorem attempt_pure (x : α) : Entering (Pure.pure x : Attempt σ α).run := .pure _

theorem throw (err : RuleError) : Entering (throw err : Attempt σ α).run := .pure _

theorem lift {m : Work σ α} (h : Entering m) : Entering (liftM m : Attempt σ α).run :=
  .bind h fun x _ _ _ => .pure (Except.ok x)

theorem attempt_disk : Entering (Attempt.disk : Attempt σ Disk).run :=
  .attempt_bind (.lift .get) fun _ => .attempt_pure _

theorem attempt_onDisk (path : Path) (step : DiskM α) :
    Entering (Attempt.onDisk path step : Attempt σ α).run := by
  refine .attempt_bind (.lift (.onDisk step)) fun result => ?_
  split
  · exact .attempt_pure _
  · exact .throw _

theorem orThrow_bind {value? : Option α} {err : RuleError} {f : α → Attempt σ β}
    (h : ∀ x, Entering (f x).run) : Entering (orThrow value? err >>= f).run := by
  cases value? with
  | none => exact .pure _
  | some x => exact h x

theorem firstBuilt {build : Path → Work σ Outcome} (h : ∀ q, Entering (build q)) (targets : List Path) :
    Entering (firstBuilt build targets) := by
  induction targets with
  | nil => exact .bind (.newFailure _ _) fun _ _ _ _ => .pure _
  | cons q rest ih =>
    cases rest with
    | nil => exact h q
    | cons q' rest =>
      refine .bind (h q) fun outcome _ _ _ => ?_
      cases outcome with
      | ok path => exact .pure _
      | error failure => exact ih

theorem mapM {f : α → Work σ β} (h : ∀ x, Entering (f x)) (xs : List α) : Entering (xs.mapM f) := by
  induction xs with
  | nil => exact .pure _
  | cons x xs ih =>
    rw [List.mapM_cons]
    exact .bind (h x) fun _ _ _ _ => .bind ih fun _ _ _ _ => .pure _

end Entering

section Rules

variable {c : Context σ}

theorem Context.entering_requireAll (hc : c.engine.OnlyEnters) (targets : List Path) :
    Entering (c.requireAll targets).run := by
  refine .attempt_bind (.lift (hc.build _)) fun outcomes => ?_
  split
  · exact .throw _
  · exact .attempt_pure _

theorem Context.entering_writeOutput (c : Context σ) (target : Path) (content : String) :
    Entering (c.writeOutput target content).run :=
  .attempt_bind (.attempt_onDisk _ _) fun _ => .attempt_pure _

theorem Context.entering_analyze (c : Context σ) (file : Path) (tags : Tags) :
    Entering (c.analyze file tags).run := by
  refine .attempt_bind .attempt_disk fun d => .attempt_bind (.lift (.noteRun _)) fun _ => ?_
  split
  · exact .attempt_pure _
  · exact .throw _

theorem Context.entering_namespaceOf_bind {r : Rule} {f : Namespace → Attempt σ α}
    (h : ∀ ns, Entering (f ns).run) : Entering (c.namespaceOf r target >>= f).run := by
  unfold Context.namespaceOf
  rw [bind_assoc]
  exact .orThrow_bind fun _ => .orThrow_bind h

/-- A rule changes the table of failures only as its engine does. -/
theorem Rule.entering_apply (hc : c.engine.OnlyEnters) (target : Path) (r : Rule) :
    Entering (r.apply c target).run := by
  cases r with
  | executableTags format =>
    simp only [Rule.apply, Context.tagExecutable]
    split
    · exact .attempt_bind (.lift (hc.attach _ _)) fun _ => .attempt_pure _
    · exact .attempt_pure _
  | depends kind =>
    refine .orThrow_bind fun _ => .orThrow_bind fun source => .orThrow_bind fun file => ?_
    refine .attempt_bind (.lift (hc.tags _)) fun _ => .attempt_bind (c.entering_analyze _ _) fun _ => ?_
    exact c.entering_writeOutput _ _
  | link kind =>
    refine .orThrow_bind fun file => .attempt_bind (Context.entering_requireAll hc _) fun _ => ?_
    refine .attempt_bind (.lift (hc.tags _)) fun _ => .attempt_bind (.lift (hc.attach _ _)) fun _ => ?_
    exact .orThrow_bind fun name => .attempt_bind (.attempt_onDisk _ _) fun _ => .attempt_pure _
  | stamp =>
    refine Context.entering_namespaceOf_bind fun ns => ?_
    refine .attempt_bind (Context.entering_requireAll hc _) fun _ => .attempt_bind .attempt_disk fun d => ?_
    split
    · exact c.entering_writeOutput _ _
    · exact .throw _
  | aliases => exact Context.entering_namespaceOf_bind fun ns => c.entering_writeOutput _ _
  | root =>
    refine .orThrow_bind fun root => Context.entering_namespaceOf_bind fun ns => ?_
    refine .attempt_bind .attempt_disk fun d => ?_
    split
    · exact c.entering_writeOutput _ _
    · exact .throw _
  | manifest =>
    refine .orThrow_bind fun root => .orThrow_bind fun ns => .orThrow_bind fun members => ?_
    refine .attempt_bind (Context.entering_requireAll hc _) fun _ => .attempt_bind .attempt_disk fun d => ?_
    split
    · exact c.entering_writeOutput _ _
    · exact .throw _
  | plainDepends =>
    refine .orThrow_bind fun source => .attempt_bind (.lift (hc.tags _)) fun _ => ?_
    refine .attempt_bind (c.entering_analyze _ _) fun _ => ?_
    exact .attempt_bind (.attempt_onDisk _ _) fun _ => .attempt_pure _

/-- So does the dispatch of an attempt. -/
theorem Entering.dispatch (he : ∀ batches, Entering (e.build batches)) (h : Entering attempt.run)
    (target : Path) : Entering (e.dispatch target attempt) := by
  refine .bind h fun result _ _ _ => ?_
  split
  · exact .pure _
  · exact .bind (.signal he _ _) fun _ _ _ _ => .pure _
  · split
    · exact .bind (.signal he _ _) fun _ _ _ _ => .pure _
    · exact .pure _

end Rules

theorem Local.onlyEnters_engine (p : Project) : (Local.engine p).OnlyEnters where
  build := entering_engine p
  tags _ := .bind (.bind .get fun _ _ _ _ => .pure _) fun _ _ _ _ => .pure _
  attach path tags := .modifyOwn fun own : LocalState =>
    { own with attached := attachTags path tags own.attached }

/-- The scripted engine does not go to the table at all. -/
theorem Script.onlyEnters_engine (s : Script) : s.engine.OnlyEnters where
  build batches := by
    have reply (q : Path) : Entering (s.reply q) := by
      unfold Script.reply
      split
      · exact .pure _
      · exact .bind (.newFailure _ _) fun _ _ _ _ => .pure _
      · exact .bind (.newFailure _ _) fun _ _ _ _ => .pure _
    refine .bind (.modifyOwn _) fun _ _ _ _ => ?_
    split
    · exact .pure _
    · exact .mapM (fun targets => .firstBuilt reply targets) batches
  tags path := .bind (.bind .get fun _ _ _ _ => .pure _) fun _ _ _ _ => .pure _
  attach path tags := .modifyOwn fun own : ScriptState =>
    { own with attached := attachTags path tags own.attached }

/-! ### The same reason again -/

/-- Whether a failure answers all attempts from now on that leave a target to others for a reason,
whatever went to the table in the meantime: by any engine, and in the world that the attempt leaves, so
that the engine is asked for nothing. -/
def SettledFor (target : Path) (reason : String) (f : Failure) (w : World σ) : Prop :=
  ∀ (between : Work σ Unit) (attempt : Attempt σ Applied) (w₁ : World σ) result (w₂ : World σ),
    Entering between → between w = some ((), w₁) →
    Entering attempt.run → attempt.run w₁ = some (result, w₂) → LeavesFor result reason →
    ∀ e : Engine σ, e.dispatch target attempt w₁ = some (.error (.inapplicable f), w₂)

/-- What is kept for a reason is still there when a later attempt has come to its end. -/
theorem settledFor_of_kept (kept : w.failures.get? (signalKey target reason) = some f) :
    SettledFor target reason f w := by
  intro between attempt w₁ result w₂ enters passed enters' tried leaves e
  -- neither what passed in between nor the attempt takes it out of the table
  have known₁ := enters.keptIn passed _ _ kept
  have known₂ := enters'.keptIn tried _ _ known₁
  rw [dispatch_of_reason tried (leavesFor_iff.1 leaves), Engine.signal_of_kept known₂]
  rfl

/-! ### The two kinds of failure -/

/-- Whatever a rule does: what it built comes through, and so does an error that is final, in the world
that the rule leaves and without the engine being asked.  There is a signal if, and only if, the rule
leaves the target to others; it is the failure that is then kept under the key of target and reason,
the one that the rule left there itself if there is one.  From then on that failure is the answer to
every rule that leaves the target for this reason. -/
theorem Engine.failures_kept_apart (e : Engine σ) (target : Path) (attempt : Attempt σ Applied)
    (w : World σ) :
    (∀ path w', e.dispatch target attempt w = some (.ok path, w') ↔
      attempt.run w = some (.ok (.built path), w')) ∧
    (∀ err w', e.dispatch target attempt w = some (.error (.rule err), w') ↔
      attempt.run w = some (.error err, w') ∧ ¬ ∃ reason, LeavesFor (.error err) reason) ∧
    (∀ result w', attempt.run w = some (result, w') → (¬ ∃ reason, LeavesFor result reason) →
      ∃ answer, ∀ build,
        { e with build := build }.dispatch target attempt w = some (answer, w')) ∧
    ((∃ f w', e.dispatch target attempt w = some (.error (.inapplicable f), w')) ↔
      ∃ result w₁ reason, attempt.run w = some (result, w₁) ∧ LeavesFor result reason ∧
        (w₁.failures.get? (signalKey target reason) = none →
          ∃ answer, e.build [[⟨signalKey target reason⟩]] w₁ = some answer)) ∧
    ∀ f w', e.dispatch target attempt w = some (.error (.inapplicable f), w') →
      ∃ result w₁ reason, attempt.run w = some (result, w₁) ∧ LeavesFor result reason ∧
        (∀ g, w₁.failures.get? (signalKey target reason) = some g → f = g ∧ w' = w₁) ∧
        w'.failures.get? (signalKey target reason) = some f ∧
        SettledFor target reason f w' := by
  refine ⟨fun path w' => dispatch_eq_ok, fun err w' => ?_, fun result w' tried stays => ?_, ?_,
    fun f w' run => ?_⟩
  · rw [dispatch_eq_rule, reason?_eq_none_iff]
  · rcases attempt_cases result with ⟨path, rfl⟩ | ⟨err, rfl, final⟩ | ⟨reason, because⟩
    · exact ⟨_, fun build => dispatch_of_built tried⟩
    · exact ⟨_, fun build => dispatch_of_final tried final⟩
    · exact absurd ⟨reason, leavesFor_iff.2 because⟩ stays
  · simp only [dispatch_eq_inapplicable, ← leavesFor_iff]
    constructor
    · rintro ⟨f, w', result, w₁, reason, tried, leaves, signal⟩
      exact ⟨result, w₁, reason, tried, leaves, exists_signal_iff.1 ⟨f, w', signal⟩⟩
    · rintro ⟨result, w₁, reason, tried, leaves, answers⟩
      obtain ⟨f, w', signal⟩ := exists_signal_iff.2 answers
      exact ⟨f, w', result, w₁, reason, tried, leaves, signal⟩
  · obtain ⟨result, w₁, reason, tried, because, signal⟩ := dispatch_eq_inapplicable.1 run
    have kept := get?_of_signal signal
    refine ⟨result, w₁, reason, tried, leavesFor_iff.2 because, fun g known => ?_, kept,
      settledFor_of_kept kept⟩
    exact Prod.mk.inj (Option.some.inj (signal.symm.trans (signal_of_kept known)))

open Context (scripted taggedWorld) in
set_option maxRecDepth 100000 in
/-- The digest of a directory that is not there, tried twice with another target in between: the second
time the answer is the same failure, and nothing more is asked for.  The link of a source that was not
built fails for good, whatever the engine would build. -/
theorem Engine.failures_kept_apart_smallDisk :
    let target : Path := ⟨"lib/bar.stamp"⟩
    let other : Path := ⟨"lib/foo/foo__b.ml"⟩
    let linked : Path := ⟨"lib/foo/foo__a.ml"⟩
    let source : Path := ⟨"lib/foo/a.ml"⟩
    let c := scripted [] false
    let attempt (r : Rule) (q : Path) : Attempt ScriptState Applied := r.apply c q
    (∃ f w₁ g w₂,
      c.engine.dispatch target (attempt .stamp target) taggedWorld =
        some (.error (.inapplicable f), w₁) ∧
      w₁.failures.get? (signalKey target "not a namespace") = some f ∧
      c.engine.dispatch other (attempt (.link .implementation) other) w₁ =
        some (.error (.inapplicable g), w₂) ∧
      c.engine.dispatch target (attempt .stamp target) w₂ = some (.error (.inapplicable f), w₂) ∧
      w₂.own.requests = [[[⟨signalKey target "not a namespace"⟩]],
        [[⟨signalKey other "not a namespaced file"⟩]]]) ∧
    ∃ f w₁, (∀ build, { c.engine with build := build }.dispatch linked
          (attempt (.link .implementation) linked) taggedWorld =
        some (.error (.rule (.dependencyFailed source f)), w₁)) ∧
      w₁.failures = .empty ∧ w₁.own.requests = [[[source]]] := by
  intro target other linked source c attempt
  have enters (r : Rule) (q : Path) : Entering (attempt r q).run :=
    Rule.entering_apply (Script.onlyEnters_engine _) q r
  have noNamespace (w : World ScriptState) :
      (attempt .stamp target).run w = some (.error (.notANamespace ⟨"lib/bar"⟩), w) := by
    have stem : Rule.stamp.product.stem? target = some "lib/bar" := by decide +kernel
    have missing : c.metadata.namespaceOfRoot? ⟨"lib/bar"⟩ = none := by decide +kernel
    refine Attempt.bind_of_error ?_
    rw [Context.namespaceOf, stem, Attempt.bind_of_ok (Attempt.orThrow_some_run _ _), missing]
    rfl
  have noFile (w : World ScriptState) : (attempt (.link .implementation) other).run w =
      some (.error (.notNamespacedFile other), w) := by
    have missing : c.metadata.fileOfKind? .implementation other = none := by decide +kernel
    refine Attempt.bind_of_error ?_
    rw [missing]
    rfl
  constructor
  · obtain ⟨-, -, -, signals, answers⟩ :=
      Engine.failures_kept_apart c.engine target (attempt .stamp target) taggedWorld
    obtain ⟨f, w₁, first⟩ := signals.2 ⟨_, _, _, noNamespace _, .notANamespace _, fun _ => ⟨_, rfl⟩⟩
    obtain ⟨result, v, reason, run, leaves, -, kept, settled⟩ := answers f w₁ first
    obtain ⟨rfl, rfl⟩ := Prod.mk.inj (Option.some.inj (run.symm.trans (noNamespace _)))
    cases leaves
    obtain ⟨-, -, -, signals', -⟩ :=
      Engine.failures_kept_apart c.engine other (attempt (.link .implementation) other) w₁
    obtain ⟨g, w₂, second⟩ :=
      signals'.2 ⟨_, _, _, noFile _, .notNamespacedFile _, fun _ => ⟨_, rfl⟩⟩
    have between : Entering (do
        let _ ← c.engine.dispatch other (attempt (.link .implementation) other)) :=
      .bind (.dispatch (Script.onlyEnters_engine _).build (enters _ _) _) fun _ _ _ _ => .pure _
    have third := settled _ _ w₂ _ w₂ between ((Work.bind_of_eq_some second).trans rfl)
      (enters .stamp target) (noNamespace w₂) (.notANamespace _) c.engine
    have requests : ((c.engine.dispatch target (attempt .stamp target) >>= fun _ =>
        c.engine.dispatch other (attempt (.link .implementation) other)) taggedWorld).any
          (fun x => x.2.own.requests == [[[⟨signalKey target "not a namespace"⟩]],
            [[⟨signalKey other "not a namespaced file"⟩]]]) = true := by
      decide +kernel
    rw [Work.bind_of_eq_some first, second] at requests
    exact ⟨f, w₁, g, w₂, first, kept, second, third, by simpa using requests⟩
  · have required : c.required? linked (.link .implementation) = some [source] := by decide +kernel
    obtain ⟨f, w₁, asked, failures, requests⟩ :
        ∃ f w₁, c.engine.build [[source]] taggedWorld = some ([.error f], w₁) ∧
          w₁.failures = .empty ∧ w₁.own.requests = [[[source]]] := ⟨_, _, rfl, rfl, rfl⟩
    have failed := Context.apply_of_failed (.link .implementation) required asked rfl
    refine ⟨f, w₁, fun build => ?_, failures, requests⟩
    obtain ⟨-, final, -⟩ := Engine.failures_kept_apart { c.engine with build := build } linked
      (attempt (.link .implementation) linked) taggedWorld
    exact (final _ _).2 ⟨failed, fun ⟨reason, leaves⟩ => by cases leaves⟩

end FlatModules
