import FlatModules.Proofs.Build.Asks
import FlatModules.Proofs.Disk.Failing

/-!
# Build — what steps keep

What all that is asked for keeps of the disk, a target keeps that is not built (`keeps_tryRules`): rules
touch the disk only as their last step, and so does copying.  So nothing is left of a rule that fails
but what its last step leaves when it fails (`Disk.FailsKeeping`).
-/

namespace FlatModules

namespace Local

variable {p : Project} {q : Path} {I : Disk → Prop} {α β : Type} {build : Path → Step Outcome}

/-- A step that keeps a property of the disk wherever its result is of a kind. -/
def Preserves (I : Disk → Prop) (kind : α → Prop) (m : Step α) : Prop :=
  ∀ w x w', m w = some (x, w') → kind x → I w.disk → I w'.disk

/-- A step that keeps a property of the disk. -/
abbrev PreservesAll (I : Disk → Prop) (m : Step α) : Prop := Preserves I (fun _ => True) m

namespace Preserves

variable {kind : α → Prop} {K : β → Prop}

theorem quiet {m : Step α} (h : ∀ w x w', m w = some (x, w') → w'.disk = w.disk) : Preserves I kind m :=
  fun w x w' run _ start => h w x w' run ▸ start

theorem pure (x : α) : Preserves I kind (pure x) :=
  quiet fun _ _ _ run => by
    obtain ⟨-, rfl⟩ := Prod.mk.inj (Option.some.inj run)
    rfl

/-- The result of the steps after counts. -/
theorem bind_of_run {m : Step α} {f : α → Step β} (h : PreservesAll I m)
    (hf : ∀ x w w', m w = some (x, w') → Preserves I K (f x)) : Preserves I K (m >>= f) := by
  intro w y w' run own start
  obtain ⟨x, w₁, first, rest⟩ := Work.bind_eq_some.1 run
  exact hf x w w₁ first w₁ y w' rest own (h w x w₁ first trivial start)

theorem bind {m : Step α} {f : α → Step β} (h : PreservesAll I m) (hf : ∀ x, Preserves I K (f x)) :
    Preserves I K (m >>= f) :=
  bind_of_run h fun x _ _ _ => hf x

theorem get {kind : World LocalState → Prop} : Preserves I kind (get : Step (World LocalState)) :=
  quiet fun _ _ _ run => by
    obtain ⟨-, rfl⟩ := Prod.mk.inj (Option.some.inj run)
    rfl

theorem newFailure {kind : Failure → Prop} (target : Path) (message : String) :
    Preserves I kind (Work.newFailure target message) :=
  quiet fun _ _ _ run => by
    obtain ⟨-, rfl⟩ := Prod.mk.inj (Option.some.inj run)
    rfl

theorem noteRun (arguments : Option (List String)) : PreservesAll I (Work.noteRun arguments) :=
  quiet fun _ _ _ run => by
    obtain ⟨-, rfl⟩ := Prod.mk.inj (Option.some.inj run)
    rfl

theorem markHard (target : Path) : PreservesAll I (markHard target) :=
  quiet fun _ _ _ run => by
    obtain ⟨-, rfl⟩ := Prod.mk.inj (Option.some.inj run)
    rfl

theorem attach (tags : Tags) : PreservesAll I ((engineOf p build).attach q tags) :=
  quiet fun _ _ _ run => by
    obtain ⟨-, rfl⟩ := Prod.mk.inj (Option.some.inj run)
    rfl

theorem keepFailure (key : String) (failure : Failure) : PreservesAll I (keepFailure key failure) :=
  quiet fun _ _ _ run => by
    obtain ⟨-, rfl⟩ := Prod.mk.inj (Option.some.inj run)
    rfl

theorem isHard (failure : Failure) : PreservesAll I (isHard failure) :=
  (get.bind fun _ => pure _).bind fun _ => pure _

theorem tags (path : Path) : PreservesAll I ((engineOf p build).tags path) :=
  (get.bind fun _ => pure _).bind fun _ => pure _

/-- A step on the disk. -/
theorem onDisk {kind : Except DiskError Unit → Prop} {step : DiskM Unit}
    (h : ∀ d, kind (step.run.run d).1 → I d → I (step.run.run d).2) :
    Preserves I kind (Work.onDisk step) := by
  intro w y w' run own start
  rw [Work.onDisk_run] at run
  obtain ⟨rfl, rfl⟩ := Prod.mk.inj (Option.some.inj run)
  exact h w.disk own start

/-! ### Steps of a rule -/

theorem attempt_bind {m : Attempt LocalState α} {f : α → Attempt LocalState β}
    {kind : Except RuleError β → Prop} (h : PreservesAll I m.run) (hf : ∀ x, Preserves I kind (f x).run) :
    Preserves I kind (m >>= f).run := by
  rw [ExceptT.run_bind]
  refine h.bind fun result => ?_
  cases result with
  | ok x => exact hf x
  | error e => exact pure _

theorem throw {kind : Except RuleError α → Prop} (e : RuleError) :
    Preserves I kind (throw e : Attempt LocalState α).run := pure _

theorem lift {m : Step α} (h : PreservesAll I m) :
    PreservesAll I (liftM m : Attempt LocalState α).run := by
  intro w y w' run _
  rw [Attempt.lift_run] at run
  obtain ⟨⟨x, w₁⟩, run', same⟩ := Option.map_eq_some_iff.1 run
  obtain ⟨-, rfl⟩ := Prod.mk.inj same
  exact h w x w₁ run' trivial

theorem orThrow_bind {value? : Option α} {e : RuleError} {f : α → Attempt LocalState β}
    {kind : Except RuleError β → Prop} (h : ∀ x, value? = some x → Preserves I kind (f x).run) :
    Preserves I kind (FlatModules.orThrow value? e >>= f).run := by
  cases value? with
  | none => exact pure _
  | some x => exact h x rfl

theorem disk : PreservesAll I (Attempt.disk : Attempt LocalState Disk).run :=
  attempt_bind (lift get) fun _ => pure _

theorem analyze (file : Path) (tags : Tags) :
    PreservesAll I ((contextOf p build).analyze file tags).run := by
  refine attempt_bind disk fun d => ?_
  refine attempt_bind (lift (noteRun _)) fun _ => ?_
  split
  · exact pure _
  · exact throw _

end Preserves

/-! ### Steps that keep whatever is kept by what they ask for -/

/-- What all changes for a target keep, its rules keep. -/
theorem Preserves.parallel (touch : ∀ step, Touches p q step → ∀ d, I d → I (step.run.run d).2) :
    Parallel p q fun _ m _ => PreservesAll I m where
  pure := Preserves.pure
  bind := Preserves.bind_of_run
  get := .get
  fail := .newFailure
  disk touches := .onDisk fun d _ => touch _ touches d
  run _ := .noteRun
  attach _ _ := .attach
  keep := .keepFailure

theorem Preserves.final (touch : ∀ step, Touches p q step → ∀ d, I d → I (step.run.run d).2) :
    Final p q (fun _ m _ => PreservesAll I m) fun m _ => PreservesAll I m where
  bind := Preserves.bind_of_run
  done := .pure
  fail message := (Preserves.markHard q).bind fun _ => (Preserves.newFailure _ _).bind fun _ => .pure _
  copy _ _ _ := by
    refine Preserves.bind (Preserves.get.bind fun w => ?_) fun outcome => ?_
    · split
      · refine (Preserves.onDisk fun d _ => touch _ .copy d).bind fun copied => ?_
        split
        · exact .pure _
        · exact (Preserves.markHard q).bind fun _ => (Preserves.newFailure _ _).bind fun _ => .pure _
      · exact (Preserves.newFailure _ _).bind fun _ => .pure _
    · split <;> exact .pure _

/-! ### Steps that fail -/

/-- Results of rules that built nothing. -/
def Unbuilt (result : Except RuleError Applied) : Prop := ∀ path, result ≠ .ok (.built path)

/-- Outcomes without what was asked for. -/
def Failed (o : Outcome) : Prop := ∃ f, o = .error f

namespace Preserves

theorem namespaceOf_bind {r : Rule} {f : Namespace → Attempt LocalState α}
    {kind : Except RuleError α → Prop} (h : ∀ root ns, r.product.stem? q = some root →
      p.metadata.namespaceOfRoot? ⟨root⟩ = some ns → Preserves I kind (f ns).run) :
    Preserves I kind ((contextOf p build).namespaceOf r q >>= f).run := by
  unfold Context.namespaceOf
  rw [bind_assoc]
  exact orThrow_bind fun root hr => orThrow_bind fun ns hn => h root ns hr hn

section Own

variable (asks : ∀ r, Asks p q r → PreservesAll I (build r))

/-- The last step of a rule. -/
theorem touch {step : DiskM Unit} (h : Disk.FailsKeeping I step) (path : Path) :
    Preserves I Unbuilt
      (do Attempt.onDisk path step; return .built q : Attempt LocalState Applied).run := by
  intro w result w' run unbuilt start
  cases done : (step.run.run w.disk).1 with
  | ok =>
    rw [Attempt.bind_of_ok (Attempt.onDisk_run_ok (Prod.ext done rfl) path)] at run
    obtain ⟨rfl, -⟩ := Prod.mk.inj (Option.some.inj run)
    exact absurd rfl (unbuilt q)
  | error e =>
    rw [Attempt.bind_of_error (Attempt.onDisk_run_error (Prod.ext done rfl) path)] at run
    obtain ⟨-, rfl⟩ := Prod.mk.inj (Option.some.inj run)
    exact h w.disk e _ start (Prod.ext done rfl)

include asks

theorem batches {batches : List (List Path)} (h : ∀ targets ∈ batches, ∀ r ∈ targets, Asks p q r) :
    PreservesAll I ((engineOf p build).build batches) := by
  have firstBuilt {targets : List Path} (h : ∀ r ∈ targets, Asks p q r) :
      PreservesAll I (firstBuilt build targets) := by
    induction targets with
    | nil => exact (newFailure _ _).bind fun _ => pure _
    | cons r rest ih =>
      have head := asks r (h r List.mem_cons_self)
      have tail := ih fun r hr => h r (List.mem_cons_of_mem _ hr)
      cases rest with
      | nil => exact head
      | cons r' rest =>
        refine head.bind fun outcome => ?_
        cases outcome with
        | ok path => exact pure _
        | error failure => exact tail
  change PreservesAll I (batches.mapM (FlatModules.firstBuilt build))
  induction batches with
  | nil => exact pure _
  | cons targets batches ih =>
    rw [List.mapM_cons]
    refine (firstBuilt (h targets List.mem_cons_self)).bind fun _ => ?_
    exact (ih fun ts hts => h ts (List.mem_cons_of_mem _ hts)).bind fun _ => pure _

theorem requireAll {targets : List Path} (h : ∀ r ∈ targets, Asks p q r) :
    PreservesAll I ((contextOf p build).requireAll targets).run := by
  refine attempt_bind (lift (batches asks ?_)) fun outcomes => ?_
  · simpa using h
  · split
    · exact throw _
    · exact pure _

theorem signal {message : String} (h : Asks p q ⟨signalKey q message⟩) :
    PreservesAll I ((engineOf p build).signal q message) := by
  refine get.bind fun w => ?_
  split
  · exact pure _
  · refine (batches asks (by simpa using h)).bind fun outcomes => ?_
    dsimp only
    split
    · exact (pure _).bind fun failure => keepFailure _ failure
    · exact (newFailure _ _).bind fun failure => keepFailure _ failure

end Own

end Preserves

/-- A rule that builds nothing leaves what its last step leaves if that fails. -/
theorem preserves_apply (asks : ∀ r, Asks p q r → PreservesAll I (build r))
    (fails : ∀ step, Touches p q step → Disk.FailsKeeping I step) {r : Rule} {stem : String}
    (hs : r.product.stem? q = some stem) :
    Preserves I Unbuilt (r.apply (contextOf p build) q).run := by
  have writeOutput (content : String) :
      Preserves I Unbuilt ((contextOf p build).writeOutput q content).run :=
    .touch (fails _ (.save _)) _
  cases r with
  | executableTags format =>
    simp only [Rule.apply, Context.tagExecutable]
    split
    · exact Preserves.attempt_bind (.lift (.attach _)) fun _ => .pure _
    · exact .pure _
  | depends kind =>
    refine Preserves.orThrow_bind fun _ _ => Preserves.orThrow_bind fun source _ => ?_
    refine Preserves.orThrow_bind fun file _ => Preserves.attempt_bind (.lift (.tags _)) fun _ => ?_
    exact Preserves.attempt_bind (.analyze _ _) fun _ => writeOutput _
  | link kind =>
    refine Preserves.orThrow_bind fun file hf => Preserves.attempt_bind (.requireAll asks ?_) fun _ => ?_
    · simpa using .real hs hf
    · refine Preserves.attempt_bind (.lift (.tags _)) fun _ => ?_
      refine Preserves.attempt_bind (.lift (.attach _)) fun _ => Preserves.orThrow_bind fun name hn => ?_
      exact .touch (fails _ (.link (Metadata.fileAt?_of_fileOfKind? hf).1 hn)) _
  | stamp =>
    refine Preserves.namespaceOf_bind (p := p) fun root ns hr hn => ?_
    refine Preserves.attempt_bind (.requireAll asks fun c hc => .closure hr hn hc) fun _ => ?_
    refine Preserves.attempt_bind .disk fun d => ?_
    split
    · exact writeOutput _
    · exact .throw _
  | aliases => exact Preserves.namespaceOf_bind fun _ _ _ _ => writeOutput _
  | root =>
    refine Preserves.orThrow_bind fun root _ => Preserves.namespaceOf_bind fun _ _ _ _ => ?_
    refine Preserves.attempt_bind .disk fun d => ?_
    split
    · exact writeOutput _
    · exact .throw _
  | manifest =>
    refine Preserves.orThrow_bind fun root hr => Preserves.orThrow_bind fun ns hn => ?_
    refine Preserves.orThrow_bind fun members hm => ?_
    refine Preserves.attempt_bind (.requireAll asks ?_) fun _ => ?_
    · simpa using fun x hx => .library hr hn hm hx
    · refine Preserves.attempt_bind .disk fun d => ?_
      split
      · exact writeOutput _
      · exact .throw _
  | plainDepends =>
    refine Preserves.orThrow_bind fun source _ => Preserves.attempt_bind (.lift (.tags _)) fun _ => ?_
    exact Preserves.attempt_bind (.analyze _ _) fun _ => .touch (fails _ (.write _)) _

/-- A rule that is tried and builds nothing leaves what it asks for leaves. -/
theorem preserves_dispatch (asks : ∀ r, Asks p q r → PreservesAll I (build r)) {r : Rule} {stem : String}
    (fails : ∀ step, Touches p q step → Disk.FailsKeeping I step) (hs : r.product.stem? q = some stem) :
    Preserves I (fun result => ∀ path, result ≠ .ok path)
      ((engineOf p build).dispatch q (r.apply (contextOf p build) q)) := by
  intro w result w' run unbuilt start
  obtain ⟨applied, w₁, first, rest⟩ := Work.bind_eq_some.1 run
  have kept := preserves_apply asks fails hs w applied w₁ first
  have signal {reason : String} (because : reason ∈ reasons)
      (rest : (do return .error (.inapplicable (← (engineOf p build).signal q reason)) :
        Step (Except DispatchError Path)) w₁ = some (result, w')) (start : I w₁.disk) : I w'.disk :=
    (Preserves.signal asks (.signal hs because)).bind (K := fun _ => True)
      (fun _ => .pure _) _ _ _ rest trivial start
  cases applied with
  | ok done =>
    cases done with
    | built path =>
      obtain ⟨rfl, -⟩ := Prod.mk.inj (Option.some.inj rest)
      exact absurd rfl (unbuilt path)
    | inapplicable reason =>
      exact signal (Reasoned.apply _ _ _ _ _ _ first) rest (kept (by simp [Unbuilt]) start)
  | error e =>
    have start' := kept (by simp [Unbuilt]) start
    cases because : e.reason? with
    | some reason =>
      simp only [because] at rest
      exact signal (reason_mem_of_error because) rest start'
    | none =>
      simp only [because] at rest
      obtain ⟨-, rfl⟩ := Prod.mk.inj (Option.some.inj rest)
      exact start'

/-- Copying what cannot be copied leaves what it leaves when it fails. -/
theorem preserves_copySource (fails : Disk.FailsKeeping I do
      DiskM.makeParents (p.buildDir / q)
      DiskM.copy (p.root / q) (p.buildDir / q)) : Preserves I Failed (copySource p q) := by
  refine Preserves.get.bind fun w => ?_
  split
  · intro w o w' run failed start
    obtain ⟨copied, w₁, first, rest⟩ := Work.bind_eq_some.1 run
    rw [Work.onDisk_run] at first
    obtain ⟨same, rfl⟩ := Prod.mk.inj (Option.some.inj first)
    cases copied with
    | ok =>
      obtain ⟨rfl, -⟩ := Prod.mk.inj (Option.some.inj rest)
      obtain ⟨f, other⟩ := failed
      cases other
    | error e =>
      have stays := (Preserves.markHard (I := I) q).bind (K := fun _ => True) fun _ =>
        (Preserves.newFailure q ("failed to copy source: " ++ e.message)).bind fun f =>
          .pure (Except.error f : Outcome)
      exact stays _ _ _ rest trivial (fails w.disk e _ start (Prod.ext same rfl))
  · exact (Preserves.newFailure _ _).bind fun _ => .pure _

/-- A target that fails leaves what all that it asks for leaves, and what its own steps leave when they
fail. -/
theorem preserves_tryRules (asks : ∀ r, Asks p q r → PreservesAll I (build r))
    (fails : ∀ (r : Rule) (stem : String), r.product.stem? q = some stem →
      ∀ step, Touches p q step → Disk.FailsKeeping I step)
    (copy : Disk.FailsKeeping I do
      DiskM.makeParents (p.buildDir / q)
      DiskM.copy (p.root / q) (p.buildDir / q)) (rules : List Rule) (blocked : Option Failure) :
    Preserves I Failed (tryRules p (engineOf p build) q rules blocked) := by
  induction rules generalizing blocked with
  | nil =>
    intro w o w' run failed start
    obtain ⟨outcome, w₁, first, rest⟩ := Work.bind_eq_some.1 run
    have kept := preserves_copySource copy w outcome w₁ first
    split at rest
    · obtain ⟨-, rfl⟩ := Prod.mk.inj (Option.some.inj rest)
      exact kept ⟨_, rfl⟩ start
    · obtain ⟨rfl, rfl⟩ := Prod.mk.inj (Option.some.inj rest)
      exact kept failed start
  | cons r rest ih =>
    unfold tryRules
    split
    case h_1 => exact ih _
    case h_2 stem hs =>
      refine (Preserves.batches asks ?_).bind fun outcomes => ?_
      · simpa using fun d hd => .dependency hs hd
      dsimp only
      split
      · refine Preserves.bind (Preserves.isHard _) fun hard => ?_
        split <;> exact ih _
      · intro w o w' run failed start
        obtain ⟨result, w₁, first, rest⟩ := Work.bind_eq_some.1 run
        have kept := preserves_dispatch asks (fails r stem hs) hs w result w₁ first
        cases result with
        | ok path =>
          obtain ⟨rfl, -⟩ := Prod.mk.inj (Option.some.inj rest)
          obtain ⟨f, other⟩ := failed
          cases other
        | error e =>
          have start' := kept (by simp) start
          cases e with
          | inapplicable reason => exact ih _ _ _ _ rest failed start'
          | rule e =>
            have stays := (Preserves.markHard (I := I) q).bind (K := fun _ => True) fun _ =>
              (Preserves.newFailure q (r.name ++ ": " ++ e.message)).bind fun f =>
                .pure (Except.error f : Outcome)
            exact stays _ _ _ rest trivial start'

end Local
end FlatModules
