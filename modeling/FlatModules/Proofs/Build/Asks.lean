import Mathlib.Data.Set.Finite.Lattice
import Mathlib.Data.Set.Finite.List
import Mathlib.Logic.Relation
import FlatModules.Proofs.Build.Course

/-!
# Build — what a target asks for

While a target is built the engine asks for others: for what a rule declares, for what a rule finds
in the metadata, and for the signal that a rule does not apply (`Local.Asks`).  Whatever relates two
steps, and is kept by all that rules do by themselves (`Parallel`), relates the building of a target
under two engines that it relates at these others (`Parallel.final_tryRules`).  So what a build comes
to does not hang on the bound of its depth (`buildWithin_mono`), and its course is one of the targets
that the request leads to (`buildWithin_asks`).
-/

namespace FlatModules

namespace Local

variable {p : Project} {q : Path}

/-- The reasons for which rules leave a target to others. -/
def reasons : List String := ["executable libraries tagged", "not a namespace",
  "not a namespaced file", "not a library namespace"]

theorem noSlash_reasons : ∀ m ∈ reasons, '/' ∉ m.toList := by decide

/-- The targets that the engine asks for while it builds a target. -/
inductive Asks (p : Project) (q : Path) : Path → Prop
  | dependency {r : Rule} {stem : String} {d : Pattern} (hs : r.product.stem? q = some stem)
      (hd : d ∈ r.dependencies) : Asks p q (d.fill stem)
  | signal {r : Rule} {stem message : String} (hs : r.product.stem? q = some stem)
      (hm : message ∈ reasons) : Asks p q ⟨signalKey q message⟩
  | real {kind : SourceKind} {stem : String} {f : NamespacedFile}
      (hs : (Rule.link kind).product.stem? q = some stem)
      (hf : p.metadata.fileOfKind? kind q = some f) : Asks p q f.realPath
  | closure {root : String} {ns : Namespace} {c : Path} (hs : Rule.stamp.product.stem? q = some root)
      (hn : p.metadata.namespaceOfRoot? ⟨root⟩ = some ns) (hc : c ∈ p.metadata.closure ns) :
      Asks p q c
  | library {root : String} {ns : Namespace} {members : List String} {x : String}
      (hs : Rule.manifest.product.stem? q = some root)
      (hn : p.metadata.namespaceOfRoot? ⟨root⟩ = some ns)
      (hm : p.metadata.libraryMembers? ns = some members) (hx : x ∈ members) :
      Asks p q (memberDepends x)

/-! ### The reasons of rules -/

theorem reason_mem_of_error {e : RuleError} {reason : String} (h : e.reason? = some reason) :
    reason ∈ reasons := by
  cases e <;> simp [RuleError.reason?] at h <;> simp [reasons, ← h]

/-- An attempt that leaves a target to others for one of the reasons, if it does so. -/
def Reasoned (m : Attempt LocalState Applied) : Prop :=
  ∀ w reason w', m.run w = some (.ok (.inapplicable reason), w') → reason ∈ reasons

namespace Reasoned

variable {α : Type}

theorem bind {m : Attempt LocalState α} {f : α → Attempt LocalState Applied}
    (h : ∀ x, Reasoned (f x)) : Reasoned (m >>= f) := by
  intro w reason w' run
  rcases Attempt.bind_eq_some.1 run with ⟨x, w₁, -, run⟩ | ⟨e, w₁, -, same⟩
  · exact h x w₁ reason w' run
  · simp at same

theorem built (path : Path) : Reasoned (pure (.built path)) := by
  intro w reason w' run
  simp at run

theorem throw (e : RuleError) : Reasoned (throw e : Attempt LocalState Applied) := by
  intro w reason w' run
  simp at run

theorem writeOutput (c : Context LocalState) (target : Path) (content : String) :
    Reasoned (c.writeOutput target content) :=
  bind fun _ => built _

theorem apply (c : Context LocalState) (target : Path) (r : Rule) : Reasoned (r.apply c target) := by
  cases r with
  | executableTags format =>
    have left : Reasoned (pure (.inapplicable "executable libraries tagged")) := by
      intro w reason w' run
      rw [Attempt.pure_run] at run
      obtain rfl : "executable libraries tagged" = reason := by simpa using (Prod.mk.inj (Option.some.inj run)).1
      simp [reasons]
    simp only [Rule.apply, Context.tagExecutable]
    split
    · exact bind fun _ => left
    · exact left
  | depends kind =>
    exact bind fun _ => bind fun _ => bind fun _ => bind fun _ => bind fun _ => writeOutput _ _ _
  | link kind =>
    exact bind fun _ => bind fun _ => bind fun _ => bind fun _ => bind fun _ => bind fun _ => built _
  | stamp =>
    refine bind fun _ => bind fun _ => bind fun _ => ?_
    split
    · exact writeOutput _ _ _
    · exact throw _
  | aliases => exact bind fun _ => writeOutput _ _ _
  | root =>
    refine bind fun _ => bind fun _ => bind fun _ => ?_
    split
    · exact writeOutput _ _ _
    · exact throw _
  | manifest =>
    refine bind fun _ => bind fun _ => bind fun _ => bind fun _ => bind fun _ => ?_
    split
    · exact writeOutput _ _ _
    · exact throw _
  | plainDepends => exact bind fun _ => bind fun _ => bind fun _ => bind fun _ => built _

end Reasoned

/-! ### Steps side by side -/

/-- Keeps a failure under a key, and gives the one that is kept. -/
def keepFailure (key : String) (failure : Failure) : Step Failure := do
  let w ← get
  let failures := w.failures.insert key failure
  set { w with failures := failures }
  return (failures.get? key).getD failure

/-- A relation between steps that holds of all that rules do for a target by themselves but for signals,
and of steps one after the other. -/
structure Alongside (p : Project) (q : Path) (R : (α : Type) → Step α → Step α → Prop) : Prop where
  pure : ∀ {α : Type} (x : α), R α (pure x) (pure x)
  bind : ∀ {α β : Type} {m m' : Step α} {f f' : α → Step β}, R α m m' →
    (∀ x w w', m w = some (x, w') → R β (f x) (f' x)) → R β (m >>= f) (m' >>= f')
  get : R (World LocalState) get get
  fail : ∀ target message,
    R Failure (Work.newFailure target message) (Work.newFailure target message)
  disk : ∀ {step : DiskM Unit}, Touches p q step →
    R (Except DiskError Unit) (Work.onDisk step) (Work.onDisk step)
  run : (q.dropSuffix? Naming.dependsSuffix).isSome → ∀ arguments,
    R Unit (Work.noteRun arguments) (Work.noteRun arguments)
  attach : ∀ build build' tags,
    R Unit ((engineOf p build).attach q tags) ((engineOf p build').attach q tags)

/-- A relation that holds of what signals keep as well, whatever that is. -/
structure Parallel (p : Project) (q : Path) (R : (α : Type) → Step α → Step α → Prop) : Prop
    extends Alongside p q R where
  keep : ∀ key failure, R Failure (keepFailure key failure) (keepFailure key failure)

/-- A relation between the last steps of the building of a target, beside one between the steps
before. -/
structure Final (p : Project) (q : Path) (R : (α : Type) → Step α → Step α → Prop)
    (R' : Step Outcome → Step Outcome → Prop) : Prop where
  bind : ∀ {α : Type} {m m' : Step α} {f f' : α → Step Outcome}, R α m m' →
    (∀ x w w', m w = some (x, w') → R' (f x) (f' x)) → R' (m >>= f) (m' >>= f')
  done : ∀ outcome, R' (pure outcome) (pure outcome)
  fail : ∀ message, R' (do markHard q; return .error (← Work.newFailure q message))
    (do markHard q; return .error (← Work.newFailure q message))
  copy : ∀ engine engine' blocked, R' (tryRules p engine q [] blocked) (tryRules p engine' q [] blocked)

namespace Alongside

variable {R : (α : Type) → Step α → Step α → Prop} {α β : Type} {build build' : Path → Step Outcome}

theorem firstBuilt (par : Alongside p q R) {targets : List Path}
    (h : ∀ r ∈ targets, R _ (build r) (build' r)) :
    R _ (firstBuilt build targets) (firstBuilt build' targets) := by
  induction targets with
  | nil => exact par.bind (par.fail _ _) fun _ _ _ _ => par.pure _
  | cons r rest ih =>
    have head := h r List.mem_cons_self
    have tail := ih fun r hr => h r (List.mem_cons_of_mem _ hr)
    cases rest with
    | nil => exact head
    | cons r' rest =>
      refine par.bind head fun outcome _ _ _ => ?_
      cases outcome with
      | ok path => exact par.pure _
      | error failure => exact tail

theorem batches (par : Alongside p q R) {batches : List (List Path)}
    (h : ∀ targets ∈ batches, ∀ r ∈ targets, R _ (build r) (build' r)) :
    R _ ((engineOf p build).build batches) ((engineOf p build').build batches) := by
  change R _ (batches.mapM (FlatModules.firstBuilt build)) (batches.mapM (FlatModules.firstBuilt build'))
  induction batches with
  | nil => exact par.pure _
  | cons targets batches ih =>
    rw [List.mapM_cons, List.mapM_cons]
    refine par.bind (par.firstBuilt (h targets List.mem_cons_self)) fun _ _ _ _ => ?_
    exact par.bind (ih fun ts hts => h ts (List.mem_cons_of_mem _ hts)) fun _ _ _ _ => par.pure _

theorem tags (par : Alongside p q R) (path : Path) :
    R _ ((engineOf p build).tags path) ((engineOf p build').tags path) :=
  par.bind (par.bind par.get fun _ _ _ _ => par.pure _) fun _ _ _ _ => par.pure _

/-! #### Steps of a rule -/

theorem attempt_bind (par : Alongside p q R) {m m' : Attempt LocalState α}
    {f f' : α → Attempt LocalState β} (h : R _ m.run m'.run)
    (hf : ∀ x, R _ (f x).run (f' x).run) : R _ (m >>= f).run (m' >>= f').run := by
  rw [ExceptT.run_bind, ExceptT.run_bind]
  refine par.bind h fun result _ _ _ => ?_
  cases result with
  | ok x => exact hf x
  | error e => exact par.pure _

theorem attempt_pure (par : Alongside p q R) (x : α) :
    R _ (Pure.pure x : Attempt LocalState α).run (Pure.pure x : Attempt LocalState α).run :=
  par.pure _

theorem throw (par : Alongside p q R) (e : RuleError) :
    R _ (throw e : Attempt LocalState α).run (throw e : Attempt LocalState α).run :=
  par.pure _

theorem lift (par : Alongside p q R) {m m' : Step α} (h : R _ m m') :
    R _ (liftM m : Attempt LocalState α).run (liftM m' : Attempt LocalState α).run :=
  par.bind h fun x _ _ _ => par.pure (Except.ok x)

theorem attempt_disk (par : Alongside p q R) :
    R _ (Attempt.disk : Attempt LocalState Disk).run (Attempt.disk : Attempt LocalState Disk).run :=
  par.attempt_bind (par.lift par.get) fun _ => par.attempt_pure _

theorem attempt_onDisk (par : Alongside p q R) {step : DiskM Unit} (touches : Touches p q step)
    (path : Path) : R _ (Attempt.onDisk path step : Attempt LocalState Unit).run
      (Attempt.onDisk path step : Attempt LocalState Unit).run := by
  refine par.attempt_bind (par.lift (par.disk touches)) fun result => ?_
  split
  · exact par.attempt_pure _
  · exact par.throw _

/-- What goes on with a value that must be there does so only if it is. -/
theorem orThrow_bind (par : Alongside p q R) {value? : Option α} {e : RuleError}
    {f f' : α → Attempt LocalState β} (h : ∀ x, value? = some x → R _ (f x).run (f' x).run) :
    R _ (orThrow value? e >>= f).run (orThrow value? e >>= f').run := by
  cases value? with
  | none => exact par.pure (Except.error e)
  | some x => exact h x rfl

theorem requireAll (par : Alongside p q R) {targets : List Path}
    (h : ∀ r ∈ targets, R _ (build r) (build' r)) :
    R _ ((contextOf p build).requireAll targets).run ((contextOf p build').requireAll targets).run := by
  refine par.attempt_bind (par.lift (par.batches ?_)) fun outcomes => ?_
  · simpa using h
  · split
    · exact par.throw _
    · exact par.attempt_pure _

theorem writeOutput (par : Alongside p q R) (content : String) :
    R _ ((contextOf p build).writeOutput q content).run
      ((contextOf p build').writeOutput q content).run :=
  par.attempt_bind (par.attempt_onDisk (.save _) _) fun _ => par.attempt_pure _

theorem analyze (par : Alongside p q R) (depends : (q.dropSuffix? Naming.dependsSuffix).isSome)
    (file : Path) (tags : Tags) :
    R _ ((contextOf p build).analyze file tags).run ((contextOf p build').analyze file tags).run := by
  change R _ _ ((contextOf p build).analyze file tags).run
  refine par.attempt_bind par.attempt_disk fun d => ?_
  refine par.attempt_bind (par.lift (par.run depends _)) fun _ => ?_
  split
  · exact par.attempt_pure _
  · exact par.throw _

theorem namespaceOf_bind (par : Alongside p q R) {r : Rule} {f f' : Namespace → Attempt LocalState α}
    (h : ∀ root ns, r.product.stem? q = some root → p.metadata.namespaceOfRoot? ⟨root⟩ = some ns →
      R _ (f ns).run (f' ns).run) :
    R _ ((contextOf p build).namespaceOf r q >>= f).run
      ((contextOf p build').namespaceOf r q >>= f').run := by
  unfold Context.namespaceOf
  rw [bind_assoc, bind_assoc]
  exact par.orThrow_bind fun root hr => par.orThrow_bind fun ns hn => h root ns hr hn

/-- What a rule does for a target that it is tried for. -/
theorem apply (par : Alongside p q R) (h : ∀ r, Asks p q r → R _ (build r) (build' r)) {r : Rule}
    {stem : String} (hs : r.product.stem? q = some stem) :
    R _ (r.apply (contextOf p build) q).run (r.apply (contextOf p build') q).run := by
  cases r with
  | executableTags format =>
    simp only [Rule.apply, Context.tagExecutable]
    by_cases linked : (contextOf p build).metadata.executableLibraries q ≠ []
    · have linked' : (contextOf p build').metadata.executableLibraries q ≠ [] := linked
      rw [if_pos linked, if_pos linked']
      exact par.attempt_bind (par.lift (par.attach _ _ _)) fun _ => par.attempt_pure _
    · have linked' : ¬ (contextOf p build').metadata.executableLibraries q ≠ [] := linked
      rw [if_neg linked, if_neg linked']
      exact par.attempt_pure _
  | depends kind =>
    refine par.orThrow_bind fun _ _ => par.orThrow_bind fun source hd => ?_
    refine par.orThrow_bind fun file _ => par.attempt_bind (par.lift (par.tags _)) fun _ => ?_
    refine par.attempt_bind (par.analyze ?_ _ _) fun _ => par.writeOutput _
    rw [hd]
    rfl
  | link kind =>
    refine par.orThrow_bind fun file hf => par.attempt_bind (par.requireAll ?_) fun _ => ?_
    · simpa using h _ (.real hs hf)
    · refine par.attempt_bind (par.lift (par.tags _)) fun _ => ?_
      refine par.attempt_bind (par.lift (par.attach _ _ _)) fun _ => par.orThrow_bind fun name hn => ?_
      have touches := Touches.link (Metadata.fileAt?_of_fileOfKind? hf).1 hn
      exact par.attempt_bind (par.attempt_onDisk touches _) fun _ => par.attempt_pure _
  | stamp =>
    refine par.namespaceOf_bind fun root ns hr hn => ?_
    refine par.attempt_bind (par.requireAll fun c hc => h c (.closure hr hn hc)) fun _ => ?_
    refine par.attempt_bind par.attempt_disk fun d => ?_
    dsimp only [contextOf, engineOf]
    split
    · exact par.writeOutput _
    · exact par.throw _
  | aliases => exact par.namespaceOf_bind fun _ _ _ _ => par.writeOutput _
  | root =>
    refine par.orThrow_bind fun root _ => par.namespaceOf_bind fun ns _ _ _ => ?_
    refine par.attempt_bind par.attempt_disk fun d => ?_
    dsimp only [contextOf, engineOf, Context.outputPath]
    split
    · exact par.writeOutput _
    · exact par.throw _
  | manifest =>
    refine par.orThrow_bind fun root hr => par.orThrow_bind fun ns hn => ?_
    refine par.orThrow_bind fun members hm => ?_
    refine par.attempt_bind (par.requireAll ?_) fun _ => ?_
    · simpa using fun x hx => h _ (.library hr hn hm hx)
    · refine par.attempt_bind par.attempt_disk fun d => ?_
      dsimp only [contextOf, engineOf, Context.outputPath]
      split
      · exact par.writeOutput _
      · exact par.throw _
  | plainDepends =>
    refine par.orThrow_bind fun source hd => par.attempt_bind (par.lift (par.tags _)) fun _ => ?_
    refine par.attempt_bind (par.analyze ?_ _ _) fun _ => ?_
    · have hd : q.dropSuffix? Naming.dependsSuffix = some source := hd
      rw [hd]
      rfl
    · exact par.attempt_bind (par.attempt_onDisk (.write _) _) fun _ => par.attempt_pure _

/-- What a rule comes to, and the signal if it does not apply. -/
theorem dispatch (par : Alongside p q R) (h : ∀ r, Asks p q r → R _ (build r) (build' r)) {r : Rule}
    {stem : String} (hs : r.product.stem? q = some stem) (signals : ∀ message ∈ reasons,
      R _ ((engineOf p build).signal q message) ((engineOf p build').signal q message)) :
    R _ ((engineOf p build).dispatch q (r.apply (contextOf p build) q))
      ((engineOf p build').dispatch q (r.apply (contextOf p build') q)) := by
  refine par.bind (par.apply h hs) fun result w w' run => ?_
  have signal {reason : String} (because : reasonOf result = some reason) :
      R _ (do return .error (.inapplicable (← (engineOf p build).signal q reason)) :
          Step (Except DispatchError Path))
        (do return .error (.inapplicable (← (engineOf p build').signal q reason))) := by
    refine par.bind (signals reason ?_) fun _ _ _ _ => par.pure _
    cases result with
    | error e => exact reason_mem_of_error because
    | ok applied =>
      cases applied with
      | built path => simp [reasonOf] at because
      | inapplicable reason' =>
        obtain rfl := Option.some.inj because
        exact Reasoned.apply _ _ _ _ _ _ run
  split
  · exact par.pure _
  · exact signal rfl
  · split
    · exact signal ‹_›
    · exact par.pure _

/-- The building of a target under engines that are related at all that it asks for, and at its
signals. -/
theorem final_tryRules (par : Alongside p q R) {R' : Step Outcome → Step Outcome → Prop}
    (final : Final p q R R') (h : ∀ r, Asks p q r → R _ (build r) (build' r))
    (signals : ∀ r : Rule, ∀ stem, r.product.stem? q = some stem → ∀ message ∈ reasons,
      R _ ((engineOf p build).signal q message) ((engineOf p build').signal q message))
    (rules : List Rule) (blocked : Option Failure) :
    R' (tryRules p (engineOf p build) q rules blocked)
      (tryRules p (engineOf p build') q rules blocked) := by
  induction rules generalizing blocked with
  | nil => exact final.copy _ _ _
  | cons r rest ih =>
    unfold tryRules
    split
    case h_1 => exact ih _
    case h_2 stem hs =>
      refine final.bind (par.batches ?_) fun outcomes _ _ _ => ?_
      · simpa using fun d hd => h _ (.dependency hs hd)
      dsimp only
      split
      · refine final.bind (par.bind (par.bind par.get fun _ _ _ _ => par.pure _) fun _ _ _ _ =>
          par.pure _) fun hard _ _ _ => ?_
        split <;> exact ih _
      · refine final.bind (par.dispatch h hs (signals r stem hs)) fun result _ _ _ => ?_
        split
        · exact final.done _
        · exact ih _
        · exact final.fail _

end Alongside

namespace Parallel

variable {R : (α : Type) → Step α → Step α → Prop} {build build' : Path → Step Outcome}

theorem signal (par : Parallel p q R) {message : String}
    (h : R _ (build ⟨signalKey q message⟩) (build' ⟨signalKey q message⟩)) :
    R _ ((engineOf p build).signal q message) ((engineOf p build').signal q message) := by
  refine par.bind par.get fun w _ _ _ => ?_
  dsimp only
  split
  · exact par.pure _
  · refine par.bind (par.batches (by simpa using h)) fun outcomes _ _ _ => ?_
    split
    · exact par.bind (par.pure _) fun failure _ _ _ => par.keep _ failure
    · exact par.bind (par.fail _ _) fun failure _ _ _ => par.keep _ failure

theorem dispatch (par : Parallel p q R) (h : ∀ r, Asks p q r → R _ (build r) (build' r)) {r : Rule}
    {stem : String} (hs : r.product.stem? q = some stem) :
    R _ ((engineOf p build).dispatch q (r.apply (contextOf p build) q))
      ((engineOf p build').dispatch q (r.apply (contextOf p build') q)) :=
  par.toAlongside.dispatch h hs fun _ hm => par.signal (h _ (.signal hs hm))

/-- The building of a target under engines that are related at all that it asks for. -/
theorem final_tryRules (par : Parallel p q R) {R' : Step Outcome → Step Outcome → Prop}
    (final : Final p q R R') (h : ∀ r, Asks p q r → R _ (build r) (build' r)) (rules : List Rule)
    (blocked : Option Failure) :
    R' (tryRules p (engineOf p build) q rules blocked)
      (tryRules p (engineOf p build') q rules blocked) :=
  par.toAlongside.final_tryRules final h (fun _ _ hs _ hm => par.signal (h _ (.signal hs hm))) rules blocked

end Parallel

/-! ### The bound of the depth -/

/-- A step that comes to what another one comes to, wherever that one comes to anything. -/
def Extends {α : Type} (m m' : Step α) : Prop := ∀ w r, m w = some r → m' w = some r

namespace Extends

theorem refl {α : Type} (m : Step α) : Extends m m := fun _ _ h => h

theorem bind {α β : Type} {m m' : Step α} {f f' : α → Step β} (h : Extends m m')
    (hf : ∀ x w w', m w = some (x, w') → Extends (f x) (f' x)) : Extends (m >>= f) (m' >>= f') := by
  intro w r run
  obtain ⟨x, w₁, first, rest⟩ := Work.bind_eq_some.1 run
  exact Work.bind_eq_some.2 ⟨x, w₁, h w _ first, hf x w w₁ first w₁ r rest⟩

theorem parallel (p : Project) (q : Path) : Parallel p q fun _ => Extends where
  pure _ := refl _
  bind := bind
  get := refl _
  fail _ _ := refl _
  disk _ := refl _
  run _ _ := refl _
  attach _ _ _ := refl _
  keep _ _ := refl _

theorem final (p : Project) (q : Path) : Final p q (fun _ => Extends) Extends where
  bind := bind
  done _ := refl _
  fail _ := refl _
  copy _ _ _ := refl _

theorem once {produce produce' : Step Outcome} (h : Extends produce produce') :
    Extends (once q produce) (once q produce') := by
  intro w r run
  cases known : lookupPath? q w.own.outcomes with
  | some o =>
    rw [once_of_known known] at run ⊢
    exact run
  | none =>
    cases busy : listsPath q w.own.inProgress with
    | true =>
      rw [once_of_inProgress known busy] at run ⊢
      exact run
    | false =>
      rw [once_of_new known busy] at run ⊢
      obtain ⟨x, run, same⟩ := Option.map_eq_some_iff.1 run
      exact Option.map_eq_some_iff.2 ⟨x, h _ _ run, same⟩

end Extends

/-- A build that may go deeper comes to the same. -/
theorem buildWithin_mono {n m : Nat} (le : n ≤ m) (q : Path) :
    Extends (buildWithin p n q) (buildWithin p m q) := by
  induction n generalizing m q with
  | zero => exact fun w r run => by simp [buildWithin, Work.exhausted] at run
  | succ n ih =>
    obtain ⟨m, rfl⟩ := Nat.exists_eq_add_of_lt le
    rw [show n + m + 1 = (n + m) + 1 from rfl, buildWithin, buildWithin]
    exact .once ((Extends.parallel p q).final_tryRules (Extends.final p q)
      (fun r _ => ih (Nat.le_add_right n m) r) rules none)

theorem engine_build_mono {n : Nat} {batches : List (List Path)}
    (le : ∀ targets ∈ batches, ∀ q ∈ targets, depth p q ≤ n) :
    Extends ((engine p).build batches) ((engineOf p (buildWithin p n)).build batches) :=
  (Extends.parallel p .empty).batches fun targets ht q hq => buildWithin_mono (le targets ht q hq) q

/-! ### The targets that a request leads to -/

variable {T : Path → Prop}

/-- What comes after a step is one for each of the results that the step can have. -/
theorem Follows.bind_of_run {α β : Type} {m : Step α} {f : α → Step β} (h : Follows p T m)
    (hf : ∀ x w w', m w = some (x, w') → Follows p T (f x)) : Follows p T (m >>= f) := by
  intro w y w' run
  obtain ⟨x, w₁, first, rest⟩ := Work.bind_eq_some.1 run
  exact (h w x w₁ first).trans (hf x w w₁ first w₁ y w' rest)

theorem Follows.parallel (hq : T q) : Parallel p q fun _ m _ => Follows p T m where
  pure := Follows.pure
  bind := bind_of_run
  get := .get
  fail := .newFailure
  disk := .onDisk hq
  run := .noteRun hq
  attach build _ := .attach hq build
  keep key failure := by
    intro w y w' run
    obtain ⟨-, rfl⟩ := Prod.mk.inj (Option.some.inj run)
    exact .act hq (.signal key failure w)

theorem Follows.final (hq : T q) : Final p q (fun _ m _ => Follows p T m) fun m _ => Follows p T m where
  bind := bind_of_run
  done := .pure
  fail message := (Follows.markHard hq).bind fun _ => (Follows.newFailure _ _).bind fun _ => .pure _
  copy _ _ _ := by
    refine (follows_copySource hq).bind fun outcome => ?_
    split <;> exact .pure _

/-- Every run of a build is a course of targets that the request leads to. -/
theorem buildWithin_asks (closed : ∀ q r, T q → Asks p q r → T r) (n : Nat) :
    ∀ q, T q → Follows p T (buildWithin p n q) := by
  induction n with
  | zero =>
    intro q _ w o w' run
    simp [buildWithin, Work.exhausted] at run
  | succ n ih =>
    intro q hq w o w' run
    rw [buildWithin] at run
    cases known : lookupPath? q w.own.outcomes with
    | some o' =>
      rw [once_of_known known] at run
      obtain ⟨-, rfl⟩ := Prod.mk.inj (Option.some.inj run)
      exact .refl w
    | none =>
      cases busy : listsPath q w.own.inProgress with
      | true =>
        rw [once_of_inProgress known busy] at run
        obtain ⟨-, rfl⟩ := Prod.mk.inj (Option.some.inj run)
        exact .fail w
      | false =>
        rw [once_of_new known busy] at run
        obtain ⟨⟨o', w₁⟩, run', same⟩ := Option.map_eq_some_iff.1 run
        obtain ⟨rfl, rfl⟩ := Prod.mk.inj same
        refine .once hq known busy run' ?_
        have follows (r : Path) (asks : Asks p q r) : Follows p T (buildWithin p n r) :=
          ih r (closed q r hq asks)
        exact @Parallel.final_tryRules p q _ _ (buildWithin p n) (Follows.parallel hq) _
          (Follows.final hq) follows rules none _ _ _ run'

/-! ### How many targets a request leads to -/

/-- A target that is asked for is nearer to the end than the one that it is for, or one that the
metadata lead to. -/
theorem Asks.chain_lt (hr : p.metadata.Reaches) {r : Path} (h : Asks p q r) :
    chain r < chain q ∨ r ∈ p.metadata.reach := by
  cases h with
  | dependency hs hd => exact .inl (chain_fill_lt hs hd)
  | signal hs => exact .inl (chain_signal q _ ▸ one_lt_chain hs)
  | real _ hf => exact .inr (hr.real (Metadata.fileAt?_of_fileOfKind? hf).1)
  | closure _ hn hc =>
    obtain ⟨dir, hn⟩ := Metadata.namespaceAt?_of_namespaceOfRoot? hn
    exact .inr (hr.closure hn _ hc)
  | library _ hn hm hx =>
    obtain ⟨dir, hn⟩ := Metadata.namespaceAt?_of_namespaceOfRoot? hn
    exact .inr (hr.library hn hm _ hx)

theorem mem_rules (r : Rule) : r ∈ rules := by
  cases r <;> (try rename_i x; cases x) <;> decide

/-- A target asks for finitely many others. -/
theorem finite_asks (hr : p.metadata.Reaches) (q : Path) : {r | Asks p q r}.Finite := by
  obtain ⟨declared, hd⟩ : ∃ xs : List Path, ∀ r ∈ rules, ∀ d ∈ r.dependencies,
      d.fill ((r.product.stem? q).getD "") ∈ xs :=
    ⟨rules.flatMap fun r => r.dependencies.map fun d => d.fill ((r.product.stem? q).getD ""),
      fun r hr d hd => List.mem_flatMap.2 ⟨r, hr, List.mem_map_of_mem hd⟩⟩
  obtain ⟨signals, hm⟩ : ∃ xs : List Path, ∀ message ∈ reasons, ⟨signalKey q message⟩ ∈ xs :=
    ⟨reasons.map fun message => ⟨signalKey q message⟩, fun _ => List.mem_map_of_mem⟩
  refine (List.finite_toSet (declared ++ signals ++ p.metadata.reach)).subset fun r asks => ?_
  have reached (mem : r ∈ p.metadata.reach) : r ∈ declared ++ signals ++ p.metadata.reach :=
    List.mem_append_right _ mem
  cases asks with
  | @dependency r stem d hs mem =>
    have filled := hd r (mem_rules r) d mem
    rw [hs, Option.getD_some] at filled
    exact List.mem_append_left _ (List.mem_append_left _ filled)
  | signal _ mem => exact List.mem_append_left _ (List.mem_append_right _ (hm _ mem))
  | real _ hf => exact reached (hr.real (Metadata.fileAt?_of_fileOfKind? hf).1)
  | closure _ hn hc =>
    obtain ⟨dir, hn⟩ := Metadata.namespaceAt?_of_namespaceOfRoot? hn
    exact reached (hr.closure hn _ hc)
  | library _ hn hm hx =>
    obtain ⟨dir, hn⟩ := Metadata.namespaceAt?_of_namespaceOfRoot? hn
    exact reached (hr.library hn hm _ hx)

/-- The targets that a request for one leads to. -/
def LeadsTo (p : Project) : Path → Path → Prop := Relation.ReflTransGen (Asks p)

/-- Those among them that follow from the text of the first are finitely many. -/
theorem finite_leadsTo_of_chain (hr : p.metadata.Reaches) (q : Path) :
    {r | Relation.ReflTransGen (fun q r => Asks p q r ∧ chain r < chain q) q r}.Finite := by
  induction h : chain q using Nat.strong_induction_on generalizing q with
  | _ n ih =>
    have nearer : {s | Asks p q s ∧ chain s < chain q}.Finite :=
      (finite_asks hr q).subset fun s hs => hs.1
    have next := nearer.biUnion fun s hs => ih (chain s) (h ▸ hs.2) s rfl
    refine (next.insert q).subset fun r leads => ?_
    rcases leads.cases_head with rfl | ⟨s, hs, leads⟩
    · exact Set.mem_insert _ _
    · exact Set.mem_insert_of_mem _ (Set.mem_biUnion (x := s) hs leads)

/-- A request leads to finitely many targets. -/
theorem finite_leadsTo (hr : p.metadata.Reaches) (q : Path) : {r | LeadsTo p q r}.Finite := by
  have starts : {x | x ∈ q :: p.metadata.reach}.Finite := List.finite_toSet _
  refine (starts.biUnion fun x _ => finite_leadsTo_of_chain hr x).subset fun r leads => ?_
  induction leads with
  | refl => exact Set.mem_biUnion (x := q) List.mem_cons_self .refl
  | @tail s r _ asks ih =>
    obtain ⟨x, hx, leads⟩ := Set.mem_iUnion₂.1 ih
    rcases asks.chain_lt hr with less | mem
    · exact Set.mem_biUnion (x := x) hx (leads.tail ⟨asks, less⟩)
    · exact Set.mem_biUnion (x := r) (List.mem_cons_of_mem _ mem) .refl

end Local
end FlatModules
