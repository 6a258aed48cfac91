import FlatModules.Proofs.Build.Selection

/-!
# Build — the course of a build

What a build does, one change after the other: a new failure, what a rule does for a target
(`Acts`), and the building of a target that was neither known nor being built, with its own course
inside (`Course`).  The targets on the way are told by a property that leads from a target to all
that is asked for while it is built (`Closed`).  Every run of a build is such a course
(`buildWithin_follows`), so that what each change keeps is kept by every build.
-/

namespace FlatModules

namespace Local

variable {p : Project} {T : Path → Prop} {q target : Path} {w w₁ w₂ w' : World LocalState}

/-- What rules do on the disk for a target. -/
inductive Touches (p : Project) (q : Path) : DiskM Unit → Prop
  | save (bytes : ByteArray) : Touches p q do
      DiskM.makeParents (p.buildDir / q)
      DiskM.write (p.buildDir / q) bytes
  | write (bytes : ByteArray) : Touches p q (DiskM.write (p.buildDir / q) bytes)
  | copy : Touches p q do
      DiskM.makeParents (p.buildDir / q)
      DiskM.copy (p.root / q) (p.buildDir / q)
  | link {f : NamespacedFile} {name : String} (file : p.metadata.fileAt? q = some f) (named : f.realPath.fileName? = some name) :
      Touches p q (DiskM.replaceLink ⟨name⟩ (p.buildDir / q))

/-- A change that is made for a target. -/
inductive Acts (p : Project) (q : Path) : World LocalState → World LocalState → Prop
  | disk {step : DiskM Unit} (touches : Touches p q step) (w : World LocalState) :
      Acts p q w { w with disk := (step.run.run w.disk).2 }
  | run (depends : (q.dropSuffix? Naming.dependsSuffix).isSome) (arguments : Option (List String))
      (w : World LocalState) : Acts p q w { w with runs := w.runs ++ arguments.toList }
  | attach (tags : Tags) (w : World LocalState) :
      Acts p q w { w with own := { w.own with attached := attachTags q tags w.own.attached } }
  | hard (w : World LocalState) : Acts p q w { w with own := { w.own with hard := q :: w.own.hard } }
  | signal (key : String) (failure : Failure) (w : World LocalState) :
      Acts p q w { w with failures := w.failures.insert key failure }

/-- What a build does from one world to another, for targets with a property. -/
inductive Course (p : Project) (T : Path → Prop) : World LocalState → World LocalState → Prop
  | refl (w : World LocalState) : Course p T w w
  | trans {w w₁ w₂ : World LocalState} (h : Course p T w w₁) (h' : Course p T w₁ w₂) : Course p T w w₂
  | fail (w : World LocalState) : Course p T w { w with nextFailure := w.nextFailure + 1 }
  | act {q : Path} {w w' : World LocalState} (hq : T q) (h : Acts p q w w') : Course p T w w'
  | once {n : Nat} {q : Path} {o : Outcome} {w w' : World LocalState} (hq : T q)
      (new : lookupPath? q w.own.outcomes = none) (idle : listsPath q w.own.inProgress = false)
      (run : tryRules p (engineOf p (buildWithin p n)) q rules none (entered q w) = some (o, w'))
      (inner : Course p T (entered q w) w') : Course p T w (finished q o w')

/-- A property of targets that leads from each target to all that is asked for while it is
built. -/
structure Closed (p : Project) (T : Path → Prop) : Prop where
  dependency : ∀ {q : Path} {r : Rule} {stem : String}, T q → r.product.stem? q = some stem →
    ∀ d ∈ r.dependencies, T (d.fill stem)
  signal : ∀ {q : Path}, T q → ∀ message, T ⟨signalKey q message⟩
  real : ∀ {q : Path} {f : NamespacedFile}, T q → p.metadata.fileAt? q = some f → T f.realPath
  closure : ∀ {q : Path} {root : String} {ns : Namespace}, T q → Rule.stamp.product.stem? q = some root →
    p.metadata.namespaceOfRoot? ⟨root⟩ = some ns → ∀ c ∈ p.metadata.closure ns, T c
  library : ∀ {q : Path} {root : String} {ns : Namespace} {members : List String}, T q →
    Rule.manifest.product.stem? q = some root →
    p.metadata.namespaceOfRoot? ⟨root⟩ = some ns → p.metadata.libraryMembers? ns = some members →
    ∀ x ∈ members, T (memberDepends x)

/-- Every property that all targets have leads to all that is asked for. -/
theorem closed_true (p : Project) : Closed p fun _ => True :=
  ⟨fun _ _ _ _ => trivial, fun _ _ => trivial, fun _ _ => trivial, fun _ _ _ _ _ => trivial,
    fun _ _ _ _ _ _ => trivial⟩

/-- A step whose runs are courses. -/
def Follows {α : Type} (p : Project) (T : Path → Prop) (m : Step α) : Prop :=
  ∀ w x w', m w = some (x, w') → Course p T w w'

namespace Follows

variable {α β : Type}

theorem pure (x : α) : Follows p T (pure x) := by
  intro w y w' run
  obtain ⟨-, rfl⟩ := Prod.mk.inj (Option.some.inj run)
  exact .refl w

theorem bind {m : Step α} {f : α → Step β} (h : Follows p T m) (hf : ∀ x, Follows p T (f x)) :
    Follows p T (m >>= f) := by
  intro w y w' run
  obtain ⟨x, w₁, first, rest⟩ := Work.bind_eq_some.1 run
  exact (h w x w₁ first).trans (hf x w₁ y w' rest)

theorem get : Follows p T (get : Step (World LocalState)) := by
  intro w y w' run
  obtain ⟨-, rfl⟩ := Prod.mk.inj (Option.some.inj run)
  exact .refl w

theorem own : Follows p T (Work.own : Step LocalState) :=
  get.bind fun _ => .pure _

theorem newFailure (target : Path) (message : String) :
    Follows p T (Work.newFailure target message) := by
  intro w y w' run
  obtain ⟨-, rfl⟩ := Prod.mk.inj (Option.some.inj run)
  exact .fail w

theorem onDisk (hq : T q) {step : DiskM Unit} (touches : Touches p q step) :
    Follows p T (Work.onDisk step) := by
  intro w y w' run
  rw [Work.onDisk_run] at run
  obtain ⟨-, rfl⟩ := Prod.mk.inj (Option.some.inj run)
  exact .act hq (.disk touches w)

theorem noteRun (hq : T q) (depends : (q.dropSuffix? Naming.dependsSuffix).isSome)
    (arguments : Option (List String)) : Follows p T (Work.noteRun arguments) := by
  intro w y w' run
  obtain ⟨-, rfl⟩ := Prod.mk.inj (Option.some.inj run)
  exact .act hq (.run depends arguments w)

theorem markHard (hq : T q) : Follows p T (markHard q) := by
  intro w y w' run
  obtain ⟨-, rfl⟩ := Prod.mk.inj (Option.some.inj run)
  exact .act hq (.hard w)

theorem tags (build : Path → Step Outcome) (path : Path) :
    Follows p T ((engineOf p build).tags path) :=
  own.bind fun _ => .pure _

theorem attach (hq : T q) (build : Path → Step Outcome) (tags : Tags) :
    Follows p T ((engineOf p build).attach q tags) := by
  intro w y w' run
  obtain ⟨-, rfl⟩ := Prod.mk.inj (Option.some.inj run)
  exact .act hq (.attach tags w)

/-! ### Steps of a rule -/

theorem attempt_bind {m : Attempt LocalState α} {f : α → Attempt LocalState β}
    (h : Follows p T m.run) (hf : ∀ x, Follows p T (f x).run) : Follows p T (m >>= f).run := by
  rw [ExceptT.run_bind]
  refine h.bind fun result => ?_
  cases result with
  | ok x => exact hf x
  | error e => exact pure _

theorem throw (e : RuleError) : Follows p T (throw e : Attempt LocalState α).run := pure _

theorem lift {m : Step α} (h : Follows p T m) :
    Follows p T (liftM m : Attempt LocalState α).run := by
  intro w y w' run
  rw [Attempt.lift_run] at run
  obtain ⟨⟨x, w₁⟩, run', same⟩ := Option.map_eq_some_iff.1 run
  obtain ⟨-, rfl⟩ := Prod.mk.inj same
  exact h w x w₁ run'

theorem disk : Follows p T (Attempt.disk : Attempt LocalState Disk).run :=
  attempt_bind (lift get) fun _ => pure _

theorem attempt_onDisk (hq : T q) {step : DiskM Unit} (touches : Touches p q step) (path : Path) :
    Follows p T (Attempt.onDisk path step : Attempt LocalState Unit).run := by
  refine attempt_bind (lift (onDisk hq touches)) fun result => ?_
  split
  · exact pure _
  · exact throw _

/-- What goes on with a value that must be there does so only if it is. -/
theorem orThrow_bind {value? : Option α} {e : RuleError} {f : α → Attempt LocalState β}
    (h : ∀ x, value? = some x → Follows p T (f x).run) :
    Follows p T (FlatModules.orThrow value? e >>= f).run := by
  intro w y w' run
  cases value? with
  | none =>
    rw [Attempt.bind_of_error (Attempt.orThrow_none_run e)] at run
    obtain ⟨-, rfl⟩ := Prod.mk.inj (Option.some.inj run)
    exact .refl w
  | some x =>
    rw [Attempt.bind_of_ok (Attempt.orThrow_some_run x e)] at run
    exact h x rfl w y w' run

end Follows

section Rules

variable {α : Type} {build : Path → Step Outcome} {c : Context LocalState}

theorem follows_firstBuilt {targets : List Path} (h : ∀ q ∈ targets, Follows p T (build q)) :
    Follows p T (firstBuilt build targets) := by
  induction targets with
  | nil => exact (Follows.newFailure _ _).bind fun _ => .pure _
  | cons q rest ih =>
    have head := h q List.mem_cons_self
    have tail := ih fun r hr => h r (List.mem_cons_of_mem _ hr)
    cases rest with
    | nil => exact head
    | cons r rest =>
      refine head.bind fun outcome => ?_
      cases outcome with
      | ok path => exact .pure _
      | error failure => exact tail

/-- There is an outcome for each batch. -/
theorem length_of_build {batches : List (List Path)} {outcomes : List Outcome}
    (run : (engineOf p build).build batches w = some (outcomes, w')) :
    outcomes.length = batches.length := by
  change (batches.mapM (firstBuilt build)) w = some (outcomes, w') at run
  induction batches generalizing w w' outcomes with
  | nil =>
    obtain ⟨rfl, -⟩ := Prod.mk.inj (Option.some.inj run)
    rfl
  | cons targets batches ih =>
    rw [List.mapM_cons] at run
    obtain ⟨o, w₁, -, run⟩ := Work.bind_eq_some.1 run
    obtain ⟨os, w₂, rest, run⟩ := Work.bind_eq_some.1 run
    obtain ⟨rfl, -⟩ := Prod.mk.inj (Option.some.inj run)
    rw [List.length_cons, List.length_cons, ih rest]

theorem follows_build {batches : List (List Path)}
    (h : ∀ targets ∈ batches, ∀ q ∈ targets, Follows p T (build q)) :
    Follows p T ((engineOf p build).build batches) := by
  change Follows p T (batches.mapM (firstBuilt build))
  induction batches with
  | nil => exact .pure _
  | cons targets batches ih =>
    rw [List.mapM_cons]
    refine (follows_firstBuilt (h targets List.mem_cons_self)).bind fun _ => ?_
    exact (ih fun ts hts => h ts (List.mem_cons_of_mem _ hts)).bind fun _ => .pure _

theorem follows_signal (hq : T q) {message : String}
    (h : Follows p T (build ⟨signalKey q message⟩)) :
    Follows p T ((engineOf p build).signal q message) := by
  refine Follows.get.bind fun w => ?_
  split
  · exact .pure _
  · refine (follows_build (by simpa using h)).bind fun outcomes => ?_
    have store (failure : Failure) : Follows p T (do
        let w ← MonadState.get
        let failures := w.failures.insert (signalKey q message) failure
        set { w with failures := failures }
        return (failures.get? (signalKey q message)).getD failure : Step Failure) := by
      intro w y w' run
      obtain ⟨-, rfl⟩ := Prod.mk.inj (Option.some.inj run)
      exact .act hq (.signal _ _ w)
    dsimp only
    split
    · exact (Follows.pure _).bind store
    · exact (Follows.newFailure _ _).bind store

theorem follows_requireAll {targets : List Path} (h : ∀ q ∈ targets, Follows p T (build q)) :
    Follows p T ((contextOf p build).requireAll targets).run := by
  refine Follows.attempt_bind (.lift (follows_build ?_)) fun outcomes => ?_
  · simpa using h
  · split
    · exact .throw _
    · exact .pure _

theorem follows_writeOutput (hq : T q) (content : String) :
    Follows p T ((contextOf p build).writeOutput q content).run :=
  Follows.attempt_bind (.attempt_onDisk hq (.save _) _) fun _ => .pure _

theorem follows_analyze (hq : T q) (depends : (q.dropSuffix? Naming.dependsSuffix).isSome)
    (file : Path) (tags : Tags) : Follows p T ((contextOf p build).analyze file tags).run := by
  refine Follows.attempt_bind .disk fun d => ?_
  refine Follows.attempt_bind (.lift (.noteRun hq depends _)) fun _ => ?_
  split
  · exact .pure _
  · exact .throw _

theorem follows_namespaceOf_bind {r : Rule} {f : Namespace → Attempt LocalState α}
    (h : ∀ root ns, r.product.stem? q = some root → p.metadata.namespaceOfRoot? ⟨root⟩ = some ns →
      Follows p T (f ns).run) : Follows p T ((contextOf p build).namespaceOf r q >>= f).run := by
  unfold Context.namespaceOf
  rw [bind_assoc]
  exact .orThrow_bind fun root hr => .orThrow_bind fun ns hn => h root ns hr hn

/-- What a rule does for a target, if what it asks for follows a course. -/
theorem follows_apply (closed : Closed p T) (hq : T q) (h : ∀ q, T q → Follows p T (build q))
    (r : Rule) : Follows p T (r.apply (contextOf p build) q).run := by
  cases r with
  | executableTags format =>
    simp only [Rule.apply, Context.tagExecutable]
    split
    · exact Follows.attempt_bind (.lift (.attach hq _ _)) fun _ => .pure _
    · exact .pure _
  | depends kind =>
    refine Follows.orThrow_bind fun _ _ => Follows.orThrow_bind fun source hs => ?_
    refine Follows.orThrow_bind fun file _ => Follows.attempt_bind (.lift (.tags _ _)) fun _ => ?_
    refine Follows.attempt_bind (follows_analyze hq ?_ _ _) fun _ => follows_writeOutput hq _
    rw [hs]
    rfl
  | link kind =>
    refine Follows.orThrow_bind fun file hf => ?_
    have found := (Metadata.fileAt?_of_fileOfKind? hf).1
    refine Follows.attempt_bind (follows_requireAll ?_) fun _ => ?_
    · simpa using h _ (closed.real hq found)
    · refine Follows.attempt_bind (.lift (.tags _ _)) fun _ => ?_
      refine Follows.attempt_bind (.lift (.attach hq _ _)) fun _ => Follows.orThrow_bind fun name hn => ?_
      exact Follows.attempt_bind (.attempt_onDisk hq (.link found hn) _) fun _ => .pure _
  | stamp =>
    refine follows_namespaceOf_bind fun root ns hr hn => ?_
    refine Follows.attempt_bind (follows_requireAll fun c hc =>
      h c (closed.closure hq hr hn c hc)) fun _ => ?_
    refine Follows.attempt_bind .disk fun d => ?_
    split
    · exact follows_writeOutput hq _
    · exact .throw _
  | aliases => exact follows_namespaceOf_bind fun _ _ _ _ => follows_writeOutput hq _
  | root =>
    refine Follows.orThrow_bind fun root _ => follows_namespaceOf_bind fun _ _ _ _ => ?_
    refine Follows.attempt_bind .disk fun d => ?_
    split
    · exact follows_writeOutput hq _
    · exact .throw _
  | manifest =>
    refine Follows.orThrow_bind fun root hr => Follows.orThrow_bind fun ns hn => ?_
    refine Follows.orThrow_bind fun members hm => ?_
    refine Follows.attempt_bind (follows_requireAll ?_) fun _ => ?_
    · simpa using fun x hx => h _ (closed.library hq hr hn hm x hx)
    · refine Follows.attempt_bind .disk fun d => ?_
      split
      · exact follows_writeOutput hq _
      · exact .throw _
  | plainDepends =>
    refine Follows.orThrow_bind fun source hs => Follows.attempt_bind (.lift (.tags _ _)) fun _ => ?_
    refine Follows.attempt_bind (follows_analyze hq ?_ _ _) fun _ => ?_
    · have hs : q.dropSuffix? Naming.dependsSuffix = some source := hs
      rw [hs]
      rfl
    · exact Follows.attempt_bind (.attempt_onDisk hq (.write _) _) fun _ => .pure _

theorem follows_dispatch (hq : T q) {attempt : Attempt LocalState Applied}
    (h : Follows p T attempt.run) (signals : ∀ message, Follows p T (build ⟨signalKey q message⟩)) :
    Follows p T ((engineOf p build).dispatch q attempt) := by
  refine h.bind fun result => ?_
  split
  · exact .pure _
  · exact (follows_signal hq (signals _)).bind fun _ => .pure _
  · split
    · exact (follows_signal hq (signals _)).bind fun _ => .pure _
    · exact .pure _

theorem follows_copySource (hq : T q) : Follows p T (copySource p q) := by
  refine Follows.get.bind fun w => ?_
  split
  · refine (Follows.onDisk hq .copy).bind fun copied => ?_
    split
    · exact .pure _
    · exact (Follows.markHard hq).bind fun _ => (Follows.newFailure _ _).bind fun _ => .pure _
  · exact (Follows.newFailure _ _).bind fun _ => .pure _

theorem follows_tryRules (closed : Closed p T) (hq : T q) (h : ∀ q, T q → Follows p T (build q))
    (rules : List Rule) (blocked : Option Failure) :
    Follows p T (tryRules p (engineOf p build) q rules blocked) := by
  induction rules generalizing blocked with
  | nil =>
    refine (follows_copySource hq).bind fun outcome => ?_
    split <;> exact .pure _
  | cons r rest ih =>
    unfold tryRules
    split
    case h_1 => exact ih _
    case h_2 stem hs =>
      refine (follows_build ?_).bind fun outcomes => ?_
      · simpa using fun d hd => h _ (closed.dependency hq hs d hd)
      split
      · have hard (failure : Failure) : Follows p T (isHard failure) :=
          Follows.own.bind fun _ => .pure _
        refine (hard _).bind fun _ => ?_
        split <;> exact ih _
      · refine (follows_dispatch hq (follows_apply closed hq h r) fun message =>
          h _ (closed.signal hq message)).bind fun result => ?_
        split
        · exact .pure _
        · exact ih _
        · exact (Follows.markHard hq).bind fun _ => (Follows.newFailure _ _).bind fun _ => .pure _

/-- Every run of a build is a course. -/
theorem buildWithin_follows (closed : Closed p T) (n : Nat) :
    ∀ q, T q → Follows p T (buildWithin p n q) := by
  induction n with
  | zero =>
    intro q _ w o w' run
    simp [buildWithin, Work.exhausted] at run
  | succ n ih =>
    intro q hq w o w' run
    rw [buildWithin] at run
    cases known : lookupPath? q w.own.outcomes with
    | some o' =>
      rw [once_of_known known] at run
      obtain ⟨-, rfl⟩ := Prod.mk.inj (Option.some.inj run)
      exact .refl w
    | none =>
      cases busy : listsPath q w.own.inProgress with
      | true =>
        rw [once_of_inProgress known busy] at run
        obtain ⟨-, rfl⟩ := Prod.mk.inj (Option.some.inj run)
        exact .fail w
      | false =>
        rw [once_of_new known busy] at run
        obtain ⟨⟨o', w₁⟩, run', same⟩ := Option.map_eq_some_iff.1 run
        obtain ⟨rfl, rfl⟩ := Prod.mk.inj same
        exact .once hq known busy run' (follows_tryRules closed hq ih rules none _ _ _ run')

end Rules

end Local
end FlatModules
