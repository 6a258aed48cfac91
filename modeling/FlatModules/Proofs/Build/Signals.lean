import FlatModules.Proofs.Build.Asks

/-!
# Build — failures that are kept

A table of failures holds what was entered under a key first, whoever enters more.  Steps that go to
it only to look up, to enter and to signal (`Entering`) take no entry away, though they may signal from
inside one another, so that all signals for one target and one reason are answered with one failure
(`signals_stable`).
-/

namespace FlatModules

variable {σ α : Type} {e : Engine σ} {w w' w₁ : World σ} {target : Path} {message : String}
  {outcomes : List Outcome}

/-! ### One signal -/

/-- A signal whose key has a failure is answered with that, and asks for nothing. -/
theorem Engine.signal_of_kept {f : Failure} (kept : w.failures.get? (signalKey target message) = some f) :
    e.signal target message w = some (f, w) := by
  unfold Engine.signal
  rw [Work.bind_of_eq_some Work.get_run]
  simp only [kept]
  rfl

/-- The failure that the engine gave for a target that stands for a signal; a new one if it gave
none. -/
def reported (target : Path) (message : String) (outcomes : List Outcome) (w : World σ) : Failure :=
  match outcomes.head? with
  | some (.error failure) => failure
  | _ => ⟨w.nextFailure, ⟨signalKey target message⟩, message⟩

/-- A signal whose key has no failure asks for the target that stands for it, and is answered with what
is under the key then, or else with what the engine gave, which is entered there. -/
theorem Engine.signal_of_new (new : w.failures.get? (signalKey target message) = none)
    (asked : e.build [[⟨signalKey target message⟩]] w = some (outcomes, w₁)) :
    ∃ w', e.signal target message w = some ((w₁.failures.get? (signalKey target message)).getD
        (reported target message outcomes w₁), w') ∧
      w'.failures = w₁.failures.insert (signalKey target message) (reported target message outcomes w₁) ∧
      w'.disk = w₁.disk ∧ w'.runs = w₁.runs ∧ w'.own = w₁.own := by
  have entered (f : Failure) : ((w₁.failures.insert (signalKey target message) f).get?
      (signalKey target message)).getD f = (w₁.failures.get? (signalKey target message)).getD f := by
    cases known : w₁.failures.get? (signalKey target message) with
    | some g => rw [FailureTable.get?_insert_of_some known]
    | none =>
      rw [FailureTable.get?_insert_of_none known]
      rfl
  unfold Engine.signal
  rw [Work.bind_of_eq_some Work.get_run]
  simp only [new]
  rw [Work.bind_of_eq_some asked]
  unfold reported
  cases head : outcomes.head? with
  | none => exact ⟨_, congrArg some (Prod.ext (entered _) rfl), rfl, rfl, rfl, rfl⟩
  | some o =>
    cases o with
    | ok path => exact ⟨_, congrArg some (Prod.ext (entered _) rfl), rfl, rfl, rfl, rfl⟩
    | error f => exact ⟨_, congrArg some (Prod.ext (entered _) rfl), rfl, rfl, rfl, rfl⟩

/-- A signal comes to nothing only if the engine does. -/
theorem Engine.exists_of_signal {f : Failure} (new : w.failures.get? (signalKey target message) = none)
    (run : e.signal target message w = some (f, w')) :
    ∃ outcomes w₁, e.build [[⟨signalKey target message⟩]] w = some (outcomes, w₁) := by
  unfold Engine.signal at run
  rw [Work.bind_of_eq_some Work.get_run] at run
  simp only [new] at run
  obtain ⟨outcomes, w₁, asked, -⟩ := Work.bind_eq_some.1 run
  exact ⟨outcomes, w₁, asked⟩

/-- A signal comes to a failure if its key has one, or else if the engine answers when it is asked. -/
theorem Engine.exists_signal_iff : (∃ f w', e.signal target message w = some (f, w')) ↔
    (w.failures.get? (signalKey target message) = none →
      ∃ answer, e.build [[⟨signalKey target message⟩]] w = some answer) := by
  constructor
  · rintro ⟨f, w', run⟩ new
    obtain ⟨outcomes, w₁, asked⟩ := Engine.exists_of_signal new run
    exact ⟨_, asked⟩
  · intro answers
    cases kept : w.failures.get? (signalKey target message) with
    | some f => exact ⟨f, w, Engine.signal_of_kept kept⟩
    | none =>
      obtain ⟨⟨outcomes, w₁⟩, asked⟩ := answers kept
      obtain ⟨w', run, -⟩ := Engine.signal_of_new kept asked
      exact ⟨_, w', run⟩

/-! ### Steps that go to the table -/

/-- Enters a failure under a key that has none yet, and gives the one that is under it then. -/
def Work.enter (key : String) (failure : Failure) : Work σ Failure := do
  let w ← get
  let failures := w.failures.insert key failure
  set { w with failures := failures }
  return (failures.get? key).getD failure

/-- Steps that change the table of failures only by entering into it and by signals, as do the engines
that they signal to.  All else they may change as they like. -/
inductive Entering : {α : Type} → Work σ α → Prop
  | free {α : Type} {m : Work σ α} (h : ∀ w x w', m w = some (x, w') → w'.failures = w.failures) :
      Entering m
  | bind {α β : Type} {m : Work σ α} {f : α → Work σ β} (h : Entering m)
      (hf : ∀ x w w', m w = some (x, w') → Entering (f x)) : Entering (m >>= f)
  | enter (key : String) (failure : Failure) : Entering (Work.enter key failure)
  | signal {e : Engine σ} (he : ∀ batches, Entering (e.build batches)) (target : Path)
      (message : String) : Entering (e.signal target message)

namespace Entering

theorem pure (x : α) : Entering (Pure.pure x : Work σ α) := .free fun w y w' run => by
  obtain ⟨-, rfl⟩ := Prod.mk.inj (Option.some.inj run)
  rfl

theorem get : Entering (MonadState.get : Work σ (World σ)) := .free fun w x w' run => by
  obtain ⟨-, rfl⟩ := Prod.mk.inj (Option.some.inj run)
  rfl

theorem newFailure (target : Path) (message : String) :
    Entering (Work.newFailure target message : Work σ Failure) := .free fun w x w' run => by
  obtain ⟨-, rfl⟩ := Prod.mk.inj (Option.some.inj run)
  rfl

theorem onDisk (step : DiskM α) : Entering (Work.onDisk step : Work σ _) := .free fun w x w' run => by
  obtain ⟨-, rfl⟩ := Prod.mk.inj (Option.some.inj run)
  rfl

theorem noteRun (arguments : Option (List String)) : Entering (Work.noteRun arguments : Work σ _) :=
  .free fun w x w' run => by
    obtain ⟨-, rfl⟩ := Prod.mk.inj (Option.some.inj run)
    rfl

theorem modifyOwn (f : σ → σ) : Entering (Work.modifyOwn f : Work σ _) := .free fun w x w' run => by
  obtain ⟨-, rfl⟩ := Prod.mk.inj (Option.some.inj run)
  rfl

end Entering

/-- Whether what a world keeps is kept in another one too. -/
def World.KeptIn (w w' : World σ) : Prop :=
  ∀ key f, w.failures.get? key = some f → w'.failures.get? key = some f

theorem World.KeptIn.trans (h : w.KeptIn w₁) (h' : w₁.KeptIn w') : w.KeptIn w' :=
  fun key f known => h' key f (h key f known)

theorem FailureTable.get?_insert_of_get? {t : FailureTable} {key other : String} {f g : Failure}
    (h : t.get? other = some g) : (t.insert key f).get? other = some g := by
  by_cases same : other = key
  · subst same
    exact FailureTable.get?_insert_of_some h
  · rw [FailureTable.get?_insert_of_ne same, h]

/-- What is kept stays so. -/
theorem Entering.keptIn {m : Work σ α} (h : Entering m) :
    ∀ {w x w'}, m w = some (x, w') → w.KeptIn w' := by
  induction h with
  | free same => exact fun run key f known => (same _ _ _ run).symm ▸ known
  | bind _ _ ih ihf =>
    intro w y w' run
    obtain ⟨x, w₁, first, rest⟩ := Work.bind_eq_some.1 run
    exact (ih first).trans (ihf x w w₁ first rest)
  | enter key failure =>
    intro w x w' run
    obtain ⟨-, rfl⟩ := Prod.mk.inj (Option.some.inj run)
    exact fun other f known => FailureTable.get?_insert_of_get? known
  | @signal e _ target message ih =>
    intro w f w' run
    cases known : w.failures.get? (signalKey target message) with
    | some g =>
      obtain ⟨-, rfl⟩ := Prod.mk.inj (Option.some.inj ((Engine.signal_of_kept known).symm.trans run))
      exact fun _ _ => id
    | none =>
      obtain ⟨outcomes, w₁, asked⟩ := Engine.exists_of_signal known run
      obtain ⟨w₂, run', failures, -⟩ := Engine.signal_of_new known asked
      obtain ⟨-, rfl⟩ := Prod.mk.inj (Option.some.inj (run'.symm.trans run))
      refine (ih _ asked).trans fun key f known => ?_
      rw [failures]
      exact FailureTable.get?_insert_of_get? known

/-! ### Calls one after the other -/

/-- What a table of failures is called for. -/
inductive TableCall
  | get (key : String)
  | insert (key : String) (failure : Failure)
  | signal (target : Path) (message : String)

/-- Makes a call, and gives the failure that it is answered with, if there is one. -/
def TableCall.make (e : Engine σ) : TableCall → Work σ (Option Failure)
  | .get key => return (← MonadState.get).failures.get? key
  | .insert key failure => return some (← Work.enter key failure)
  | .signal target message => return some (← e.signal target message)

/-- What comes of calls made one after the other: each with its answer, the last one first, and the
world that they end in.  Between them the engine may work on. -/
inductive TableCalls (e : Engine σ) (w : World σ) : List (TableCall × Option Failure) → World σ → Prop
  | nil : TableCalls e w [] w
  | call {log : List (TableCall × Option Failure)} {w₁ w₂ : World σ} {call : TableCall}
      {answer : Option Failure} (h : TableCalls e w log w₁) (run : call.make e w₁ = some (answer, w₂)) :
      TableCalls e w ((call, answer) :: log) w₂
  | work {log : List (TableCall × Option Failure)} {w₁ w₂ : World σ} {α : Type} {m : Work σ α}
      {x : α} (h : TableCalls e w log w₁) (entering : Entering m) (run : m w₁ = some (x, w₂)) :
      TableCalls e w log w₂

theorem TableCall.entering (he : ∀ batches, Entering (e.build batches)) (call : TableCall) :
    Entering (call.make e) := by
  cases call with
  | get key => exact .bind .get fun _ _ _ _ => .pure _
  | insert key failure => exact .bind (.enter key failure) fun _ _ _ _ => .pure _
  | signal target message => exact .bind (.signal he target message) fun _ _ _ _ => .pure _

/-- Calls take nothing away that was kept before them. -/
theorem TableCalls.keptIn {log : List (TableCall × Option Failure)}
    (he : ∀ batches, Entering (e.build batches)) (h : TableCalls e w log w') : w.KeptIn w' := by
  induction h with
  | nil => exact fun _ _ => id
  | call _ run ih => exact ih.trans ((TableCall.entering he _).keptIn run)
  | work _ entering run ih => exact ih.trans (entering.keptIn run)

/-- The answer to a signal is what is kept under its key then. -/
theorem Engine.get?_of_signal {f : Failure} (run : e.signal target message w = some (f, w')) :
    w'.failures.get? (signalKey target message) = some f := by
  cases known : w.failures.get? (signalKey target message) with
  | some g =>
    obtain ⟨rfl, rfl⟩ := Prod.mk.inj (Option.some.inj ((Engine.signal_of_kept known).symm.trans run))
    exact known
  | none =>
    obtain ⟨outcomes, w₁, asked⟩ := Engine.exists_of_signal known run
    obtain ⟨w₂, run', failures, -⟩ := Engine.signal_of_new known asked
    obtain ⟨rfl, rfl⟩ := Prod.mk.inj (Option.some.inj (run'.symm.trans run))
    rw [failures]
    cases meanwhile : w₁.failures.get? (signalKey target message) with
    | some g => exact FailureTable.get?_insert_of_some meanwhile
    | none => exact FailureTable.get?_insert_of_none meanwhile

/-- The answer to a signal is under its key for good. -/
theorem TableCalls.get?_of_mem {log : List (TableCall × Option Failure)} {answer : Option Failure}
    (he : ∀ batches, Entering (e.build batches)) (h : TableCalls e w log w')
    (mem : (.signal target message, answer) ∈ log) :
    answer.isSome ∧ w'.failures.get? (signalKey target message) = answer := by
  induction h with
  | nil => simp at mem
  | @call log w₁ w₂ call answer' h run ih =>
    rcases List.mem_cons.1 mem with same | mem
    · obtain ⟨rfl, rfl⟩ := Prod.mk.inj same
      obtain ⟨f, w₃, signaled, same⟩ := Work.bind_eq_some.1 run
      obtain ⟨rfl, rfl⟩ := Prod.mk.inj (Option.some.inj same)
      exact ⟨rfl, Engine.get?_of_signal signaled⟩
    · obtain ⟨some, kept⟩ := ih mem
      obtain ⟨f, rfl⟩ := Option.isSome_iff_exists.1 some
      exact ⟨some, (TableCall.entering he _).keptIn run _ _ kept⟩
  | @work log w₁ w₂ α m x h entering run ih =>
    obtain ⟨some, kept⟩ := ih mem
    obtain ⟨f, rfl⟩ := Option.isSome_iff_exists.1 some
    exact ⟨some, entering.keptIn run _ _ kept⟩

/-- After any calls, an engine that itself only looks up, enters and signals has lost no failure; all
signals for one target and one reason were answered with one failure, the one that is kept.  A signal
whose key has a failure asks for nothing, whatever the engine would answer.  Otherwise the engine is
asked for the target that stands for the signal, and what is kept and answered is what was entered
meanwhile, or else the failure that the engine gave, or else a new one. -/
theorem signals_stable (he : ∀ batches, Entering (e.build batches))
    {log : List (TableCall × Option Failure)} (h : TableCalls e w log w') :
    w.KeptIn w' ∧
    (∀ target message answer, (.signal target message, answer) ∈ log →
      answer.isSome ∧ w'.failures.get? (signalKey target message) = answer) ∧
    (∀ target message answer answer', (.signal target message, answer) ∈ log →
      (.signal target message, answer') ∈ log → answer = answer') ∧
    ∀ target message,
      (∀ f, w'.failures.get? (signalKey target message) = some f →
        ∀ build, { e with build := build }.signal target message w' = some (f, w')) ∧
      (w'.failures.get? (signalKey target message) = none →
        ∀ outcomes w₁, e.build [[⟨signalKey target message⟩]] w' = some (outcomes, w₁) →
        ∃ f w₂, e.signal target message w' = some (f, w₂) ∧
          w₂.failures.get? (signalKey target message) = some f ∧
          (∀ g, w₁.failures.get? (signalKey target message) = some g → f = g) ∧
          (w₁.failures.get? (signalKey target message) = none →
            (∀ g, outcomes.head? = some (.error g) → f = g) ∧
            ((∀ g, outcomes.head? ≠ some (.error g)) →
              f = ⟨w₁.nextFailure, ⟨signalKey target message⟩, message⟩))) := by
  refine ⟨h.keptIn he, fun _ _ _ mem => h.get?_of_mem he mem, fun target message _ _ mem mem' => ?_,
    fun target message => ⟨fun f known build => Engine.signal_of_kept known,
      fun new outcomes w₁ asked => ?_⟩⟩
  · exact (h.get?_of_mem he mem).2.symm.trans (h.get?_of_mem he mem').2
  · obtain ⟨w₂, run, failures, -⟩ := Engine.signal_of_new new asked
    refine ⟨_, w₂, run, Engine.get?_of_signal run, fun g known => by rw [known]; rfl,
      fun none => ⟨fun g head => ?_, fun other => ?_⟩⟩
    · simp only [none, Option.getD_none, reported, head]
    · rw [none, Option.getD_none, reported]
      split
      · exact absurd ‹_› (other _)
      · rfl

/-! ### The local engine -/

namespace Local

variable {p : Project}

theorem entering_parallel (p : Project) (q : Path) : Parallel p q fun _ m _ => Entering m where
  pure := .pure
  bind := .bind
  get := .get
  fail := .newFailure
  disk _ := .onDisk _
  run _ := .noteRun
  attach _ _ tags := .modifyOwn fun s : LocalState =>
    { s with attached := attachTags q tags s.attached }
  keep := .enter

theorem entering_copySource (p : Project) (q : Path) : Entering (copySource p q) := by
  unfold copySource
  refine .bind .get fun w _ _ _ => ?_
  split
  · refine .bind (.onDisk _) fun copied _ _ _ => ?_
    split
    · exact .pure _
    · exact .bind (.modifyOwn _) fun _ _ _ _ => .bind (.newFailure _ _) fun _ _ _ _ => .pure _
  · exact .bind (.newFailure _ _) fun _ _ _ _ => .pure _

theorem entering_final (p : Project) (q : Path) :
    Final p q (fun _ m _ => Entering m) fun m _ => Entering m where
  bind := .bind
  done := .pure
  fail _ := .bind (.modifyOwn _) fun _ _ _ _ => .bind (.newFailure _ _) fun _ _ _ _ => .pure _
  copy _ _ _ := by
    refine .bind (entering_copySource p q) fun outcome _ _ _ => ?_
    split <;> exact .pure _

theorem entering_buildWithin (p : Project) (n : Nat) (q : Path) : Entering (buildWithin p n q) := by
  induction n generalizing q with
  | zero => exact .free fun w x w' run => by simp [buildWithin, Work.exhausted] at run
  | succ n ih =>
    have produced : Entering (tryRules p (engineOf p (buildWithin p n)) q rules none) :=
      @Parallel.final_tryRules p q _ _ (buildWithin p n) (entering_parallel p q) _ (entering_final p q)
        (fun r _ => ih r) rules none
    rw [buildWithin]
    unfold once
    refine .bind (.bind .get fun _ _ _ _ => .pure _) fun own _ _ _ => ?_
    split
    · exact .pure _
    · refine .bind (.bind .get fun _ _ _ _ => .pure _) fun own _ _ _ => ?_
      split
      · exact .bind (.newFailure _ _) fun _ _ _ _ => .pure _
      · exact .bind (.modifyOwn _) fun _ _ _ _ => .bind produced fun _ _ _ _ =>
          .bind (.modifyOwn _) fun _ _ _ _ => .pure _

/-- The local engine only looks up, enters and signals. -/
theorem entering_engine (p : Project) (batches : List (List Path)) :
    Entering ((engine p).build batches) :=
  @Alongside.batches p .empty _ (build p) (build p) (entering_parallel p .empty).toAlongside batches
    fun _ _ r _ => entering_buildWithin p _ r

theorem exists_signal_eq_some (hr : p.metadata.Reaches) (target : Path) (message : String)
    (w : World LocalState) : ∃ f w', (engine p).signal target message w = some (f, w') := by
  refine Engine.exists_signal_iff.2 fun _ => ?_
  obtain ⟨o, w₁, run, -⟩ := exists_build_eq_some hr ⟨signalKey target message⟩ w
  refine ⟨([o], w₁), ?_⟩
  change List.mapM (firstBuilt (Local.build p)) [[_]] w = _
  rw [List.mapM_cons]
  exact (Work.bind_of_eq_some run).trans rfl

/-- Two signals for one directory of a small project, with another one in between. -/
theorem signals_stable_smallDisk :
    let e := engine (sampleProject smallDisk libConfig)
    ∃ f g w', TableCalls e (newWorld smallDisk)
        [(.signal ⟨"lib/bar.stamp"⟩ "not a namespace", some f),
          (.signal ⟨"lib/foo.ml"⟩ "not a namespaced file", some g),
          (.signal ⟨"lib/bar.stamp"⟩ "not a namespace", some f)] w' ∧
      w'.failures.get? (signalKey ⟨"lib/bar.stamp"⟩ "not a namespace") = some f ∧
      e.signal ⟨"lib/bar.stamp"⟩ "not a namespace" w' = some (f, w') := by
  intro e
  have he := entering_engine (sampleProject smallDisk libConfig)
  have reaches := (sampleTree smallDisk libConfig).metadata_reaches
  obtain ⟨f, w₁, first⟩ := exists_signal_eq_some (p := sampleProject smallDisk libConfig) reaches
    ⟨"lib/bar.stamp"⟩ "not a namespace" (newWorld smallDisk)
  obtain ⟨g, w₂, second⟩ := exists_signal_eq_some (p := sampleProject smallDisk libConfig) reaches
    ⟨"lib/foo.ml"⟩ "not a namespaced file" w₁
  have made {target message w f w'} (run : e.signal target message w = some (f, w')) :
      (TableCall.signal target message).make e w = some (some f, w') :=
    (Work.bind_of_eq_some run).trans rfl
  have calls := (TableCalls.nil.call (made first)).call (made second)
  obtain ⟨-, kept, -, next⟩ := signals_stable he calls
  have kept : w₂.failures.get? (signalKey ⟨"lib/bar.stamp"⟩ "not a namespace") = some f :=
    (kept _ _ _ (List.mem_cons_of_mem _ List.mem_cons_self)).2
  have third := (next ⟨"lib/bar.stamp"⟩ "not a namespace").1 f kept e.build
  exact ⟨f, g, w₂, calls.call (made third), kept, third⟩

end Local
end FlatModules
