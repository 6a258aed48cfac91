import FlatModules.Proofs.Build.Blame
import FlatModules.Proofs.Build.Endings
import FlatModules.Proofs.Build.Signals

/-!
# Build — failures that signals hand out

No rule makes the target that stands for a signal (`stem?_of_isSignal`), so that a request for it asks
for no other, and comes to what becomes of the project's own file at its path.  Nothing is asked for
while such a target is being built, and a signal enters what the engine keeps for the target.  So the
failures in the table are those of the engine, in every world that it comes to, but for targets of
which it made copies (`Vouched`, `signals_reported`).
-/

namespace FlatModules

namespace Local

variable {p : Project} {q k target : Path} {message : String} {f : Failure} {o : Outcome} {n : Nat}
  {w w₁ w' : World LocalState}

/-! ### Targets that stand for signals -/

/-- Whether a path is that of a target that stands for a signal, however spelled. -/
def IsSignal (q : Path) : Prop :=
  ∃ target message, q.same ⟨signalKey target message⟩ = true

theorem isSignal_signalKey (target : Path) (message : String) : IsSignal ⟨signalKey target message⟩ :=
  ⟨target, message, Path.same_self _⟩

theorem IsSignal.of_same (h : IsSignal q) (same : q.same k = true) : IsSignal k := by
  obtain ⟨target, message, same'⟩ := h
  rw [Path.same_iff] at same same'
  exact ⟨target, message, Path.same_iff.2 (same.symm.trans same')⟩

/-- No rule is tried for it. -/
theorem stem?_of_isSignal (h : IsSignal q) (r : Rule) : r.product.stem? q = none := by
  obtain ⟨target, message, same⟩ := h
  cases matched : r.product.stem? q with
  | none => rfl
  | some stem =>
    exfalso
    have ending : IsEnding r.ending ∧ r.ending ≠ "" ∧
        r.ending.toList.getLast? ≠ signalClose.toList.getLast? := by
      cases r <;> (try rename_i x; cases x) <;> decide
    have named : q.Named [r.ending] := .of_text ending.1 (List.mem_singleton_self _)
      (Pattern.stem?_ending_eq_some_iff.1 matched).1
    have avoids : q.Avoids (HasEnding signalClose) :=
      named.avoids (by simpa using ending.2.2) (by simpa using ending.2.1) (by decide)
    -- the names of a path are told by its parts
    rw [Path.Avoids, Path.names_congr (Path.same_iff.1 same)] at avoids
    exact (show IsEnding signalClose by decide).not_avoids _ avoids

theorem tryRules_of_isSignal (h : IsSignal q) (e : Engine LocalState) (rules : List Rule) :
    tryRules p e q rules none = copySource p q := by
  induction rules with
  | nil =>
    funext w
    rw [tryRules]
    cases copy : copySource p q w with
    | none =>
      change (copySource p q w).bind _ = none
      rw [copy]
      rfl
    | some x =>
      obtain ⟨o, v⟩ := x
      rw [Work.bind_of_eq_some copy]
      cases o <;> rfl
  | cons r rest ih => rw [tryRules_cons_of_none (stem?_of_isSignal h r), ih]

/-! ### What is kept of them -/

/-- Whether a failure is what the engine keeps for a target, unless it built that. -/
def Reported (w : World LocalState) (k : Path) (f : Failure) : Prop :=
  lookupPath? k w.own.outcomes = some (.error f) ∨ ∃ path, lookupPath? k w.own.outcomes = some (.ok path)

/-- Whether the failures in the table are those that the engine keeps for the targets of signals. -/
def Backed (w : World LocalState) : Prop :=
  ∀ target message f, w.failures.get? (signalKey target message) = some f →
    Reported w ⟨signalKey target message⟩ f

/-- A world of which this holds, and in which no such target is being built. -/
structure Vouched (w : World LocalState) : Prop where
  backed : Backed w
  idle : ∀ q ∈ w.own.inProgress, ¬ IsSignal q

theorem Backed.of_eq (h : Backed w) (outcomes : w'.own.outcomes = w.own.outcomes)
    (failures : w'.failures = w.failures) : Backed w' := by
  intro target message f entered
  unfold Reported
  rw [outcomes]
  exact h target message f (failures ▸ entered)

/-- The outcome of a target that was not known yet takes the place of none. -/
theorem Backed.finish (h : Backed w) (new : lookupPath? q w.own.outcomes = none) :
    Backed (finished q o w) := by
  have kept {k : Path} {o' : Outcome} (known : lookupPath? k w.own.outcomes = some o') :
      lookupPath? k (finished q o w).own.outcomes = some o' := by
    rw [lookupPath?_finished]
    split
    case isTrue same =>
      rw [← lookupPath?_congr same, new] at known
      simp at known
    case isFalse => exact known
  exact fun target message f entered =>
    (h target message f entered).imp kept fun ⟨path, built⟩ => ⟨path, kept built⟩

namespace Vouched

theorem of_eq (h : Vouched w) (outcomes : w'.own.outcomes = w.own.outcomes)
    (failures : w'.failures = w.failures) (inProgress : w'.own.inProgress = w.own.inProgress) :
    Vouched w' :=
  ⟨h.backed.of_eq outcomes failures, inProgress ▸ h.idle⟩

theorem of_new (own : w.own = {}) (table : w.failures = .empty) : Vouched w where
  backed target message f entered := by
    simp [table, FailureTable.empty, FailureTable.get?] at entered
  idle := by simp [own]

theorem not_listed (h : Vouched w) (signal : IsSignal q) : listsPath q w.own.inProgress = false := by
  rw [Bool.eq_false_iff]
  intro listed
  obtain ⟨r, mem, same⟩ := List.any_eq_true.1 listed
  exact h.idle r mem (signal.of_same (Path.same_comm r q ▸ same))

end Vouched

/-! ### What steps keep of it -/

/-- A step that leaves a vouched world if it is made in one. -/
def Vouches {α : Type} (m : Step α) : Prop :=
  ∀ w x w', m w = some (x, w') → Vouched w → Vouched w'

namespace Vouches

variable {α β : Type} {build : Path → Step Outcome}

theorem still {m : Step α} (h : ∀ w x w', m w = some (x, w') → w'.own.outcomes = w.own.outcomes ∧
    w'.failures = w.failures ∧ w'.own.inProgress = w.own.inProgress) : Vouches m := by
  intro w x w' run vouched
  obtain ⟨outcomes, failures, inProgress⟩ := h w x w' run
  exact vouched.of_eq outcomes failures inProgress

theorem pure (x : α) : Vouches (pure x) := still fun w y w' run => by
  obtain ⟨-, rfl⟩ := Prod.mk.inj (Option.some.inj run)
  exact ⟨rfl, rfl, rfl⟩

theorem newFailure (target : Path) (message : String) : Vouches (Work.newFailure target message) :=
  still fun w y w' run => by
    obtain ⟨-, rfl⟩ := Prod.mk.inj (Option.some.inj run)
    exact ⟨rfl, rfl, rfl⟩

theorem markHard (target : Path) : Vouches (markHard target) := still fun w y w' run => by
  obtain ⟨-, rfl⟩ := Prod.mk.inj (Option.some.inj run)
  exact ⟨rfl, rfl, rfl⟩

theorem bind_of_run {m : Step α} {f : α → Step β} (h : Vouches m)
    (hf : ∀ x w w', m w = some (x, w') → Vouches (f x)) : Vouches (m >>= f) := by
  intro w y w' run vouched
  obtain ⟨x, w₁, first, rest⟩ := Work.bind_eq_some.1 run
  exact hf x w w₁ first w₁ y w' rest (h w x w₁ first vouched)

/-- What rules do by themselves, signals apart, changes neither outcomes nor the table. -/
theorem alongside (p : Project) (q : Path) : Alongside p q fun _ m _ => Vouches m where
  pure := pure
  bind := bind_of_run
  get := still fun w y w' run => by
    obtain ⟨-, rfl⟩ := Prod.mk.inj (Option.some.inj run)
    exact ⟨rfl, rfl, rfl⟩
  fail := newFailure
  disk _ := still fun w y w' run => by
    rw [Work.onDisk_run] at run
    obtain ⟨-, rfl⟩ := Prod.mk.inj (Option.some.inj run)
    exact ⟨rfl, rfl, rfl⟩
  run _ arguments := still fun w y w' run => by
    obtain ⟨-, rfl⟩ := Prod.mk.inj (Option.some.inj run)
    exact ⟨rfl, rfl, rfl⟩
  attach _ _ tags := still fun w y w' run => by
    obtain ⟨-, rfl⟩ := Prod.mk.inj (Option.some.inj run)
    exact ⟨rfl, rfl, rfl⟩

theorem final (p : Project) (q : Path) :
    Final p q (fun _ m _ => Vouches m) fun m _ => Vouches m where
  bind := bind_of_run
  done := pure
  fail _ := bind_of_run (markHard _) fun _ _ _ _ => bind_of_run (newFailure _ _) fun _ _ _ _ => pure _
  copy _ _ _ := still fun w o w' run => by
    obtain ⟨copied, copy, -⟩ := tryRules_nil_eq_some run
    have copies := copied_of_copySource copy
    refine ⟨copies.noted.outcomes, ?_, copies.noted.inProgress⟩
    cases copies <;> rfl

/-- A signal enters the failure that the engine keeps for its target. -/
theorem signal (h : Vouches (build ⟨signalKey q message⟩))
    (answers : ∀ w o w', listsPath ⟨signalKey q message⟩ w.own.inProgress = false →
      build ⟨signalKey q message⟩ w = some (o, w') →
      lookupPath? ⟨signalKey q message⟩ w'.own.outcomes = some o) :
    Vouches ((engineOf p build).signal q message) := by
  intro w f w' run vouched
  cases kept : w.failures.get? (signalKey q message) with
  | some g =>
    obtain ⟨-, rfl⟩ := Prod.mk.inj (Option.some.inj ((Engine.signal_of_kept kept).symm.trans run))
    exact vouched
  | none =>
    obtain ⟨outcomes, w₁, asked⟩ := Engine.exists_of_signal kept run
    obtain ⟨w₂, run', failures, -, -, own⟩ := Engine.signal_of_new kept asked
    obtain ⟨-, rfl⟩ := Prod.mk.inj (Option.some.inj (run'.symm.trans run))
    obtain ⟨o, rfl, built⟩ := build_singleton_eq_some asked
    have vouched₁ := h w o w₁ built vouched
    have known := answers w o w₁ (vouched.not_listed (isSignal_signalKey q message)) built
    refine ⟨fun target' message' g entered => ?_, own ▸ vouched₁.idle⟩
    unfold Reported
    rw [own]
    rw [failures] at entered
    by_cases same : signalKey target' message' = signalKey q message
    · rw [same] at entered ⊢
      cases meanwhile : w₁.failures.get? (signalKey q message) with
      | some g' =>
        rw [FailureTable.get?_insert_of_some meanwhile] at entered
        exact vouched₁.backed q message g (meanwhile.trans entered)
      | none =>
        rw [FailureTable.get?_insert_of_none meanwhile] at entered
        obtain rfl := Option.some.inj entered
        cases o with
        | ok path => exact .inr ⟨path, known⟩
        | error g => exact .inl known
    · rw [FailureTable.get?_insert_of_ne same] at entered
      exact vouched₁.backed target' message' g entered

theorem batches (h : ∀ r, Vouches (build r)) (batches : List (List Path)) :
    Vouches ((engineOf p build).build batches) :=
  @Alongside.batches p .empty _ build build (alongside p .empty) batches fun _ _ r _ => h r

theorem tryRules (h : ∀ r, Vouches (build r))
    (answers : ∀ r w o w', listsPath r w.own.inProgress = false → build r w = some (o, w') →
      lookupPath? r w'.own.outcomes = some o) (rules : List Rule) (blocked : Option Failure) :
    Vouches (Local.tryRules p (engineOf p build) q rules blocked) :=
  @Alongside.final_tryRules p q _ build build (alongside p q) _ (final p q) (fun r _ => h r)
    (fun _ _ _ _ _ => signal (h _) (answers _)) rules blocked

end Vouches

/-- What a build of a target that is not being built comes to is kept. -/
theorem lookupPath?_of_buildWithin (idle : listsPath q w.own.inProgress = false)
    (run : buildWithin p n q w = some (o, w')) : lookupPath? q w'.own.outcomes = some o := by
  cases n with
  | zero => simp [buildWithin, Work.exhausted] at run
  | succ n => exact lookupPath?_of_once idle run

/-- Every build leaves a vouched world if it is made in one. -/
theorem buildWithin_vouches (p : Project) (n : Nat) (q : Path) : Vouches (buildWithin p n q) := by
  induction n generalizing q with
  | zero =>
    intro w o w' run
    simp [buildWithin, Work.exhausted] at run
  | succ n ih =>
    intro w o w' whole vouched
    have run := whole
    rw [buildWithin] at run
    cases known : lookupPath? q w.own.outcomes with
    | some o' =>
      rw [once_of_known known] at run
      obtain ⟨-, rfl⟩ := Prod.mk.inj (Option.some.inj run)
      exact vouched
    | none =>
      cases busy : listsPath q w.own.inProgress with
      | true =>
        rw [once_of_inProgress known busy] at run
        obtain ⟨-, rfl⟩ := Prod.mk.inj (Option.some.inj run)
        exact vouched.of_eq rfl rfl rfl
      | false =>
        have inProgress := (Calls.nestedTarget whole).grown.inProgress
        rw [once_of_new known busy] at run
        obtain ⟨⟨o', w₁⟩, run', same⟩ := Option.map_eq_some_iff.1 run
        obtain ⟨rfl, rfl⟩ := Prod.mk.inj same
        refine ⟨?_, inProgress ▸ vouched.idle⟩
        by_cases signal : IsSignal q
        · -- nothing is asked for, so that nothing was entered or kept
          rw [tryRules_of_isSignal signal] at run'
          have copies := copied_of_copySource run'
          have failures : w₁.failures = w.failures := by cases copies <;> rfl
          refine (vouched.backed.of_eq copies.noted.outcomes failures).finish ?_
          rw [copies.noted.outcomes]
          exact known
        · have building : Vouched (entered q w) :=
            ⟨vouched.backed.of_eq rfl rfl, List.forall_mem_cons.2 ⟨signal, vouched.idle⟩⟩
          have vouched₁ := Vouches.tryRules ih (fun _ _ _ _ => lookupPath?_of_buildWithin) rules none
            _ _ _ run' building
          have grown := (follows_tryRules (closed_true p) trivial
            (buildWithin_follows (closed_true p) n) rules none _ _ _ run').grown
          refine vouched₁.backed.finish ?_
          rw [grown.busy q]
          · exact known
          · change listsPath q (q :: _) = true
            rw [listsPath_cons, Path.same_self, Bool.true_or]

theorem Calls.vouched (h : Calls p w w') (vouched : Vouched w) : Vouched w' := by
  have within := buildWithin_vouches p
  have whole (r : Path) : Vouches (Local.build p r) := within (depth p r) r
  cases h with
  | target run => exact whole _ _ _ _ run vouched
  | batches run => exact Vouches.batches whole _ _ _ _ run vouched
  | signal run =>
    exact Vouches.signal (whole _) (fun _ _ _ => lookupPath?_of_buildWithin) _ _ _ run vouched
  | nestedTarget run => exact within _ _ _ _ _ run vouched
  | nestedBatches run => exact Vouches.batches (within _) _ _ _ _ run vouched
  | nestedSignal run =>
    exact Vouches.signal (within _ _) (fun _ _ _ => lookupPath?_of_buildWithin) _ _ _ run vouched

theorem Onwards.vouched (h : Onwards p w w') (vouched : Vouched w) : Vouched w' := by
  induction h with
  | refl => exact vouched
  | call _ call ih => exact call.vouched ih
  | change _ d ih => exact ih.of_eq rfl rfl rfl

/-! ### What signals are answered with -/

/-- A request for the target of a signal that is neither known nor being built, at any depth, asks for
nothing else. -/
theorem buildWithin_of_isSignal (signal : IsSignal k) (new : lookupPath? k w.own.outcomes = none)
    (idle : listsPath k w.own.inProgress = false) : buildWithin p (n + 1) k w =
      (copySource p k (entered k w)).map fun x => (x.1, finished k x.1 x.2) := by
  rw [buildWithin, once_of_new new idle, tryRules_of_isSignal signal]

/-- The target that stands for a signal fails, and the disk is as before, unless the project has a file
at its path when it is first asked for: then it is a copy of this, if that can be made.  In every world
that an engine comes to, what was handed out by a signal is the failure that the engine keeps for the
target, which it gives for every request from then on, or else the target was built. -/
theorem signals_reported (supplied : p.metadata.Supplied) {w₀ : World LocalState} (own : w₀.own = {})
    (table : w₀.failures = .empty) (later : Onwards p w₀ w) (target : Path) (message : String) :
    let k : Path := ⟨signalKey target message⟩
    (∃ o w₁, Local.build p k w = some (o, w₁) ∧
      (∀ o', lookupPath? k w.own.outcomes = some o' → o = o' ∧ w₁ = w) ∧
      (lookupPath? k w.own.outcomes = none →
        (w.disk.isFile (p.root / k) = false →
          o = .error ⟨w.nextFailure, k, "no rule to build target"⟩ ∧
            w₁.disk = w.disk ∧ w₁.runs = w.runs ∧ w₁.failures = w.failures) ∧
        (w.disk.isFile (p.root / k) = true →
          ∃ v, copySource p k (entered k w) = some (o, v) ∧ w₁ = finished k o v))) ∧
    (∀ f, w.failures.get? (signalKey target message) = some f → Reported w k f) ∧
    ∃ f w₁, (engine p).signal target message w = some (f, w₁) ∧ Reported w₁ k f ∧
      (lookupPath? k w₁.own.outcomes = some (.error f) → ∀ w₂, Onwards p w₁ w₂ →
        Local.build p k w₂ = some (.error f, w₂) ∧
        (engine p).signal target message w₂ = some (f, w₂)) := by
  intro k
  have vouched := later.vouched (.of_new own table)
  have signal : IsSignal k := isSignal_signalKey target message
  refine ⟨?_, vouched.backed target message, ?_⟩
  · cases known : lookupPath? k w.own.outcomes with
    | some o =>
      refine ⟨o, w, build_of_known known (Path.same_self k), ?_, by simp⟩
      exact fun o' same => ⟨Option.some.inj same, rfl⟩
    | none =>
      obtain ⟨o, w₁, run, -⟩ := exists_build_eq_some supplied.reaches k w
      refine ⟨o, w₁, run, by simp, fun _ => ?_⟩
      obtain ⟨n, e⟩ : ∃ n, depth p k = n + 1 := Nat.exists_eq_add_one.2 (by simp [depth])
      rw [Local.build, e, buildWithin_of_isSignal signal known (vouched.not_listed signal)] at run
      obtain ⟨⟨o', v⟩, copy, same⟩ := Option.map_eq_some_iff.1 run
      obtain ⟨rfl, rfl⟩ := Prod.mk.inj same
      refine ⟨fun absent => ?_, fun _ => ⟨v, copy, rfl⟩⟩
      have absent : (entered k w).disk.isFile (p.root / k) = false := absent
      unfold copySource at copy
      rw [Work.bind_of_eq_some Work.get_run] at copy
      simp only [absent, Bool.false_eq_true, ↓reduceIte] at copy
      obtain ⟨rfl, rfl⟩ := Prod.mk.inj (Option.some.inj copy)
      exact ⟨rfl, rfl, rfl, rfl⟩
  · obtain ⟨f, w₁, run⟩ := exists_signal_eq_some (p := p) supplied.reaches target message w
    have entered := Engine.get?_of_signal run
    refine ⟨f, w₁, run, ((Calls.signal run).vouched vouched).backed target message f entered, ?_⟩
    intro kept w₂ onwards
    exact ⟨build_of_known (onwards.grown.outcomes k _ kept) (Path.same_self k),
      Engine.signal_of_kept (onwards.grown.failures _ f entered)⟩

set_option maxRecDepth 100000 in
/-- In a new world of a small project, the target of a signal for a digest that there is not. -/
theorem signals_reported_smallDisk :
    let p := sampleProject smallDisk libConfig
    let k : Path := ⟨signalKey ⟨"lib/bar.stamp"⟩ "not a namespace"⟩
    p.metadata.Supplied ∧ (newWorld smallDisk).own = {} ∧ (newWorld smallDisk).failures = .empty ∧
      (∃ w₁, Local.build p k (newWorld smallDisk) =
          some (.error ⟨0, k, "no rule to build target"⟩, w₁) ∧ w₁.disk = smallDisk) ∧
      ∃ f w₁, (engine p).signal ⟨"lib/bar.stamp"⟩ "not a namespace" (newWorld smallDisk) =
        some (f, w₁) ∧ Reported w₁ k f := by
  intro p k
  have supplied : p.metadata.Supplied := .tree _
  obtain ⟨⟨o, w₁, run, -, answer⟩, -, f, w₂, run', reported, -⟩ :=
    signals_reported supplied (show (newWorld smallDisk).own = {} from rfl) rfl .refl
      ⟨"lib/bar.stamp"⟩ "not a namespace"
  obtain ⟨rfl, disk, -⟩ := (answer rfl).1 (by decide +kernel)
  exact ⟨supplied, rfl, rfl, ⟨w₁, run, disk⟩, f, w₂, run', reported⟩

/-- A project with a file at the target of the signal that `x.ml` is no namespaced file. -/
def namesakeDisk : Disk :=
  sampleDisk [["lib"]] [(["<<nsbuild:inapplicable:x.ml:not_a_namespaced_file>>"], "hi\n")]

set_option maxRecDepth 100000 in
/-- There the target that stands for the signal is built, and what the signal hands out is not what the
engine keeps for it. -/
theorem signalKey_built_namesakeDisk :
    let p := sampleProject namesakeDisk libConfig
    let k : Path := ⟨signalKey ⟨"x.ml"⟩ "not a namespaced file"⟩
    Tree.scan namesakeDisk ⟨"/p"⟩ libConfig = .ok (sampleTree namesakeDisk libConfig) ∧
      (∃ o w₁, Local.build p k (newWorld namesakeDisk) = some (o, w₁) ∧
        (o.isOk && !namesakeDisk.isFile (p.buildDir / k) && w₁.disk.isFile (p.buildDir / k)) = true) ∧
      ∃ f w₁, (engine p).signal ⟨"x.ml"⟩ "not a namespaced file" (newWorld namesakeDisk) = some (f, w₁) ∧
        lookupPath? k w₁.own.outcomes ≠ some (.error f) := by
  intro p k
  refine ⟨scan_sampleTree (by decide +kernel), exists_of_run (c := fun o w₁ => o.isOk &&
    !namesakeDisk.isFile (p.buildDir / k) && w₁.disk.isFile (p.buildDir / k)) (by decide +kernel), ?_⟩
  have signaled : ((engine p).signal ⟨"x.ml"⟩ "not a namespaced file" (newWorld namesakeDisk)).any
      (fun x => (lookupPath? k x.2.own.outcomes).any (·.isOk)) = true := by
    decide +kernel
  cases run : (engine p).signal ⟨"x.ml"⟩ "not a namespaced file" (newWorld namesakeDisk) with
  | none => simp [run] at signaled
  | some x =>
    refine ⟨x.1, x.2, rfl, fun error => ?_⟩
    rw [run, Option.any_some, error] at signaled
    simp [Except.isOk, Except.toBool] at signaled

end Local
end FlatModules
