import FlatModules.Proofs.Build.Spellings

/-!
# Build — one outcome for all spellings

The engine keeps one outcome for all spellings of a target, though rules and the disk go by the
spelling.  Spellings that both end in the last name are built or not built alike, if they are short
enough (`Lockstep.build`), and those that do not are never built.
-/

namespace FlatModules

open Naming FlatModules.Path Text

namespace Local

variable {p : Project} {q q' x : Path} {stem stem' last : String} {n : Nat}
  {w w' v v' : World LocalState}

/-! ### Targets that are met again -/

/-- A target whose outcome is kept, or that is being built, is not built again. -/
theorem of_met {o : Outcome} (met : w.own.Met q) (run : buildWithin p n q w = some (o, w')) :
    w'.disk = w.disk ∧ w'.own = w.own ∧ w'.failures = w.failures := by
  cases n with
  | zero => exact absurd run (by simp [buildWithin, Work.exhausted])
  | succ n =>
    rw [buildWithin] at run
    cases known : lookupPath? q w.own.outcomes with
    | some o' =>
      rw [once_of_known known] at run
      obtain ⟨-, rfl⟩ := Prod.mk.inj (Option.some.inj run)
      exact ⟨rfl, rfl, rfl⟩
    | none =>
      rw [once_of_inProgress known (met.resolve_right (· known))] at run
      obtain ⟨-, rfl⟩ := Prod.mk.inj (Option.some.inj run)
      exact ⟨rfl, rfl, rfl⟩

/-- A target that was asked for is met from then on. -/
theorem met_of_buildWithin {o : Outcome} (run : buildWithin p n q w = some (o, w')) :
    w'.own.Met q := by
  by_cases busy : listsPath q w.own.inProgress = true
  · exact .inl ((buildWithin_follows (closed_true p) n q trivial w o w' run).grown.inProgress ▸ busy)
  · cases n with
    | zero => exact absurd run (by simp [buildWithin, Work.exhausted])
    | succ n =>
      rw [buildWithin] at run
      exact .inr (by rw [lookupPath?_of_once (Bool.not_eq_true _ ▸ busy) run]; simp)

theorem met_entered {s : LocalState} (met : s.Met x) :
    LocalState.Met { s with inProgress := q :: s.inProgress } x :=
  met.imp_left fun busy => by rw [listsPath_cons, busy, Bool.or_true]

theorem met_finished {s : LocalState} {o : Outcome} (met : s.Met x) :
    LocalState.Met { s with
      inProgress := s.inProgress.filter (!·.same q)
      outcomes := (q, o) :: s.outcomes } x := by
  by_cases same : q.same x = true
  · exact .inr (by simp [lookupPath?, same])
  · refine met.imp (fun busy => ?_) fun known => by simpa [lookupPath?, same] using known
    obtain ⟨y, mem, alike⟩ := List.any_eq_true.1 busy
    refine List.any_eq_true.2 ⟨y, List.mem_filter.2 ⟨mem, ?_⟩, alike⟩
    rw [Bool.not_eq_true', ← Bool.not_eq_true]
    exact fun met => same (Path.same_iff.2 ((Path.same_iff.1 met).symm.trans (Path.same_iff.1 alike)))

/-- A target that was asked for and failed fails again. -/
theorem fails_again {f : Failure} {o : Outcome} {w₁ w₂ : World LocalState}
    (run : buildWithin p n q w = some (.error f, w₁)) (run' : buildWithin p n q w₁ = some (o, w₂)) :
    ∃ f', o = .error f' := by
  cases n with
  | zero => exact absurd run (by simp [buildWithin, Work.exhausted])
  | succ n =>
    rw [buildWithin] at run run'
    by_cases busy : listsPath q w.own.inProgress = true
    · cases known : lookupPath? q w.own.outcomes with
      | some o' =>
        have same := run
        rw [once_of_known known] at same
        obtain ⟨rfl, rfl⟩ := Prod.mk.inj (Option.some.inj same)
        exact ⟨f, (Prod.mk.inj (Option.some.inj (run'.symm.trans run))).1⟩
      | none =>
        rw [once_of_inProgress known busy] at run
        obtain ⟨-, rfl⟩ := Prod.mk.inj (Option.some.inj run)
        rw [once_of_inProgress (w := { w with nextFailure := w.nextFailure + 1 }) known busy] at run'
        exact ⟨_, (Prod.mk.inj (Option.some.inj run')).1.symm⟩
    · rw [once_of_known (lookupPath?_of_once (Bool.not_eq_true _ ▸ busy) run)] at run'
      exact ⟨f, (Prod.mk.inj (Option.some.inj run')).1.symm⟩

/-- The rules that are tried for the dependencies of a source file. -/
theorem tryRules_depends_eq {kind : SourceKind} {build : Path → Step Outcome}
    (hs : (Rule.depends kind).product.stem? q = some stem) (blocked : Option Failure) :
    tryRules p (engineOf p build) q rules blocked =
      tryRules p (engineOf p build) q [.depends kind, .plainDepends] blocked := by
  obtain ⟨text, -⟩ := Pattern.stem?_ending_eq_some_iff.1 hs
  have named : q = (⟨stem⟩ : Path).append (Rule.depends kind).ending := by
    rw [Path.append, ← text]
  have other {k : SourceKind} (ne : k ≠ kind) : (Rule.depends k).product.stem? q = none := by
    rw [named]
    exact stem?_depends_other ne
  rw [tryRules_rules rules_filter_s (getLast?_eq_of_stem? hs (by cases kind <;> decide)),
    tryRules_matched, tryRules_matched _ _ [.depends kind, .plainDepends]]
  cases kind with
  | implementation => simp [hs, other (k := .interface)]
  | interface => simp [hs, other (k := .implementation)]

theorem stem?_plain {kind : SourceKind} (hs : (Rule.depends kind).product.stem? q = some stem) :
    Rule.plainDepends.product.stem? q = some (stem ++ "." ++ kind.extension) := by
  obtain ⟨text, -⟩ := Pattern.stem?_ending_eq_some_iff.1 hs
  refine Pattern.stem?_ending_eq_some_iff.2 ⟨?_, by cases kind <;> simp [SourceKind.extension]⟩
  rw [text, Rule.ending, ← String.append_assoc, ← String.append_assoc]
  rfl

theorem writes_writeDepends {kind : SourceKind} {build : Path → Step Outcome} {f : NamespacedFile}
    (hs : (Rule.depends kind).product.stem? q = some stem)
    (file : p.metadata.fileOfKind? kind ⟨stem ++ "." ++ kind.extension⟩ = some f) :
    Writes q ((Rule.depends kind).apply (contextOf p build) q) := by
  have source : q.dropSuffix? dependsSuffix = some ⟨stem ++ "." ++ kind.extension⟩ := by
    obtain ⟨text, -⟩ := Pattern.stem?_ending_eq_some_iff.1 (stem?_plain hs)
    have named : q = (⟨stem ++ "." ++ kind.extension⟩ : Path).append dependsSuffix := by
      rw [Path.append, ← Rule.ending, ← text]
    rw [named, dropSuffix?_append]
  change Writes q ((contextOf p build).writeDepends (.depends kind) kind q)
  unfold Context.writeDepends
  rw [hs, source]
  refine Writes.some_bind (Writes.some_bind ?_)
  have file : (contextOf p build).metadata.fileOfKind? kind ⟨stem ++ "." ++ kind.extension⟩ = some f := file
  rw [file]
  refine Writes.some_bind (Writes.bind (.lift _) fun _ => Writes.bind (.analyze _ _) fun _ => ?_)
  exact .writeOutput _

/-- The failure that a target is blocked by, once a dependency of one more rule failed. -/
def blockedBy (w : World LocalState) (failure : Failure) (blocked : Option Failure) : Option Failure :=
  if blocked.isNone ∧ listsPath failure.target w.own.hard then some failure else blocked

theorem blockedBy_rel {f f' : Failure} {blocked blocked' : Option Failure} (alike : World.Alike w v)
    (same : f.target.parts = f'.target.parts)
    (both : Option.Rel (fun f g => f.target.parts = g.target.parts) blocked blocked') :
    Option.Rel (fun f g => f.target.parts = g.target.parts) (blockedBy w f blocked)
      (blockedBy v f' blocked') := by
  have none_ : blocked.isNone = blocked'.isNone := by cases both <;> rfl
  unfold blockedBy
  rw [listsPath_congr alike.own.hard same, none_]
  split
  exacts [.some same, both]

/-- A rule of which a dependency failed is passed over. -/
theorem tryRules_of_failed {build : Path → Step Outcome} {r : Rule} {rest : List Rule}
    {blocked : Option Failure} {outcomes : List Outcome} {failure : Failure} {w₁ : World LocalState}
    (hs : r.product.stem? q = some stem)
    (asked : (engineOf p build).build (r.dependencies.map fun d => [d.fill stem]) w = some (outcomes, w₁))
    (failed : firstError? outcomes = some failure) :
    tryRules p (engineOf p build) q (r :: rest) blocked w =
      tryRules p (engineOf p build) q rest (blockedBy w₁ failure blocked) w₁ := by
  rw [tryRules, hs]
  refine (Work.bind_of_eq_some asked).trans ?_
  simp only [failed]
  refine (Work.bind_of_eq_some (a := listsPath failure.target w₁.own.hard) (v := w₁) rfl).trans ?_
  unfold blockedBy
  split <;> rfl

/-- A rule that leaves its target to no other is not dispatched so. -/
theorem dispatch_of_writes {engine : Engine LocalState} {attempt : Attempt LocalState Applied}
    (writes : Writes q attempt) {result : Except DispatchError Path}
    (run : engine.dispatch q attempt w = some (result, w')) (f : Failure) :
    result ≠ .error (.inapplicable f) := by
  obtain ⟨applied, w₁, tried, -⟩ := Work.bind_eq_some.1 run
  rcases writes w applied w₁ tried with rfl | ⟨e, rfl, hard⟩
  · obtain ⟨rfl, -⟩ := Prod.mk.inj (Option.some.inj ((dispatch_of_built tried).symm.trans run))
    simp
  · obtain ⟨rfl, -⟩ := Prod.mk.inj (Option.some.inj ((dispatch_of_final tried hard).symm.trans run))
    simp

/-- What a signal comes to that finds no failure: the target that stands for it is asked for, and a
failure kept under its key alone. -/
theorem exists_of_signal {message : String} {f : Failure}
    (new : w.failures.get? (signalKey q message) = none)
    (run : (engineOf p (buildWithin p n)).signal q message w = some (f, w')) :
    ∃ o w₁, buildWithin p n ⟨signalKey q message⟩ w = some (o, w₁) ∧
      w'.disk = w₁.disk ∧ w'.own = w₁.own ∧
      ∀ key, w'.failures.get? key ≠ none → key = signalKey q message ∨ w₁.failures.get? key ≠ none := by
  have kept {u u' : World LocalState} {g x : Failure}
      (run : keepFailure (signalKey q message) g u = some (x, u')) :
      u'.disk = u.disk ∧ u'.own = u.own ∧
        ∀ key, u'.failures.get? key ≠ none → key = signalKey q message ∨ u.failures.get? key ≠ none := by
    obtain ⟨-, rfl⟩ := Prod.mk.inj (Option.some.inj run)
    refine ⟨rfl, rfl, fun key known => ?_⟩
    by_cases same : key = signalKey q message
    · exact .inl same
    · exact .inr (FailureTable.get?_insert_of_ne same ▸ known)
  obtain ⟨_, _, got, run⟩ := Work.bind_eq_some.1 run
  obtain ⟨rfl, rfl⟩ := Prod.mk.inj (Option.some.inj got)
  simp only [new] at run
  obtain ⟨outcomes, w₁, asked, run⟩ := Work.bind_eq_some.1 run
  obtain ⟨o, rfl, built⟩ := build_singleton_eq_some asked
  refine ⟨o, w₁, built, ?_⟩
  cases o with
  | error failure => exact kept run
  | ok path =>
    obtain ⟨failure, w₂, made, run⟩ := Work.bind_eq_some.1 run
    obtain ⟨-, rfl⟩ := Prod.mk.inj (Option.some.inj made)
    exact kept (u := { w₁ with nextFailure := w₁.nextFailure + 1 }) run

/-- A signal that finds a failure changes nothing. -/
theorem signal_of_kept {engine : Engine LocalState} {message : String} {f g : Failure}
    (known : w.failures.get? (signalKey q message) = some f)
    (run : engine.signal q message w = some (g, w')) : w' = w := by
  obtain ⟨_, _, got, run⟩ := Work.bind_eq_some.1 run
  obtain ⟨rfl, rfl⟩ := Prod.mk.inj (Option.some.inj got)
  simp only [known] at run
  exact (Prod.mk.inj (Option.some.inj run)).2.symm

/-- Without a name after the last slash a target has neither a rule nor a file. -/
theorem tryRules_of_idle {engine : Engine LocalState} {above : String} (spelled : q.Spelled above last)
    (idle : Idle last) (sound : w.disk.Sound) (rs : List Rule) : tryRules p engine q rs none w =
      some (.error ⟨w.nextFailure, q, "no rule to build target"⟩,
        { w with nextFailure := w.nextFailure + 1 }) := by
  have none_ : (rs.filter fun r => (r.product.stem? q).isSome) = [] :=
    List.filter_eq_nil_iff.2 fun r _ => by simp [stem?_eq_none_of_idle spelled idle r]
  obtain ⟨above', below⟩ := spelled.div p.root
  obtain ⟨front, segments⟩ := below.segments_eq
  have missing : w.disk.isFile (p.root / q) = false := by
    have end_ : (p.root / q).segments.getLast? = some last.toList := by simp [segments]
    refine Disk.isFile_eq_false_of_idle sound end_ ?_
    rcases idle with rfl | rfl
    exacts [.inl rfl, .inr rfl]
  rw [tryRules_matched, none_]
  unfold tryRules
  rw [Work.bind_of_eq_some (copySource_of_not_isFile missing)]
  rfl

/-! ### Builds in lockstep -/

/-- Worlds stay alike if all that changes is which failures are kept for targets that were asked
for. -/
theorem alike_of_same (h : World.Alike w v) (disk : w'.disk = w.disk) (own : w'.own = w.own)
    (asked : ∀ key, w'.failures.get? key ≠ none → w.own.Met ⟨key⟩) (disk' : v'.disk = v.disk)
    (own' : v'.own = v.own) (asked' : ∀ key, v'.failures.get? key ≠ none → v.own.Met ⟨key⟩) :
    World.Alike w' v' :=
  ⟨by rw [disk, disk', h.disk], disk ▸ h.sound, by rw [own, own']; exact h.own,
    by rw [own]; exact asked, by rw [own']; exact asked'⟩

namespace Lockstep

theorem signal {message : String}
    (parts : (⟨signalKey q message⟩ : Path).parts = (⟨signalKey q' message⟩ : Path).parts)
    (h : Lockstep Outcome.Alike (buildWithin p n ⟨signalKey q message⟩)
      (buildWithin p n ⟨signalKey q' message⟩)) :
    Lockstep (fun _ _ => True) ((engineOf p (buildWithin p n)).signal q message)
      ((engineOf p (buildWithin p n)).signal q' message) := by
  intro w v f w' g v' alike run run'
  refine ⟨trivial, ?_⟩
  have met := met_iff alike.own parts
  -- Asking again for a target that is met changes nothing but which failures are kept.
  have again {u u' : World LocalState} {x : Path} {f : Failure} (asked : u.own.Met ⟨signalKey x message⟩)
      (failures : ∀ key, u.failures.get? key ≠ none → u.own.Met ⟨key⟩)
      (new : u.failures.get? (signalKey x message) = none)
      (run : (engineOf p (buildWithin p n)).signal x message u = some (f, u')) :
      u'.disk = u.disk ∧ u'.own = u.own ∧ ∀ key, u'.failures.get? key ≠ none → u.own.Met ⟨key⟩ := by
    obtain ⟨o, u₁, built, disk, own, kept⟩ := exists_of_signal new run
    obtain ⟨disk₁, own₁, failures₁⟩ := of_met asked built
    refine ⟨disk.trans disk₁, own.trans own₁, fun key known => ?_⟩
    rcases kept key known with rfl | old
    exacts [asked, failures key (failures₁ ▸ old)]
  cases found : w.failures.get? (signalKey q message) with
  | some failure =>
    obtain rfl := signal_of_kept found run
    have asked := alike.asked _ (by rw [found]; simp)
    cases found' : v.failures.get? (signalKey q' message) with
    | some failure' =>
      obtain rfl := signal_of_kept found' run'
      exact alike
    | none =>
      obtain ⟨disk, own, kept⟩ := again (met.1 asked) alike.asked' found' run'
      exact alike_of_same alike rfl rfl alike.asked disk own kept
  | none =>
    cases found' : v.failures.get? (signalKey q' message) with
    | some failure' =>
      obtain rfl := signal_of_kept found' run'
      obtain ⟨disk, own, kept⟩ :=
        again (met.2 (alike.asked' _ (by rw [found']; simp))) alike.asked found run
      exact alike_of_same alike disk own kept rfl rfl alike.asked'
    | none =>
      obtain ⟨o, w₁, built, disk, own, kept⟩ := exists_of_signal found run
      obtain ⟨o', v₁, built', disk', own', kept'⟩ := exists_of_signal found' run'
      have alike₁ := (h _ _ _ _ _ _ alike built built').2
      refine alike_of_same alike₁ disk own (fun key known => ?_) disk' own' fun key known => ?_
      · rcases kept key known with rfl | old
        exacts [met_of_buildWithin built, alike₁.asked key old]
      · rcases kept' key known with rfl | old
        exacts [met_of_buildWithin built', alike₁.asked' key old]

/-- Ends of dispatching that the engine does not tell apart. -/
inductive Dispatched : Except DispatchError Path → Except DispatchError Path → Prop
  | built (path path' : Path) : Dispatched (.ok path) (.ok path')
  | inapplicable (f f' : Failure) : Dispatched (.error (.inapplicable f)) (.error (.inapplicable f'))
  | failed (e e' : RuleError) : Dispatched (.error (.rule e)) (.error (.rule e'))

/-- What comes of a rule for spellings of a target. -/
theorem dispatch (byParts : p.metadata.ByParts) (mates : Mates p q q') {r : Rule}
    (hs : r.product.stem? q = some stem) (hs' : r.product.stem? q' = some stem')
    (plain : r = .plainDepends → q = q')
    (h : ∀ x x', Mates p x x' → Lockstep Outcome.Alike (buildWithin p n x) (buildWithin p n x')) :
    Lockstep Dispatched
      ((engineOf p (buildWithin p n)).dispatch q (r.apply (contextOf p (buildWithin p n)) q))
      ((engineOf p (buildWithin p n)).dispatch q' (r.apply (contextOf p (buildWithin p n)) q')) := by
  have signal {reason : String} (hr : reason ∈ reasons) : Lockstep Dispatched
      (do return .error (.inapplicable (← (engineOf p (buildWithin p n)).signal q reason)))
      (do return .error (.inapplicable (← (engineOf p (buildWithin p n)).signal q' reason))) :=
    (signal (mates.signal hs hr).parts (h _ _ (mates.signal hs hr))).bind fun _ _ _ =>
      .pure (.inapplicable _ _)
  have applied : Lockstep
      (fun result result' => Ends Applied.Alike result result' ∧
        ∀ reason, reasonOf result = some reason → reason ∈ reasons)
      (r.apply (contextOf p (buildWithin p n)) q).run
      (r.apply (contextOf p (buildWithin p n)) q').run := by
    intro w v x w' y v' alike run run'
    obtain ⟨ends, alike'⟩ := apply byParts mates hs hs' plain (fun x => h x x (.refl x))
      w v x w' y v' alike run run'
    refine ⟨⟨ends, fun reason because => ?_⟩, alike'⟩
    cases x with
    | error e => exact reason_mem_of_error because
    | ok applied =>
      cases applied with
      | built path => simp [reasonOf] at because
      | inapplicable reason' =>
        obtain rfl := Option.some.inj because
        exact Reasoned.apply _ _ _ _ _ _ run
  refine applied.bind fun result result' reasoned => ?_
  obtain ⟨ends, because⟩ := reasoned
  cases ends with
  | ok alike =>
    cases alike with
    | built path path' => exact .pure (.built _ _)
    | inapplicable reason => exact signal (because _ rfl)
  | @error e e' same =>
    cases reason : e.reason? with
    | some reason' =>
      simp only [reason, ← same]
      exact signal (because _ reason)
    | none =>
      simp only [reason, ← same]
      exact .pure (.failed _ _)

theorem copySource (mates : Mates p q q') (ends : q.EndsIn last) :
    Lockstep Outcome.Alike (copySource p q) (copySource p q') := by
  have isFile := mates.congr ends (.inl rfl) (fun path (d : Disk) => d.isFile path)
    fun x y alike => funext fun d => alike.twins.isFile_eq d
  have parents := mates.congr ends (.inr rfl) DiskM.makeParents fun _ _ => DiskM.makeParents_congr
  have source := mates.congr ends (.inl rfl) (fun path => DiskM.copy path (p.buildDir / q))
    fun x y alike => by simp only [DiskM.copy, alike.twins.readBytes_eq]
  have destination := mates.congr ends (.inr rfl) (fun path => DiskM.copy (p.root / q') path)
    fun x y alike => by simp only [DiskM.copy, DiskM.write_congr alike.twins]
  unfold Local.copySource
  refine get.bind fun w v alike => ?_
  rw [congrFun isFile w.disk, alike.disk]
  split
  · have step : (do DiskM.makeParents (p.buildDir / q)
                    DiskM.copy (p.root / q) (p.buildDir / q) : DiskM Unit) =
        (do DiskM.makeParents (p.buildDir / q')
            DiskM.copy (p.root / q') (p.buildDir / q')) := by
      rw [parents, source, destination]
    have sound := Touches.sound (Touches.copy (p := p) (q := q))
    refine Lockstep.bind (Q := fun x y => x = y) (by rw [← step]; exact onDisk sound)
      fun copied copied' same => ?_
    obtain rfl := same
    split
    · exact .pure (.built _ _)
    · refine (markHard mates.parts).bind fun _ _ _ => ?_
      exact (newFailure mates.parts _ _).bind fun _ _ same => .pure (.failed same)
  · exact (newFailure mates.parts _ _).bind fun _ _ same => .pure (.failed same)

theorem tryRules_nil {engine engine' : Engine LocalState} (mates : Mates p q q') (ends : q.EndsIn last)
    {blocked blocked' : Option Failure}
    (both : Option.Rel (fun f g => f.target.parts = g.target.parts) blocked blocked') :
    Lockstep Outcome.Alike (Local.tryRules p engine q [] blocked)
      (Local.tryRules p engine' q' [] blocked') := by
  refine (copySource mates ends).bind fun o o' alike => ?_
  cases alike with
  | built path path' => cases both <;> exact .pure (.built _ _)
  | failed same =>
    cases both with
    | none => exact .pure (.failed same)
    | some same => exact .pure (.failed same)

/-- What comes of the rules for spellings of a target, if none writes dependencies as spelled. -/
theorem tryRules (byParts : p.metadata.ByParts) (mates : Mates p q q') (ends : q.EndsIn last)
    (plain : q = q' ∨ ¬ dependsSuffix.toList <:+ q.text.toList)
    (h : ∀ x x', Mates p x x' → Lockstep Outcome.Alike (buildWithin p n x) (buildWithin p n x'))
    (rs : List Rule) {blocked blocked' : Option Failure}
    (both : Option.Rel (fun f g => f.target.parts = g.target.parts) blocked blocked') :
    Lockstep Outcome.Alike (tryRules p (engineOf p (buildWithin p n)) q rs blocked)
      (tryRules p (engineOf p (buildWithin p n)) q' rs blocked') := by
  induction rs generalizing blocked blocked' with
  | nil => exact tryRules_nil mates ends both
  | cons r rs ih =>
    have stems := stem?_rel mates.beside r
    unfold Local.tryRules
    cases hs : r.product.stem? q with
    | none =>
      have hs' : r.product.stem? q' = none := by
        rw [hs] at stems
        generalize r.product.stem? q' = found at stems
        cases stems
        rfl
      rw [hs']
      exact ih both
    | some stem =>
      obtain ⟨stem', hs'⟩ : ∃ stem', r.product.stem? q' = some stem' := by
        rw [hs] at stems
        generalize r.product.stem? q' = found at stems
        cases stems with
        | some => exact ⟨_, rfl⟩
      rw [hs']
      have asked : List.Forall₂ (fun x y => Lockstep Outcome.Alike (buildWithin p n x) (buildWithin p n y))
          (r.dependencies.map (·.fill stem)) (r.dependencies.map (·.fill stem')) :=
        List.forall₂_map_left_iff.2 (List.forall₂_map_right_iff.2 (List.forall₂_same.2 fun d hd =>
          h _ _ (mates.dependency hs hs' hd)))
      have builds := Lockstep.builds (p := p) asked
      rw [List.map_map, List.map_map] at builds
      refine builds.bind fun os os' alike => ?_
      have failed := firstError?_rel alike
      generalize firstError? os = failure at failed
      generalize firstError? os' = failure' at failed
      cases failed with
      | some same =>
        refine (isHard same).bind fun hard hard' agree => ?_
        obtain rfl := agree
        have none_ : blocked.isNone = blocked'.isNone := by cases both <;> rfl
        rw [none_]
        split
        exacts [ih (.some same), ih both]
      | none =>
        have asSpelled (e : r = .plainDepends) : q = q' := by
          subst e
          obtain ⟨text, -⟩ := Pattern.stem?_ending_eq_some_iff.1 hs
          exact plain.resolve_right fun other => other ⟨stem.toList, by simp [text, Rule.ending]⟩
        refine (dispatch byParts mates hs hs' asSpelled h).bind fun result result' alike => ?_
        cases alike with
        | built path path' => exact .pure (.built _ _)
        | inapplicable f f' => exact ih both
        | failed e e' =>
          refine (markHard mates.parts).bind fun _ _ _ => ?_
          exact (newFailure mates.parts _ _).bind fun _ _ same => .pure (.failed same)

/-- What comes of the rules for the dependencies of a source file under its flat name.  The rule for
plain dependencies is tried only where the source was not built, and then passed over. -/
theorem tryRules_depends {kind : SourceKind} (byParts : p.metadata.ByParts) (mates : Mates p q q')
    (ends : q.EndsIn last)
    (h : ∀ x x', Mates p x x' → Lockstep Outcome.Alike (buildWithin p n x) (buildWithin p n x'))
    (hs : (Rule.depends kind).product.stem? q = some stem)
    (hs' : (Rule.depends kind).product.stem? q' = some stem')
    (file : (p.metadata.fileOfKind? kind ⟨stem ++ "." ++ kind.extension⟩).isSome) :
    Lockstep Outcome.Alike (Local.tryRules p (engineOf p (buildWithin p n)) q rules none)
      (Local.tryRules p (engineOf p (buildWithin p n)) q' rules none) := by
  have plain : Rule.plainDepends.product.stem? q = some (stem ++ "." ++ kind.extension) := stem?_plain hs
  have plain' : Rule.plainDepends.product.stem? q' = some (stem' ++ "." ++ kind.extension) := stem?_plain hs'
  have source : Mates p ⟨stem ++ "." ++ kind.extension⟩ ⟨stem' ++ "." ++ kind.extension⟩ := by
    have both := mates.dependency hs hs' (d := .ending ("." ++ kind.extension)) (by simp [Rule.dependencies])
    rwa [Pattern_ending_fill, Pattern_ending_fill, ← String.append_assoc, ← String.append_assoc] at both
  rw [tryRules_depends_eq hs, tryRules_depends_eq hs']
  have fill {r : Rule} {d x : String} (deps : r.dependencies = [.ending d]) :
      (r.dependencies.map fun e => [e.fill x]) = [[⟨x ++ d⟩]] := by
    rw [deps, List.map_singleton, Pattern_ending_fill]
  intro w v o w' o' v' alike run run'
  have tries := run
  have tries' := run'
  rw [Local.tryRules, hs] at tries
  rw [Local.tryRules, hs'] at tries'
  obtain ⟨os, w₁, asked, tries⟩ := Work.bind_eq_some.1 tries
  obtain ⟨os', v₁, asked', tries'⟩ := Work.bind_eq_some.1 tries'
  have first := asked
  have first' := asked'
  rw [fill rfl, ← String.append_assoc] at first first'
  obtain ⟨s, rfl, built⟩ := build_singleton_eq_some first
  obtain ⟨s', rfl, built'⟩ := build_singleton_eq_some first'
  obtain ⟨related, alike₁⟩ := h _ _ source _ _ _ _ _ _ alike built built'
  cases related with
  | built path path' =>
    -- The rule for the dependencies of the file builds them, or fails for good.
    have final : Lockstep (fun result result' => Dispatched result result' ∧
          ∀ f, result ≠ .error (.inapplicable f))
        ((engineOf p (buildWithin p n)).dispatch q
          ((Rule.depends kind).apply (contextOf p (buildWithin p n)) q))
        ((engineOf p (buildWithin p n)).dispatch q'
          ((Rule.depends kind).apply (contextOf p (buildWithin p n)) q')) := by
      intro w v x w' y v' alike run run'
      have both := dispatch byParts mates hs hs' (by simp) h w v x w' y v' alike run run'
      exact ⟨⟨both.1, dispatch_of_writes (writes_writeDepends hs (Option.some_get file).symm) run⟩, both.2⟩
    refine (final.bind fun result result' settled => ?_) _ _ _ _ _ _ alike₁ tries tries'
    obtain ⟨ends, own⟩ := settled
    cases ends with
    | built path path' => exact .pure (.built _ _)
    | inapplicable f f' => exact absurd rfl (own f)
    | failed e e' =>
      refine (markHard mates.parts).bind fun _ _ _ => ?_
      exact (newFailure mates.parts _ _).bind fun _ _ same => .pure (.failed same)
  | @failed failure failure' same =>
    -- The source is asked for once more, fails again, and the project's own file is copied.
    rw [tryRules_of_failed hs asked rfl] at run
    rw [tryRules_of_failed hs' asked' rfl] at run'
    have again := run
    have again' := run'
    rw [Local.tryRules, plain] at again
    rw [Local.tryRules, plain'] at again'
    obtain ⟨os₂, w₂, asked₂, -⟩ := Work.bind_eq_some.1 again
    obtain ⟨os₂', v₂, asked₂', -⟩ := Work.bind_eq_some.1 again'
    have second := asked₂
    have second' := asked₂'
    rw [fill rfl, String.append_empty] at second second'
    obtain ⟨s₂, rfl, built₂⟩ := build_singleton_eq_some second
    obtain ⟨s₂', rfl, built₂'⟩ := build_singleton_eq_some second'
    obtain ⟨f, rfl⟩ := fails_again built built₂
    obtain ⟨f', rfl⟩ := fails_again built' built₂'
    obtain ⟨same₂, alike₂⟩ := h _ _ source _ _ _ _ _ _ alike₁ built₂ built₂'
    rw [tryRules_of_failed plain asked₂ rfl] at run
    rw [tryRules_of_failed plain' asked₂' rfl] at run'
    cases same₂ with
    | failed same₂ =>
      have both := blockedBy_rel alike₂ same₂ (blockedBy_rel alike₁ same .none)
      exact tryRules_nil mates ends both _ _ _ _ _ _ alike₂ run run'

/-- Nothing comes of the rules for spellings without a name after the last slash. -/
theorem tryRules_of_idle {engine engine' : Engine LocalState} {above above' last' : String}
    (spelled : q.Spelled above last) (spelled' : q'.Spelled above' last') (idle : Idle last)
    (idle' : Idle last') (same : q.parts = q'.parts) (rs : List Rule) :
    Lockstep Outcome.Alike (Local.tryRules p engine q rs none) (Local.tryRules p engine' q' rs none) := by
  intro w v x w' y v' alike run run'
  rw [Local.tryRules_of_idle spelled idle alike.sound] at run
  rw [Local.tryRules_of_idle spelled' idle' (alike.disk ▸ alike.sound)] at run'
  obtain ⟨rfl, rfl⟩ := Prod.mk.inj (Option.some.inj run)
  obtain ⟨rfl, rfl⟩ := Prod.mk.inj (Option.some.inj run')
  exact ⟨.failed same, alike.disk, alike.sound, alike.own, alike.asked, alike.asked'⟩

theorem once {produce produce' : Step Outcome} (same : q.parts = q'.parts)
    (h : Lockstep Outcome.Alike produce produce') :
    Lockstep Outcome.Alike (Local.once q produce) (Local.once q' produce') := by
  unfold Local.once
  refine own.bind fun s t alike => ?_
  have kept := lookupPath?_rel alike.outcomes same
  generalize lookupPath? q s.outcomes = found at kept
  generalize lookupPath? q' t.outcomes = found' at kept
  cases kept with
  | some alike => exact .pure alike
  | none =>
    refine own.bind fun s t alike => ?_
    rw [listsPath_congr alike.inProgress same]
    split
    · exact (newFailure same _ _).bind fun _ _ same => .pure (.failed same)
    · refine Lockstep.bind (Q := fun _ _ => True)
        (modifyOwn (fun s t alike => ?_) (fun s x => met_entered) fun s x => met_entered) fun _ _ _ => ?_
      · exact ⟨alike.outcomes, .cons same alike.inProgress, alike.hard, alike.attached⟩
      refine h.bind fun o o' related => ?_
      refine Lockstep.bind (Q := fun _ _ => True)
        (modifyOwn (fun s t alike => ?_) (fun s x => met_finished) fun s x => met_finished)
        fun _ _ _ => .pure related
      exact ⟨.cons ⟨same, related⟩ alike.outcomes, filter_same_rel alike.inProgress same, alike.hard,
        alike.attached⟩

/-- Builds of spellings of a target. -/
theorem buildWithin (byParts : p.metadata.ByParts) (n : Nat) : ∀ q q', Mates p q q' →
    Lockstep Outcome.Alike (buildWithin p n q) (buildWithin p n q') := by
  induction n with
  | zero => exact fun q q' _ w v x w' y v' _ run => absurd run (by simp [Local.buildWithin, Work.exhausted])
  | succ n ih =>
    intro q q' mates
    refine once mates.parts ?_
    obtain ⟨a, b, last, abreast, spelled, spelled'⟩ := mates.beside
    by_cases idle : Idle last
    · exact tryRules_of_idle spelled spelled' idle idle mates.parts rules
    · obtain ⟨front, segments⟩ := spelled.segments_eq
      have ends : q.EndsIn last := ⟨front, segments, not_or.1 idle⟩
      rcases mates.either with same | ⟨-, -, settled⟩
      · exact tryRules byParts mates ends (.inl same) ih rules .none
      · by_cases depends : dependsSuffix.toList <:+ q.text.toList
        · obtain ⟨kind, stem, hs, file⟩ := settled depends
          obtain ⟨stem', hs'⟩ : ∃ stem', (Rule.depends kind).product.stem? q' = some stem' := by
            have stems := stem?_rel mates.beside (Rule.depends kind)
            rw [hs] at stems
            generalize (Rule.depends kind).product.stem? q' = found at stems
            cases stems with
            | some => exact ⟨_, rfl⟩
          exact tryRules_depends byParts mates ends ih hs hs' file
        · exact tryRules byParts mates ends (.inr depends) ih rules .none

end Lockstep

/-! ### One outcome for all spellings -/

end Local
end FlatModules
