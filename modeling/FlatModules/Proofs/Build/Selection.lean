import FlatModules.Proofs.Build.Termination
import FlatModules.Proofs.Disk.Entries
import FlatModules.Proofs.Tree.Lookup

/-!
# Build — which rule builds a generated target

Each target that a tree generates has a rule of its own, which alone writes it: the build of the
target either comes to what that rule comes to or, where a declared dependency of the rule failed,
passes the rule over (`SettledBy`).  Only roots and resolved dependencies have a rule that can be
passed over, and then the project's own file of the name is all that can take the target's place
(`Reached.settled`).
-/

namespace FlatModules

namespace Local

variable {p : Project} {build : Path → Step Outcome} {target : Path}

/-- What rules work with that ask for other targets by `build`. -/
def contextOf (p : Project) (build : Path → Step Outcome) : Context LocalState :=
  ⟨engineOf p build, p.metadata, p.config, p.programs⟩

/-- Why a rule leaves a target to others, if that is how it ended. -/
def reasonOf : Except RuleError Applied → Option String
  | .ok (.built _) => none
  | .ok (.inapplicable reason) => some reason
  | .error e => e.reason?

/-! ### How attempts end -/

section Dispatch

variable {σ : Type} {e : Engine σ} {attempt : Attempt σ Applied} {w w' w₁ : World σ}
  {result : Except RuleError Applied} {err : RuleError} {path : Path} {reason : String}
  {answer : Except DispatchError Path}

/-- An attempt builds its target, fails for good, or leaves the target to others. -/
theorem attempt_cases (result : Except RuleError Applied) :
    (∃ path, result = .ok (.built path)) ∨ (∃ err, result = .error err ∧ err.reason? = none) ∨
      ∃ reason, reasonOf result = some reason := by
  obtain err | path | reason := result
  · cases final : err.reason? with
    | none => exact .inr (.inl ⟨err, rfl, final⟩)
    | some reason => exact .inr (.inr ⟨reason, final⟩)
  · exact .inl ⟨path, rfl⟩
  · exact .inr (.inr ⟨reason, rfl⟩)

theorem dispatch_of_built (run : attempt.run w = some (.ok (.built path), w₁)) :
    e.dispatch target attempt w = some (.ok path, w₁) := by
  unfold Engine.dispatch
  rw [Work.bind_of_eq_some run]
  rfl

theorem dispatch_of_final (run : attempt.run w = some (.error err, w₁)) (final : err.reason? = none) :
    e.dispatch target attempt w = some (.error (.rule err), w₁) := by
  unfold Engine.dispatch
  rw [Work.bind_of_eq_some run]
  simp only [final]
  rfl

/-- An attempt that leaves its target to others comes to what the signal for its reason does. -/
theorem dispatch_of_reason (run : attempt.run w = some (result, w₁))
    (because : reasonOf result = some reason) :
    e.dispatch target attempt w =
      (e.signal target reason w₁).map fun x => (.error (.inapplicable x.1), x.2) := by
  have signaled : (do return .error (.inapplicable (← e.signal target reason)) :
      Work σ (Except DispatchError Path)) w₁ =
      (e.signal target reason w₁).map fun x => (.error (.inapplicable x.1), x.2) := by
    change (e.signal target reason w₁).bind _ = _
    cases e.signal target reason w₁ <;> rfl
  unfold Engine.dispatch
  rw [Work.bind_of_eq_some run, ← signaled]
  obtain err | path | reason' := result
  · have because : err.reason? = some reason := because
    simp only [because]
  · cases because
  · obtain rfl := Option.some.inj because
    rfl

/-- What a dispatched attempt comes to: what was built and what failed for good come through as they are,
in the world that the attempt leaves, and the rest is signaled there. -/
theorem dispatch_eq_some : e.dispatch target attempt w = some (answer, w') ↔
    (∃ path, attempt.run w = some (.ok (.built path), w') ∧ answer = .ok path) ∨
    (∃ err, attempt.run w = some (.error err, w') ∧ err.reason? = none ∧
      answer = .error (.rule err)) ∨
    ∃ result w₁ reason f, attempt.run w = some (result, w₁) ∧ reasonOf result = some reason ∧
      e.signal target reason w₁ = some (f, w') ∧ answer = .error (.inapplicable f) := by
  constructor
  · intro run
    obtain ⟨result, w₁, tried, -⟩ := Work.bind_eq_some.1 run
    rcases attempt_cases result with ⟨path, rfl⟩ | ⟨err, rfl, final⟩ | ⟨reason, because⟩
    · obtain ⟨rfl, rfl⟩ := Prod.mk.inj (Option.some.inj ((dispatch_of_built tried).symm.trans run))
      exact .inl ⟨path, tried, rfl⟩
    · obtain ⟨rfl, rfl⟩ :=
        Prod.mk.inj (Option.some.inj ((dispatch_of_final tried final).symm.trans run))
      exact .inr (.inl ⟨err, tried, final, rfl⟩)
    · rw [dispatch_of_reason tried because] at run
      obtain ⟨⟨f, w₂⟩, signal, same⟩ := Option.map_eq_some_iff.1 run
      obtain ⟨rfl, rfl⟩ := Prod.mk.inj same
      exact .inr (.inr ⟨result, w₁, reason, f, tried, because, signal, rfl⟩)
  · rintro (⟨path, tried, rfl⟩ | ⟨err, tried, final, rfl⟩ |
      ⟨result, w₁, reason, f, tried, because, signal, rfl⟩)
    · exact dispatch_of_built tried
    · exact dispatch_of_final tried final
    · rw [dispatch_of_reason tried because, signal]
      rfl

theorem dispatch_eq_ok : e.dispatch target attempt w = some (.ok path, w') ↔
    attempt.run w = some (.ok (.built path), w') := by
  simp [dispatch_eq_some]

theorem dispatch_eq_rule : e.dispatch target attempt w = some (.error (.rule err), w') ↔
    attempt.run w = some (.error err, w') ∧ err.reason? = none := by
  simp [dispatch_eq_some]

theorem dispatch_eq_inapplicable {f : Failure} :
    e.dispatch target attempt w = some (.error (.inapplicable f), w') ↔
      ∃ result w₁ reason, attempt.run w = some (result, w₁) ∧ reasonOf result = some reason ∧
        e.signal target reason w₁ = some (f, w') := by
  simp [dispatch_eq_some]

end Dispatch

/-! ### The rules in turn -/

/-- A world in which a target failed for a reason of its own. -/
def hardened (target : Path) (w : World LocalState) : World LocalState :=
  { w with
    nextFailure := w.nextFailure + 1
    own := { w.own with hard := target :: w.own.hard } }

theorem tryRules_cons_of_none {r : Rule} {rest : List Rule} (h : r.product.stem? target = none)
    (engine : Engine LocalState) (blocked : Option Failure) :
    tryRules p engine target (r :: rest) blocked = tryRules p engine target rest blocked := by
  rw [tryRules, h]

/-- What the trying of a rule came to that a target matches. -/
inductive Tried (p : Project) (build : Path → Step Outcome) (target : Path) (r : Rule)
    (stem : String) (w : World LocalState) : Option Outcome → World LocalState → Prop
  /-- A declared dependency failed. -/
  | skipped {outcomes w₁ failure}
      (asked : (engineOf p build).build (r.dependencies.map fun d => [d.fill stem]) w =
        some (outcomes, w₁))
      (failed : firstError? outcomes = some failure) : Tried p build target r stem w none w₁
  /-- The rule built the target. -/
  | built {outcomes w₁ path w₂}
      (asked : (engineOf p build).build (r.dependencies.map fun d => [d.fill stem]) w =
        some (outcomes, w₁))
      (ready : firstError? outcomes = none)
      (run : (r.apply (contextOf p build) target).run w₁ = some (.ok (.built path), w₂)) :
      Tried p build target r stem w (some (.ok path)) w₂
  /-- The rule left the target to others. -/
  | left {outcomes w₁ result w₂ reason f w₃}
      (asked : (engineOf p build).build (r.dependencies.map fun d => [d.fill stem]) w =
        some (outcomes, w₁))
      (ready : firstError? outcomes = none)
      (run : (r.apply (contextOf p build) target).run w₁ = some (result, w₂))
      (because : reasonOf result = some reason)
      (signal : (engineOf p build).signal target reason w₂ = some (f, w₃)) :
      Tried p build target r stem w none w₃
  /-- The rule failed. -/
  | failed {outcomes w₁ e w₂}
      (asked : (engineOf p build).build (r.dependencies.map fun d => [d.fill stem]) w =
        some (outcomes, w₁))
      (ready : firstError? outcomes = none)
      (run : (r.apply (contextOf p build) target).run w₁ = some (.error e, w₂))
      (final : e.reason? = none) :
      Tried p build target r stem w
        (some (.error ⟨w₂.nextFailure, target, r.name ++ ": " ++ e.message⟩)) (hardened target w₂)

/-- A rule that a target matches is tried, and the next rules only if it came to nothing. -/
theorem tryRules_cons {r : Rule} {rest : List Rule} {stem : String}
    (h : r.product.stem? target = some stem) {blocked : Option Failure} {w w' : World LocalState}
    {o : Outcome} (run : tryRules p (engineOf p build) target (r :: rest) blocked w = some (o, w')) :
    ∃ result w₁, Tried p build target r stem w result w₁ ∧
      ((result = some o ∧ w' = w₁) ∨ (result = none ∧
        ∃ blocked', tryRules p (engineOf p build) target rest blocked' w₁ = some (o, w'))) := by
  rw [tryRules, h] at run
  obtain ⟨outcomes, w₁, asked, run⟩ := Work.bind_eq_some.1 run
  cases ready : firstError? outcomes with
  | some failure =>
    simp only [ready] at run
    obtain ⟨hard, w₂, same, run⟩ := Work.bind_eq_some.1 run
    obtain ⟨-, rfl⟩ := Prod.mk.inj (Option.some.inj same)
    refine ⟨none, w₁, .skipped asked ready, .inr ⟨rfl, ?_⟩⟩
    split at run <;> exact ⟨_, run⟩
  | none =>
    simp only [ready] at run
    obtain ⟨answer, w₂, dispatched, run⟩ := Work.bind_eq_some.1 run
    obtain ⟨path, apply, rfl⟩ | ⟨e, apply, final, rfl⟩ |
      ⟨result, w₃, reason, f, apply, because, signal, rfl⟩ := dispatch_eq_some.1 dispatched
    · obtain ⟨rfl, rfl⟩ := Prod.mk.inj (Option.some.inj run)
      exact ⟨_, _, .built asked ready apply, .inl ⟨rfl, rfl⟩⟩
    · obtain ⟨rfl, rfl⟩ := Prod.mk.inj (Option.some.inj run)
      exact ⟨_, _, .failed asked ready apply final, .inl ⟨rfl, rfl⟩⟩
    · exact ⟨none, w₂, .left asked ready apply because signal, .inr ⟨rfl, _, run⟩⟩

/-! ### What the own rule of a target comes to -/

/-- A step of a rule whose errors are final. -/
def Hard {σ α : Type} (m : Attempt σ α) : Prop :=
  ∀ w e w', m.run w = some (.error e, w') → e.reason? = none

/-- A rule that writes a target unless it fails for good. -/
def Writes {σ : Type} (target : Path) (m : Attempt σ Applied) : Prop :=
  ∀ w result w', m.run w = some (result, w') →
    result = .ok (.built target) ∨ ∃ e, result = .error e ∧ e.reason? = none

section Writes

variable {σ α β : Type} {m : Attempt σ α} {c : Context σ}

theorem Hard.bind {f : α → Attempt σ β} (h : Hard m) (hf : ∀ a, Hard (f a)) :
    Hard (m >>= f) := by
  intro w e w' run
  rcases Attempt.bind_eq_some.1 run with ⟨a, w₁, -, run⟩ | ⟨e', w₁, run, same⟩
  · exact hf a w₁ e w' run
  · obtain ⟨e₁, rfl⟩ := Prod.mk.inj same
    obtain rfl := Except.error.inj e₁
    exact h w e w' run

theorem Hard.of_ok (h : ∀ w e w', m.run w ≠ some (.error e, w')) : Hard m :=
  fun w e w' run => absurd run (h w e w')

theorem Hard.pure (a : α) : Hard (pure a : Attempt σ α) := by
  refine .of_ok fun w e w' run => ?_
  rw [Attempt.pure_run] at run
  simp at run

theorem Hard.lift (m : Work σ α) : Hard (liftM m : Attempt σ α) := by
  refine .of_ok fun w e w' run => ?_
  rw [Attempt.lift_run, Option.map_eq_some_iff] at run
  obtain ⟨x, -, same⟩ := run
  simp at same

theorem Hard.disk : Hard (Attempt.disk : Attempt σ Disk) := by
  refine .of_ok fun w e w' run => ?_
  rw [Attempt.disk_run] at run
  simp at run

theorem Hard.throw {e : RuleError} (h : e.reason? = none) :
    Hard (throw e : Attempt σ α) := by
  intro w e' w' run
  rw [Attempt.throw_run] at run
  obtain ⟨same, -⟩ := Prod.mk.inj (Option.some.inj run)
  rwa [← Except.error.inj same]

theorem Hard.onDisk (path : Path) (step : DiskM α) :
    Hard (Attempt.onDisk path step : Attempt σ α) := by
  intro w e w' run
  rw [Attempt.onDisk_run] at run
  obtain ⟨same, -⟩ := Prod.mk.inj (Option.some.inj run)
  split at same
  · simp at same
  · rw [← Except.error.inj same]
    rfl

theorem Hard.requireAll (targets : List Path) : Hard (c.requireAll targets) := by
  refine (Hard.lift _).bind fun outcomes => ?_
  split
  · exact .throw rfl
  · exact .pure _

theorem Hard.analyze (file : Path) (tags : Tags) : Hard (c.analyze file tags) := by
  refine Hard.disk.bind fun d => ?_
  refine (Hard.lift _).bind fun _ => ?_
  split
  · exact .pure _
  · exact .throw rfl

theorem Writes.bind {f : α → Attempt σ Applied} (h : Hard m)
    (hf : ∀ a, Writes target (f a)) : Writes target (m >>= f) := by
  intro w result w' run
  rcases Attempt.bind_eq_some.1 run with ⟨a, w₁, -, run⟩ | ⟨e, w₁, run, same⟩
  · exact hf a w₁ result w' run
  · obtain ⟨rfl, rfl⟩ := Prod.mk.inj same
    exact .inr ⟨e, rfl, h w e w' run⟩

theorem Writes.some_bind {a : α} {e : RuleError} {f : α → Attempt σ Applied}
    (hf : Writes target (f a)) : Writes target (orThrow (some a) e >>= f) := by
  intro w result w' run
  rw [Attempt.bind_of_ok (Attempt.orThrow_some_run a e)] at run
  exact hf w result w' run

theorem Writes.built : Writes target (pure (.built target) : Attempt σ Applied) := by
  intro w result w' run
  rw [Attempt.pure_run] at run
  exact .inl (Prod.mk.inj (Option.some.inj run)).1.symm

theorem Writes.throw {e : RuleError} (h : e.reason? = none) :
    Writes target (throw e : Attempt σ Applied) := by
  intro w result w' run
  rw [Attempt.throw_run] at run
  exact .inr ⟨e, (Prod.mk.inj (Option.some.inj run)).1.symm, h⟩

theorem Writes.writeOutput (content : String) : Writes target (c.writeOutput target content) :=
  Writes.bind (.onDisk _ _) fun _ => .built

end Writes

end Local

/-- The project that a tree was scanned from, with the programs that it may run. -/
def Tree.project (t : Tree) (root : Path) (config : Config) (programs : Analyzer.Programs) :
    Project :=
  ⟨root, config, t.metadata, programs⟩

/-- The targets that a tree generates, each with its own rule. -/
inductive Tree.Generates (t : Tree) : Path → Rule → Prop
  | stamp {ns} (hn : ns ∈ t.namespaces) : t.Generates (ns.target .stamp) .stamp
  | aliases {ns} (hn : ns ∈ t.namespaces) : t.Generates (ns.target .aliases) .aliases
  | root {ns} (hn : ns ∈ t.namespaces) : t.Generates (ns.target .root) .root
  | manifest {ns} (hn : ns ∈ t.namespaces) (hl : t.isLibrary ns = true) :
      t.Generates (ns.target .manifest) .manifest
  | link {f} (hf : f ∈ t.files) : t.Generates f.virtualPath (.link f.kind)
  | depends {f} (hf : f ∈ t.files) :
      t.Generates (f.virtualPath.append Naming.dependsSuffix) (.depends f.kind)

namespace Local

variable {p : Project} {build : Path → Step Outcome} {target : Path} {sources : List Path}
  {t : Tree}

theorem writes_namespaceOf_bind (h : t.Shaped sources) (hm : p.metadata = t.metadata)
    {ns : Namespace} (hn : ns ∈ t.namespaces) (r : Rule)
    {f : Namespace → Attempt LocalState Applied} (hf : Writes target (f ns)) :
    Writes target ((contextOf p build).namespaceOf r (ns.target r) >>= f) := by
  obtain ⟨source, -, lies⟩ := h.below ns hn
  have root : (contextOf p build).metadata.namespaceOfRoot? ⟨ns.rootPath.text⟩ = some ns := by
    change p.metadata.namespaceOfRoot? ns.rootPath = some ns
    rw [hm]
    exact h.namespaceOfRoot?_rootPath hn
  rw [Context.namespaceOf, bind_assoc, lies.stem?_target]
  refine Writes.some_bind ?_
  rw [root]
  exact Writes.some_bind hf

/-- The own rule of a target writes it or fails for good. -/
theorem writes_apply (h : t.Shaped sources) (hm : p.metadata = t.metadata) {r : Rule}
    (hg : t.Generates target r) : Writes target (r.apply (contextOf p build) target) := by
  cases hg with
  | stamp hn =>
    refine writes_namespaceOf_bind h hm hn _ (Writes.bind (.requireAll _) fun _ => ?_)
    refine Writes.bind .disk fun d => ?_
    split
    · exact .writeOutput _
    · exact .throw rfl
  | aliases hn => exact writes_namespaceOf_bind h hm hn _ (.writeOutput _)
  | root hn =>
    obtain ⟨source, -, lies⟩ := h.below _ hn
    rw [Rule.apply, Context.writeRoot, lies.stem?_target]
    refine Writes.some_bind (writes_namespaceOf_bind h hm hn _ (Writes.bind .disk fun d => ?_))
    split
    · exact .writeOutput _
    · exact .throw rfl
  | @manifest ns hn hl =>
    obtain ⟨source, -, lies⟩ := h.below _ hn
    obtain ⟨s, hs, rfl⟩ := List.mem_map.1 hn
    have root : (contextOf p build).metadata.namespaceOfRoot? ⟨s.ns.rootPath.text⟩ = some s.ns := by
      change p.metadata.namespaceOfRoot? s.ns.rootPath = some s.ns
      rw [hm]
      exact h.namespaceOfRoot?_rootPath hn
    obtain ⟨members, library⟩ :
        ∃ members, (contextOf p build).metadata.libraryMembers? s.ns = some members := by
      change ∃ members, p.metadata.libraryMembers? s.ns = some members
      rw [hm]
      change ∃ members, t.libraryMembers? s.ns = some members
      rw [Tree.libraryMembers?, if_pos hl, h.scopeAt?_eq hs rfl]
      exact ⟨_, rfl⟩
    rw [Rule.apply, Context.writeManifest, lies.stem?_target]
    refine Writes.some_bind ?_
    rw [root]
    refine Writes.some_bind ?_
    rw [library]
    refine Writes.some_bind (Writes.bind (.requireAll _) fun _ => ?_)
    refine Writes.bind .disk fun d => ?_
    split
    · exact .writeOutput _
    · exact .throw rfl
  | @link f hf =>
    obtain ⟨components, stem, made⟩ := h.made f hf
    have file : (contextOf p build).metadata.fileOfKind? f.kind f.virtualPath = some f := by
      change p.metadata.fileOfKind? f.kind f.virtualPath = some f
      rw [hm]
      exact h.fileOfKind?_virtualPath hf
    rw [Rule.apply, Context.linkSource, file]
    refine Writes.some_bind (Writes.bind (.requireAll _) fun _ => ?_)
    refine Writes.bind (.lift _) fun _ => Writes.bind (.lift _) fun _ => ?_
    rw [made.fileName?_eq]
    exact Writes.some_bind (Writes.bind (.onDisk _ _) fun _ => .built)
  | @depends f hf =>
    obtain ⟨components, stem, made⟩ := h.made f hf
    have file : (contextOf p build).metadata.fileOfKind? f.kind f.virtualPath = some f := by
      change p.metadata.fileOfKind? f.kind f.virtualPath = some f
      rw [hm]
      exact h.fileOfKind?_virtualPath hf
    rw [Rule.apply, Context.writeDepends, made.stem?_depends, Path.dropSuffix?_append]
    refine Writes.some_bind (Writes.some_bind ?_)
    rw [file]
    refine Writes.some_bind (Writes.bind (.lift _) fun _ => Writes.bind (.analyze _ _) fun _ => ?_)
    exact .writeOutput _

/-- What comes of a target after its own rule was passed over. -/
theorem copySource_of_tryRules_nil {blocked : Option Failure} {w w' : World LocalState}
    {o : Outcome} (run : tryRules p (engineOf p build) target [] blocked w = some (o, w')) :
    ∃ copied, copySource p target w = some (copied, w') ∧
      ∀ path, o = .ok path ↔ copied = .ok path := by
  rw [tryRules] at run
  obtain ⟨copied, w₁, copy, run⟩ := Work.bind_eq_some.1 run
  split at run
  · obtain ⟨rfl, rfl⟩ := Prod.mk.inj (Option.some.inj run)
    exact ⟨_, copy, by simp⟩
  · obtain ⟨rfl, rfl⟩ := Prod.mk.inj (Option.some.inj run)
    exact ⟨_, copy, fun _ => Iff.rfl⟩

theorem build_nil_eq_some {w w' : World LocalState} {outcomes : List Outcome}
    (run : (engineOf p build).build [] w = some (outcomes, w')) : outcomes = [] ∧ w' = w := by
  obtain ⟨rfl, rfl⟩ := Prod.mk.inj (Option.some.inj run)
  exact ⟨rfl, rfl⟩

theorem build_singleton_eq_some {q : Path} {w w' : World LocalState} {outcomes : List Outcome}
    (run : (engineOf p build).build [[q]] w = some (outcomes, w')) :
    ∃ o, outcomes = [o] ∧ build q w = some (o, w') := by
  change List.mapM (firstBuilt build) [[q]] w = _ at run
  rw [List.mapM_cons] at run
  obtain ⟨o, w₁, run₁, run⟩ := Work.bind_eq_some.1 run
  obtain ⟨os, w₂, run₂, run⟩ := Work.bind_eq_some.1 run
  obtain ⟨rfl, rfl⟩ := Prod.mk.inj (Option.some.inj run₂)
  obtain ⟨rfl, rfl⟩ := Prod.mk.inj (Option.some.inj run)
  exact ⟨o, rfl, run₁⟩

/-- A rule declares no dependency or one. -/
theorem dependencies_cases (r : Rule) : r.dependencies = [] ∨ ∃ d, r.dependencies = [d] := by
  cases r <;> simp [Rule.dependencies]

/-- Where a rule is skipped, its one dependency failed. -/
theorem Tried.exists_of_skipped {r : Rule} {stem : String} {w w₁ : World LocalState}
    {outcomes : List Outcome} {failure : Failure}
    (asked : (engineOf p build).build (r.dependencies.map fun d => [d.fill stem]) w =
      some (outcomes, w₁)) (failed : firstError? outcomes = some failure) :
    ∃ d, r.dependencies = [d] ∧ build (d.fill stem) w = some (.error failure, w₁) := by
  rcases dependencies_cases r with e | ⟨d, e⟩
  · rw [e] at asked
    obtain ⟨rfl, -⟩ := build_nil_eq_some asked
    simp [firstError?] at failed
  · rw [e] at asked
    obtain ⟨o, rfl, run⟩ := build_singleton_eq_some asked
    cases o with
    | ok path => simp [firstError?] at failed
    | error f =>
      obtain rfl : f = failure := by simpa [firstError?] using failed
      exact ⟨d, e, run⟩

/-- A rule whose ending is another's at the last character is not tried. -/
theorem stem?_eq_none {r : Rule}
    (h : r.ending.toList.getLast? ≠ target.text.toList.getLast?) : r.product.stem? target = none := by
  cases e : r.product.stem? target with
  | none => rfl
  | some stem => exact absurd (getLast?_of_stem? e).2.symm h

theorem tryRules_filter (rs : List Rule) (blocked : Option Failure) :
    tryRules p (engineOf p build) target rs blocked =
      tryRules p (engineOf p build) target
        (rs.filter fun r => r.ending.toList.getLast? = target.text.toList.getLast?) blocked := by
  induction rs generalizing blocked with
  | nil => rfl
  | cons r rs ih =>
    by_cases same : r.ending.toList.getLast? = target.text.toList.getLast?
    · rw [List.filter_cons_of_pos (by simpa using same), tryRules, tryRules]
      simp only [ih]
    · rw [List.filter_cons_of_neg (by simpa using same), ← ih,
        tryRules_cons_of_none (stem?_eq_none same)]

/-- The rules that a target meets are told by the last character of its text. -/
theorem tryRules_rules {c : Char} {rs : List Rule}
    (hc : (rules.filter fun r => r.ending.toList.getLast? = some c) = rs)
    (h : target.text.toList.getLast? = some c) (blocked : Option Failure) :
    tryRules p (engineOf p build) target rules blocked =
      tryRules p (engineOf p build) target rs blocked := by
  rw [tryRules_filter, h, hc]

theorem rules_filter_p : (rules.filter fun r => r.ending.toList.getLast? = some 'p') = [.stamp] := by
  decide

theorem rules_filter_gt : (rules.filter fun r => r.ending.toList.getLast? = some '>') = [] := by
  decide

theorem rules_filter_b :
    (rules.filter fun r => r.ending.toList.getLast? = some 'b') = [.manifest] := by
  decide

theorem rules_filter_l :
    (rules.filter fun r => r.ending.toList.getLast? = some 'l') =
      [.link .implementation, .aliases, .root] := by
  decide

theorem rules_filter_i :
    (rules.filter fun r => r.ending.toList.getLast? = some 'i') = [.link .interface] := by
  decide

theorem rules_filter_s :
    (rules.filter fun r => r.ending.toList.getLast? = some 's') =
      [.depends .implementation, .depends .interface, .plainDepends] := by
  decide

theorem getLast?_eq_of_stem? {r : Rule} {stem : String} {last : Option Char}
    (hs : r.product.stem? target = some stem) (h : r.ending.toList.getLast? = last) :
    target.text.toList.getLast? = last :=
  (getLast?_of_stem? hs).2.trans h

/-- The rule for alias modules is not tried for a file named by a flat name. -/
theorem stem?_aliases_flatName {dir : Path} {components : List String}
    (valid : ∀ c ∈ components, Naming.isComponent c = true)
    (text : target.text = dir.front ++ Naming.flatName components ++ Rule.root.ending) :
    Rule.aliases.product.stem? target = none := by
  cases e : Rule.aliases.product.stem? target with
  | none => rfl
  | some stem =>
    exfalso
    obtain ⟨text', -⟩ := Pattern.stem?_ending_eq_some_iff.1 e
    have ending : Rule.aliases.ending = Naming.aliasesSuffix ++ Rule.root.ending := by
      simp only [Rule.ending, String.append_assoc]
    rw [text, ending, ← String.append_assoc] at text'
    have root := congrArg String.toList ((String.append_left_inj _).1 text')
    rw [String.toList_append, String.toList_append] at root
    rcases List.append_eq_append_iff.1 root with ⟨a, -, flat⟩ | ⟨c, front, aliases⟩
    · exact Naming.flatName_ne_append_aliases valid (String.ofList a)
        (String.toList_inj.1 (by simpa using flat))
    · obtain rfl | ⟨c, last, rfl⟩ := c.eq_nil_or_concat'
      · exact Naming.flatName_ne_append_aliases valid ""
          (String.toList_inj.1 (by simpa using aliases.symm))
      · have slash : last = '/' := by
          rcases dir.front_eq_or with e | e
          · simp [e] at front
          · simpa [front] using e
        have : '/' ∈ Naming.aliasesSuffix.toList := by
          rw [aliases, slash]
          simp
        revert this
        decide

/-- The rule for alias modules is not tried for a root module. -/
theorem stem?_aliases_root {ns : Namespace} {source : Path} (lies : ns.LiesBelow source) :
    Rule.aliases.product.stem? (ns.target .root) = none := by
  have text : (ns.target .root).text =
      ns.above.front ++ Naming.flatName ns.components ++ Rule.root.ending := by
    rw [Namespace.target, lies.rootPath_eq, Path.div_eq lies.isStem.isName, Path.append,
      lies.flatName_eq]
  exact stem?_aliases_flatName lies.valid text

/-- The rule for interfaces is not tried for the dependencies of an implementation, nor the other
way around. -/
theorem stem?_depends_other {q : Path} {kind kind' : SourceKind} (h : kind ≠ kind') :
    (Rule.depends kind).product.stem? (q.append (Rule.depends kind').ending) = none := by
  cases e : (Rule.depends kind).product.stem? (q.append (Rule.depends kind').ending) with
  | none => rfl
  | some stem =>
    exfalso
    obtain ⟨text, -⟩ := Pattern.stem?_ending_eq_some_iff.1 e
    have text := congrArg (fun s => s.toList.reverse) text
    cases kind <;> cases kind' <;>
      simp [Path.append, Rule.ending, SourceKind.extension, Naming.dependsSuffix] at text h

variable {root : Path} {config : Config} {programs : Analyzer.Programs}

/-- The project at `/p`, with no program to run. -/
def sampleProject (d : Disk) (config : Config) : Project :=
  (sampleTree d config).project ⟨"/p"⟩ config fun _ _ _ _ => .error .notFound

/-- A world with nothing built. -/
def newWorld (d : Disk) : World LocalState := ⟨d, [], 0, .empty, {}⟩

theorem exists_of_run {run : Option (Outcome × World LocalState)}
    {c : Outcome → World LocalState → Bool} (h : run.any (fun x => c x.1 x.2) = true) :
    ∃ o w, run = some (o, w) ∧ c o w = true := by
  cases run with
  | none => simp at h
  | some x => exact ⟨x.1, x.2, rfl, h⟩

/-- A project with one source, in `lib/foo`. -/
def smallDisk : Disk :=
  sampleDisk [["lib"], ["lib", "foo"]] [(["lib", "foo", "a.ml"], "let x = 1\n")]

end Local
end FlatModules
