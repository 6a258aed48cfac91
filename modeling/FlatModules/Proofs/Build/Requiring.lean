import FlatModules.Build.Scripted
import FlatModules.Proofs.Build.Selection

/-!
# Build — what rules require

The rules for links, digests and manifests ask the engine for all that they need before they do
anything else (`Context.exists_rest_of_required?`).  A failure among the outcomes ends the rule, which
has then done nothing of its own; so a rule that reports its target built had an outcome for each target
that it required, and none of them a failure, if the engine gave an outcome for each
(`Context.built_on_word_of_engine`).  A target without any outcome is taken for one that was built
(`Context.linked_without_outcome_smallDisk`).
-/

namespace FlatModules

/-- The rules that require targets of the engine. -/
inductive Rule.Requires : Rule → Prop
  | link (kind : SourceKind) : Requires (.link kind)
  | stamp : Requires .stamp
  | manifest : Requires .manifest

/-- Whether each target has an outcome, by position, and was built. -/
def AllBuilt (targets : List Path) (outcomes : List Outcome) : Prop :=
  ∀ i < targets.length, ∃ path, outcomes[i]? = some (.ok path)

/-- If no outcome is missing, targets of which none failed are all built. -/
theorem allBuilt_of_zip {targets : List Path} {outcomes : List Outcome}
    (length : targets.length ≤ outcomes.length)
    (ok : ∀ x ∈ targets.zip outcomes, ∃ path, x.2 = .ok path) : AllBuilt targets outcomes := by
  intro i hi
  have there : i < outcomes.length := lt_of_lt_of_le hi length
  have mem : (targets[i], outcomes[i]) ∈ targets.zip outcomes :=
    List.mem_iff_getElem.2 ⟨i, List.length_zip ▸ lt_min hi there, List.getElem_zip⟩
  obtain ⟨path, built⟩ := ok _ mem
  exact ⟨path, by rw [List.getElem?_eq_getElem there]; exact congrArg some built⟩

namespace Context

variable {σ : Type} {c : Context σ} {target : Path} {targets : List Path} {rule : Rule} {w : World σ}

/-- What a rule requires of the engine for a target; none if the rule does not apply to it. -/
def required? (c : Context σ) (target : Path) : Rule → Option (List Path)
  | .link kind => do
    let file ← c.metadata.fileOfKind? kind target
    return [file.realPath]
  | .stamp => do
    let root ← Rule.stamp.product.stem? target
    let ns ← c.metadata.namespaceOfRoot? ⟨root⟩
    return c.metadata.closure ns
  | .manifest => do
    let root ← Rule.manifest.product.stem? target
    let ns ← c.metadata.namespaceOfRoot? ⟨root⟩
    let members ← c.metadata.libraryMembers? ns
    return members.map memberDepends
  | _ => none

/-- A rule that applies first requires its targets, and goes on from there. -/
theorem exists_rest_of_required? (hr : rule.Requires) (required : c.required? target rule = some targets) :
    ∃ rest : Unit → Attempt σ Applied, rule.apply c target = c.requireAll targets >>= rest := by
  cases hr with
  | link kind =>
    obtain ⟨file, found, same⟩ := Option.bind_eq_some_iff.1 required
    obtain rfl := Option.some.inj same
    rw [Rule.apply, linkSource, found]
    exact ⟨_, rfl⟩
  | stamp =>
    obtain ⟨root, stem, required⟩ := Option.bind_eq_some_iff.1 required
    obtain ⟨ns, found, same⟩ := Option.bind_eq_some_iff.1 required
    obtain rfl := Option.some.inj same
    rw [Rule.apply, writeStamp, namespaceOf, stem]
    simp only [orThrow, pure_bind, found]
    exact ⟨_, rfl⟩
  | manifest =>
    obtain ⟨root, stem, required⟩ := Option.bind_eq_some_iff.1 required
    obtain ⟨ns, found, required⟩ := Option.bind_eq_some_iff.1 required
    obtain ⟨members, library, same⟩ := Option.bind_eq_some_iff.1 required
    obtain rfl := Option.some.inj same
    rw [Rule.apply, writeManifest, stem]
    simp only [orThrow, pure_bind, found, library]
    exact ⟨_, rfl⟩

/-- A rule that does not apply says so and does nothing. -/
theorem apply_of_required?_eq_none (hr : rule.Requires) (none_ : c.required? target rule = none) :
    ∃ e, (rule.apply c target).run w = some (.error e, w) ∧ e.reason?.isSome = true := by
  cases hr with
  | link kind =>
    cases found : c.metadata.fileOfKind? kind target with
    | some file => simp [required?, found] at none_
    | none =>
      rw [Rule.apply, linkSource, found]
      exact ⟨_, Attempt.bind_of_error (Attempt.orThrow_none_run _), rfl⟩
  | stamp =>
    have looked : ∃ path, (c.namespaceOf .stamp target).run w = some (.error (.notANamespace path), w) := by
      unfold namespaceOf
      cases stem : Rule.stamp.product.stem? target with
      | none => exact ⟨_, Attempt.bind_of_error (Attempt.orThrow_none_run _)⟩
      | some root =>
        cases found : c.metadata.namespaceOfRoot? ⟨root⟩ with
        | some ns => simp [required?, stem, found] at none_
        | none => exact ⟨⟨root⟩, by rw [Attempt.bind_of_ok (Attempt.orThrow_some_run _ _), found]; rfl⟩
    obtain ⟨path, looked⟩ := looked
    exact ⟨_, Attempt.bind_of_error looked, rfl⟩
  | manifest =>
    refine ⟨.notALibrary target, ?_, rfl⟩
    rw [Rule.apply, writeManifest]
    cases stem : Rule.manifest.product.stem? target with
    | none => exact Attempt.bind_of_error (Attempt.orThrow_none_run _)
    | some root =>
      rw [Attempt.bind_of_ok (Attempt.orThrow_some_run _ _)]
      cases found : c.metadata.namespaceOfRoot? ⟨root⟩ with
      | none => exact Attempt.bind_of_error (Attempt.orThrow_none_run _)
      | some ns =>
        rw [Attempt.bind_of_ok (Attempt.orThrow_some_run _ _)]
        cases library : c.metadata.libraryMembers? ns with
        | none => exact Attempt.bind_of_error (Attempt.orThrow_none_run _)
        | some members => simp [required?, stem, found, library] at none_

/-- A failure among the outcomes of what a rule requires ends the rule in the world that the engine left. -/
theorem apply_of_failed (hr : rule.Requires) (required : c.required? target rule = some targets)
    {outcomes : List Outcome} {w₁ : World σ}
    (asked : c.engine.build (targets.map ([·])) w = some (outcomes, w₁)) {q : Path} {f : Failure}
    (failed : firstFailure? (targets.zip outcomes) = some (q, f)) :
    (rule.apply c target).run w = some (.error (.dependencyFailed q f), w₁) := by
  obtain ⟨rest, apply⟩ := exists_rest_of_required? hr required
  rw [apply]
  refine Attempt.bind_of_error ?_
  rw [requireAll_run asked, failed]

/-- A rule reports its target built on the word of the engine alone: that of what it required nothing
failed, and that all of it was built if the engine gave an outcome for each target.  If one of these
targets was not built, the rule fails for it and leaves the world as the engine did. -/
theorem built_on_word_of_engine (hr : rule.Requires) (c : Context σ) (target : Path) (w : World σ) :
    (c.required? target rule = none →
      ∃ e, (rule.apply c target).run w = some (.error e, w) ∧ e.reason?.isSome = true) ∧
    ∀ targets, c.required? target rule = some targets →
      (∀ path w', (rule.apply c target).run w = some (.ok (.built path), w') →
        ∃ outcomes w₁, c.engine.build (targets.map ([·])) w = some (outcomes, w₁) ∧
          (∀ x ∈ targets.zip outcomes, ∃ path, x.2 = .ok path) ∧
          (targets.length ≤ outcomes.length → AllBuilt targets outcomes)) ∧
      ∀ outcomes w₁, c.engine.build (targets.map ([·])) w = some (outcomes, w₁) →
        ((∃ x ∈ targets.zip outcomes, ∃ f, x.2 = .error f) ∨
          targets.length ≤ outcomes.length ∧ ¬ AllBuilt targets outcomes) →
        ∃ q f, (q, .error f) ∈ targets.zip outcomes ∧
          (rule.apply c target).run w = some (.error (.dependencyFailed q f), w₁) := by
  refine ⟨apply_of_required?_eq_none hr, fun targets required => ⟨fun path w' run => ?_, ?_⟩⟩
  · obtain ⟨rest, apply⟩ := exists_rest_of_required? hr required
    rw [apply] at run
    obtain ⟨_, w₁, step, -⟩ | ⟨e, w₁, -, same⟩ := Attempt.bind_eq_some.1 run
    · obtain ⟨outcomes, asked, ⟨passed, -⟩ | ⟨q, f, -, no⟩⟩ := exists_of_requireAll step
      · have ok := firstFailure?_eq_none passed
        exact ⟨outcomes, w₁, asked, ok, fun length => allBuilt_of_zip length ok⟩
      · cases no
    · cases (Prod.mk.inj same).1
  · intro outcomes w₁ asked failing
    cases failed : firstFailure? (targets.zip outcomes) with
    | some x => exact ⟨x.1, x.2, mem_of_firstFailure? failed, apply_of_failed hr required asked failed⟩
    | none =>
      have ok := firstFailure?_eq_none failed
      rcases failing with ⟨x, mem, f, error⟩ | ⟨length, missing⟩
      · obtain ⟨path, built⟩ := ok x mem
        rw [built] at error
        cases error
      · exact absurd (allBuilt_of_zip length ok) missing

/-- The path that a rule reports built, if it does. -/
def built? : Except RuleError Applied → Option Path
  | .ok (.built path) => some path
  | .ok (.inapplicable _) => none
  | .error _ => none

theorem built?_eq_some {result : Except RuleError Applied} {path : Path} (h : built? result = some path) :
    result = .ok (.built path) := by
  obtain e | path' | reason := result
  · cases h
  · rw [Option.some.inj h]
  · cases h

/-- What the rules of the small project work with on a scripted engine. -/
def scripted (replies : List (String × Except String Path)) (silent : Bool) : Context ScriptState :=
  ⟨Script.engine ⟨⟨"/p/_build"⟩, replies, silent⟩, (sampleTree Local.smallDisk libConfig).metadata,
    libConfig, fun _ _ _ _ => .error .notFound⟩

/-- A world with a tag attached to the source of the small project. -/
def taggedWorld : World ScriptState :=
  ⟨Local.smallDisk, [], 0, .empty, { attached := [(⟨"lib/foo/a.ml"⟩, ⟨["t"]⟩)] }⟩

set_option maxRecDepth 100000 in
/-- The link of the small project, once with an engine that builds the source and once with one that
does not. -/
theorem built_on_word_of_engine_smallDisk :
    let source : Path := ⟨"lib/foo/a.ml"⟩
    let target : Path := ⟨"lib/foo/foo__a.ml"⟩
    let c := scripted [("lib/foo/a.ml", .ok ⟨"lib/foo/a.ml"⟩)] false
    Rule.Requires (.link .implementation) ∧
      (∃ outcomes w₁, c.engine.build [[source]] taggedWorld = some (outcomes, w₁) ∧
        AllBuilt [source] outcomes) ∧
      ∃ f w₁, (scripted [] false).engine.build [[source]] taggedWorld = some ([.error f], w₁) ∧
        ((Rule.link .implementation).apply (scripted [] false) target).run taggedWorld =
          some (.error (.dependencyFailed source f), w₁) := by
  intro source target c
  have required : c.required? target (.link .implementation) = some [source] := by decide +kernel
  have required' : (scripted [] false).required? target (.link .implementation) = some [source] := by
    decide +kernel
  refine ⟨.link _, ?_, ?_⟩
  · obtain ⟨-, requiring⟩ := built_on_word_of_engine (.link .implementation) c target taggedWorld
    obtain ⟨⟨result, w'⟩, run, ends⟩ := (Option.any_eq_true _ _).1 (show
      (((Rule.link .implementation).apply c target).run taggedWorld).any
        (fun x => built? x.1 == some target) = true by decide +kernel)
    obtain rfl := built?_eq_some (beq_iff_eq.1 ends)
    obtain ⟨outcomes, w₁, asked, -, all⟩ := (requiring _ required).1 target w' run
    have length : outcomes.length = 1 := by
      obtain ⟨same, -⟩ := Prod.mk.inj (Option.some.inj asked)
      exact congrArg List.length same.symm
    exact ⟨outcomes, w₁, asked, all length.ge⟩
  · obtain ⟨-, requiring⟩ :=
      built_on_word_of_engine (.link .implementation) (scripted [] false) target taggedWorld
    obtain ⟨f, w₁, asked⟩ : ∃ f w₁, (scripted [] false).engine.build [[source]] taggedWorld =
        some ([.error f], w₁) := ⟨_, _, rfl⟩
    obtain ⟨q, g, mem, run⟩ := (requiring _ required').2 _ _ asked
      (.inl ⟨(source, .error f), List.mem_singleton_self _, f, rfl⟩)
    obtain ⟨rfl, same⟩ := Prod.mk.inj (List.mem_singleton.1 mem)
    obtain rfl := Except.error.inj same
    exact ⟨_, _, asked, run⟩

set_option maxRecDepth 100000 in
/-- With an engine that gives no outcome, the link is reported built although its source was not: the
tags of the source are attached to the link, and the link leads to nothing. -/
theorem linked_without_outcome_smallDisk :
    let target : Path := ⟨"lib/foo/foo__a.ml"⟩
    let c := scripted [] true
    c.required? target (.link .implementation) = some [⟨"lib/foo/a.ml"⟩] ∧
      (∃ w₁, c.engine.build [[⟨"lib/foo/a.ml"⟩]] taggedWorld = some ([], w₁)) ∧
      ¬ AllBuilt [⟨"lib/foo/a.ml"⟩] [] ∧
      ∃ w', ((Rule.link .implementation).apply c target).run taggedWorld =
          some (.ok (.built target), w') ∧
        attachedTags target w'.own.attached = ⟨["t"]⟩ ∧
        (w'.disk.lstat ⟨"/p/_build/lib/foo/foo__a.ml"⟩).toOption = some (.link "a.ml") ∧
        w'.disk.isFile ⟨"/p/_build/lib/foo/a.ml"⟩ = false := by
  intro target c
  refine ⟨by decide +kernel, ⟨_, rfl⟩, fun all => ?_, ?_⟩
  · obtain ⟨path, no⟩ := all 0 (by decide)
    cases no
  · obtain ⟨⟨result, w'⟩, run, facts⟩ := (Option.any_eq_true _ _).1 (show
      (((Rule.link .implementation).apply c target).run taggedWorld).any
        (fun x => built? x.1 == some target &&
          attachedTags target x.2.own.attached == ⟨["t"]⟩ &&
          (x.2.disk.lstat ⟨"/p/_build/lib/foo/foo__a.ml"⟩).toOption == some (.link "a.ml") &&
          !x.2.disk.isFile ⟨"/p/_build/lib/foo/a.ml"⟩) = true by decide +kernel)
    simp only [Bool.and_eq_true, beq_iff_eq, Bool.not_eq_true'] at facts
    obtain ⟨⟨⟨ends, tags⟩, link⟩, missing⟩ := facts
    obtain rfl := built?_eq_some ends
    exact ⟨w', run, tags, link, missing⟩

end Context
end FlatModules
