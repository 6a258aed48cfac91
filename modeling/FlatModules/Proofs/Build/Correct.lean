import FlatModules.Proofs.Build.Making

/-!
# Build — builds are right

Building an artifact, whatever was built before and in whatever order, comes to what the artifact
should be (`Local.build_correct`).
-/

namespace FlatModules

open Naming Path Tree

namespace Local

/-! ### Rules that are passed over -/

variable {s : Site} {used L : List Path} {p : Project} {build : Path → Step Outcome}
  {target q source : Path} {components : List String} {file base extension : String}
  {a : Artifact} {r : Rule} {rest : List Rule} {blocked : Option Failure}
  {w w' : World LocalState} {o : Outcome} {programs : Analyzer.Programs}

/-- Whether a rule leaves a target to others without doing anything. -/
def Leaves (p : Project) (build : Path → Step Outcome) (target : Path) (r : Rule) : Prop :=
  ∃ e reason, RuleError.reason? e = some reason ∧
    ∀ w, (r.apply (contextOf p build) target).run w = some (.error e, w)

theorem slash_notMem_reason {e : RuleError} {reason : String} (h : e.reason? = some reason) :
    '/' ∉ reason.toList := by
  cases e <;> simp only [RuleError.reason?, Option.some.injEq, reduceCtorEq] at h <;>
    (subst h; decide)

/-- Asking for the one dependency of a rule, or for none, is quiet if that is. -/
theorem quiet_dependencies (r : Rule) {stem : String}
    (h : ∀ d ∈ r.dependencies, Quiet s used L (build (d.fill stem))) :
    Quiet s used L ((engineOf p build).build (r.dependencies.map fun d => [d.fill stem])) := by
  intro w outcomes w' works progress run
  rcases dependencies_cases r with e | ⟨d, e⟩
  · rw [e] at run
    obtain ⟨rfl, rfl⟩ := build_nil_eq_some run
    exact ⟨works, .refl _ _ _⟩
  · rw [e] at run
    obtain ⟨o, rfl, asked⟩ := build_singleton_eq_some run
    exact h d (by simp [e]) w o w' works progress asked

/-- A rule that leaves a target to others changes nothing that was built. -/
theorem passes (leaves : ∀ stem, r.product.stem? target = some stem → Leaves p build target r)
    (deps : ∀ stem, r.product.stem? target = some stem → ∀ d ∈ r.dependencies,
      Quiet s used L (build (d.fill stem)))
    (signals : ∀ message : String, '/' ∉ message.toList →
      Quiet s used L (build ⟨signalKey target message⟩))
    (works : s.Works used w) (progress : w.own.inProgress = L)
    (run : tryRules p (engineOf p build) target (r :: rest) blocked w = some (o, w')) :
    ∃ w₁ blocked', s.Works used w₁ ∧ s.Later used w w₁ ∧
      tryRules p (engineOf p build) target rest blocked' w₁ = some (o, w') := by
  cases hs : r.product.stem? target with
  | none =>
    rw [tryRules_cons_of_none hs] at run
    exact ⟨w, blocked, works, .refl _ _ _, run⟩
  | some stem =>
    obtain ⟨e, reason, because, apply⟩ := leaves stem hs
    obtain ⟨result, w₁, tried, next⟩ := tryRules_cons hs run
    cases tried with
    | built asked ready run =>
      rw [apply] at run
      simp at run
    | failed asked ready run final =>
      rw [apply] at run
      obtain ⟨same, -⟩ := Prod.mk.inj (Option.some.inj run)
      rw [← Except.error.inj same, because] at final
      simp at final
    | skipped asked failed =>
      obtain ⟨-, blocked', run⟩ := next.resolve_left (by simp)
      obtain ⟨works₁, later₁⟩ := quiet_dependencies r (deps stem hs) w _ _ works progress asked
      exact ⟨w₁, blocked', works₁, later₁, run⟩
    | left asked ready applied because' signal =>
      obtain ⟨-, blocked', run⟩ := next.resolve_left (by simp)
      obtain ⟨works₁, later₁⟩ := quiet_dependencies r (deps stem hs) w _ _ works progress asked
      rw [apply] at applied
      obtain ⟨rfl, rfl⟩ := Prod.mk.inj (Option.some.inj applied)
      obtain ⟨works₂, later₂⟩ := Quiet.signal (signals _ (slash_notMem_reason because')) _ _ _
        works₁ (later₁.inProgress.trans progress) signal
      exact ⟨w₁, blocked', works₂, later₁.trans later₂, run⟩

/-! ### Targets beside the artifacts -/

/-- Where no rule is left, a loose target is quiet. -/
theorem quiet_nil (prepared : s.Prepared used) (loose : s.Loose used q)
    (some_ : s.buildDir.names ≠ []) (blocked : Option Failure) :
    Quiet s used L (tryRules (s.project programs) (engineOf (s.project programs) build) q []
      blocked) := by
  rw [tryRules]
  refine (Quiet.copySource (p := s.project programs) prepared loose some_ rfl).bind fun _ => ?_
  split <;> exact .pure _

/-- Targets of signals are quiet. -/
theorem quiet_key (prepared : s.Prepared used) (some_ : s.buildDir.names ≠ [])
    (hs : source ∈ used) (lies : q.Lies source components file) {message : String}
    (hm : '/' ∉ message.toList) (n : Nat) :
    Quiet s used L (buildWithin (s.project programs) n ⟨signalKey q message⟩) := by
  cases n with
  | zero =>
    intro w x w' _ _ run
    simp [buildWithin, Work.exhausted] at run
  | succ n =>
    have loose := Site.loose_of_aside (s := s) (prepared.aside source hs q _ _ lies message hm)
    rw [buildWithin]
    refine Quiet.once loose ?_
    have last : (⟨signalKey q message⟩ : Path).text.toList.getLast? = some '>' := by
      rw [signalKey_eq, String.toList_append, List.getLast?_append, getLast?_signalTail]
      rfl
    rw [tryRules_rules rules_filter_gt last]
    exact quiet_nil prepared loose some_ none

/-- No namespace has its files beside an original, by the original's stem. -/
theorem namespaceOfRoot?_stem (prepared : s.Prepared used) (hs : source ∈ used)
    (ne : components ≠ []) {stem : String} (valid : isComponent stem = true) {dir : Path}
    (e : dir.parts = source.parts ++ components.map Part.name) :
    s.tree.metadata.namespaceOfRoot? (dir / ⟨stem⟩) = none := by
  cases found : s.tree.metadata.namespaceOfRoot? (dir / ⟨stem⟩) with
  | none => rfl
  | some ns =>
    exfalso
    obtain ⟨at_, -, found⟩ := Option.bind_eq_some_iff.1 found
    obtain ⟨ns', there, found⟩ := Option.bind_eq_some_iff.1 found
    split at found
    case isFalse => simp at found
    case isTrue same =>
      obtain rfl := Option.some.inj found
      obtain ⟨scope, mem, rfl⟩ := Option.map_eq_some_iff.1 there
      have mem : scope.ns ∈ s.tree.namespaces := List.mem_map_of_mem (List.mem_of_find?_eq_some mem)
      obtain ⟨source', hs', lies⟩ := prepared.shaped.below _ mem
      have names := names_congr (Path.same_iff.1 same)
      rw [lies.rootPath_eq, names_div lies.isStem.isName, names_div (isName_of_isComponent valid),
        names_of_parts lies.parts_above, names_of_parts e, List.append_assoc, List.append_assoc]
        at names
      obtain ⟨rfl, rest⟩ := prepared.apart.eq hs' (prepared.sub hs) names
      obtain ⟨front, flat⟩ := List.append_inj' rest rfl
      obtain ⟨last, split, flatName_eq⟩ := lies.exists_flatName
      rw [List.singleton_inj.1 flat] at flatName_eq
      exact flatName_ne_component (front ▸ ne) (split ▸ lies.valid) valid flatName_eq.symm

/-- The digest that is asked for beside an original belongs to no namespace, and is quiet. -/
theorem quiet_stamp (prepared : s.Prepared used) (some_ : s.buildDir.names ≠ [])
    (hs : source ∈ used) (ne : components ≠ []) {stem : String} (valid : isComponent stem = true)
    {dir : Path} (e : dir.parts = source.parts ++ components.map Part.name)
    (comps : ∀ c ∈ components, isComponent c = true) (n : Nat) :
    Quiet s used L (buildWithin (s.project programs) n
      ((dir / ⟨stem⟩).append ("." ++ Rule.stampExtension))) := by
  cases n with
  | zero =>
    intro w x w' _ _ run
    simp [buildWithin, Work.exhausted] at run
  | succ n =>
    have stem_ := isStem_of_isComponent valid
    have lies : ((dir / ⟨stem⟩).append ("." ++ Rule.stampExtension)).Lies source components
        (stem ++ "." ++ Rule.stampExtension) := by
      have name : IsName (stem ++ ("." ++ Rule.stampExtension)) := stem_.append (by decide)
      rw [append_div stem_.isName name, ← String.append_assoc]
      rw [← String.append_assoc] at name
      refine ⟨comps, name, by simp, ?_, dir, rfl, e⟩
      have plain : '<' ∉ Rule.stampExtension.toList := by decide
      simp [Site.lt_notMem_of_isComponent valid, plain]
    have loose := Site.loose_of_stamp (s := s) prepared.apart_used hs (prepared.direct source hs) ne
      valid lies
    have matched : Rule.stamp.product.stem? ((dir / ⟨stem⟩).append ("." ++ Rule.stampExtension)) =
        some (dir / ⟨stem⟩).text :=
      Rule.stamp.stem?_append (text_div_ne_empty stem_.isName)
    rw [buildWithin]
    refine Quiet.once loose ?_
    rw [tryRules_rules rules_filter_p (getLast?_eq_of_stem? matched (by decide))]
    have leaves : Leaves (s.project programs) (buildWithin (s.project programs) n)
        ((dir / ⟨stem⟩).append ("." ++ Rule.stampExtension)) .stamp := by
      refine ⟨.notANamespace (dir / ⟨stem⟩), _, rfl, fun w => ?_⟩
      have none_ : (contextOf (s.project programs)
          (buildWithin (s.project programs) n)).metadata.namespaceOfRoot? ⟨(dir / ⟨stem⟩).text⟩ =
          none := namespaceOfRoot?_stem prepared hs ne valid e
      rw [Rule.apply, Context.writeStamp, Context.namespaceOf, matched, bind_assoc,
        Attempt.bind_of_ok (Attempt.orThrow_some_run _ _), none_]
      rfl
    intro w o w' works progress run
    obtain ⟨w₁, blocked, works₁, later, run⟩ := passes (fun _ _ => leaves)
      (by simp [Rule.dependencies]) (fun message hm => quiet_key prepared some_ hs lies hm n) works
      progress run
    obtain ⟨works₂, later₂⟩ := quiet_nil prepared loose some_ blocked _ _ _ works₁
      (later.inProgress.trans progress) run
    exact ⟨works₂, later.trans later₂⟩

/-! ### Artifacts -/

/-- A step that builds an artifact that is neither kept nor being built yet. -/
def Makes (s : Site) (used L : List Path) (a : Artifact) (m : Step Outcome) : Prop :=
  ∀ w o w', s.Works used w → w.own.inProgress = a.path :: L → m w = some (o, w') →
    s.Ends used a w o w'

theorem Comes.once (prepared : s.Prepared used) (ha : s.tree.HasIn used a)
    (new : listsPath a.path L = false) {produce : Step Outcome} (h : Makes s used L a produce) :
    Comes s used L a (once a.path produce) := by
  intro w o w' works progress run
  cases known : lookupPath? a.path w.own.outcomes with
  | some o' =>
    rw [once_of_known known] at run
    obtain ⟨rfl, rfl⟩ := Prod.mk.inj (Option.some.inj run)
    exact ⟨works, .refl _ _ _, known⟩
  | none =>
    have idle : listsPath a.path w.own.inProgress = false := progress ▸ new
    rw [once_of_new known idle] at run
    obtain ⟨⟨o', w₁⟩, run₁, same⟩ := Option.map_eq_some_iff.1 run
    obtain ⟨rfl, rfl⟩ := Prod.mk.inj same
    have entered := works.entered a.path fun b hb e =>
      (prepared.same_iff ha hb).1 e ▸ known
    have ends := h _ _ _ entered (congrArg (a.path :: ·) progress) run₁
    have own : lookupPath? a.path (finished a.path o' w₁).own.outcomes = some o' := by
      simp [finished, lookupPath?]
    refine ⟨ends.works, ⟨fun b hb o e => ?_, ?_⟩, own⟩
    · have kept := ends.later.kept b hb o e
      change lookupPath? b.path ((a.path, o') :: w₁.own.outcomes) = some o
      rw [Site.lookupPath?_cons, if_neg, kept]
      intro same
      obtain rfl := (prepared.same_iff ha hb).1 same
      rw [known] at e
      simp at e
    · exact Quiet.finished_inProgress idle ends.later.inProgress o'

/-- Where no rule is left, an artifact is the project's own file, if it is to be that. -/
theorem ends_nil (h : s.Doing used w a source components base extension)
    (plain : ∀ f, a ≠ .virtual f) (content : s.Tells a (s.copied a.path))
    (run : tryRules (s.project programs) (engineOf (s.project programs) build) a.path [] blocked w =
      some (o, w')) : s.Ends used a w o w' := by
  rw [tryRules] at run
  obtain ⟨copied, w₁, copy, run⟩ := Work.bind_eq_some.1 run
  rcases h.copySource plain content copy with ⟨rfl, ends⟩ | ⟨⟨failure, rfl⟩, ends⟩
  · obtain ⟨rfl, rfl⟩ := Prod.mk.inj (Option.some.inj run)
    exact ends
  · cases blocked with
    | none =>
      obtain ⟨rfl, rfl⟩ := Prod.mk.inj (Option.some.inj run)
      exact ends _
    | some failure =>
      obtain ⟨rfl, rfl⟩ := Prod.mk.inj (Option.some.inj run)
      exact ends _

theorem firstError?_eq_none {outcomes : List Outcome} (h : firstError? outcomes = none) :
    ∀ o ∈ outcomes, ∃ path, o = .ok path := by
  induction outcomes with
  | nil => simp
  | cons o outcomes ih =>
    cases o with
    | error f => simp [firstError?] at h
    | ok path => simpa using ih h

theorem mem_of_firstError? {outcomes : List Outcome} {f : Failure}
    (h : firstError? outcomes = some f) : .error f ∈ outcomes := by
  induction outcomes with
  | nil => simp [firstError?] at h
  | cons o outcomes ih =>
    cases o with
    | error g =>
      obtain rfl := Option.some.inj h
      exact List.mem_cons_self
    | ok path => exact List.mem_cons_of_mem _ (ih h)

/-- A rule that builds an artifact does so, unless something that it needs has no content. -/
theorem ends_or_passes (h : s.Doing used w a source components base extension) {stem : String}
    (hs : r.product.stem? a.path = some stem) (needs : List Artifact)
    (deps : r.dependencies.map (·.fill stem) = needs.map Artifact.path)
    (needed : ∀ b ∈ needs, s.tree.HasIn used b ∧ Comes s used w.own.inProgress b (build b.path))
    (builds : ∀ w₁, s.Doing used w₁ a source components base extension →
      w₁.own.inProgress = w.own.inProgress → (∀ b ∈ needs, ∃ path, lookupPath? b.path w₁.own.outcomes =
        some (.ok path)) → s.Builds used a w₁ (r.apply (contextOf (s.project programs) build) a.path))
    (run : tryRules (s.project programs) (engineOf (s.project programs) build) a.path (r :: rest)
      blocked w = some (o, w')) :
    s.Ends used a w o w' ∨ (∃ b ∈ needs, s.Tells b none) ∧
      ∃ w₁ blocked', s.Works used w₁ ∧ s.Later used w w₁ ∧
        tryRules (s.project programs) (engineOf (s.project programs) build) a.path rest blocked' w₁ =
          some (o, w') := by
  obtain ⟨result, w₁, tried, next⟩ := tryRules_cons hs run
  have askable : Askable s used w.own.inProgress build (needs.map Artifact.path) := by
    intro q mem
    obtain ⟨b, hb, rfl⟩ := List.mem_map.1 mem
    exact ⟨b, (needed b hb).1, rfl, (needed b hb).2⟩
  have batches : (r.dependencies.map fun d => [d.fill stem]) =
      (needs.map Artifact.path).map ([·]) := by
    rw [← deps, List.map_map]
    rfl
  have spec {outcomes : List Outcome} {w₂ : World LocalState}
      (asked : (engineOf (s.project programs) build).build
        (r.dependencies.map fun d => [d.fill stem]) w = some (outcomes, w₂)) :
      Asked s used (needs.map Artifact.path) w outcomes w₂ :=
    build_askable h.prepared askable h.works rfl (batches ▸ asked)
  have builds {outcomes : List Outcome} {w₂ : World LocalState}
      (all : Asked s used (needs.map Artifact.path) w outcomes w₂)
      (ready : firstError? outcomes = none) :
      s.Builds used a w₂ (r.apply (contextOf (s.project programs) build) a.path) := by
    refine builds w₂ (h.later all.works all.later) all.later.inProgress fun b hb => ?_
    obtain ⟨o, mem, known⟩ := all.outcome b (needed b hb).1 (List.mem_map_of_mem hb)
    obtain ⟨path, rfl⟩ := firstError?_eq_none ready o mem
    exact ⟨path, known⟩
  cases tried with
  | skipped asked failed =>
    obtain ⟨-, blocked', run⟩ := next.resolve_left (by simp)
    have all := spec asked
    obtain ⟨b, hb, path, known⟩ := all.artifact _ (mem_of_firstError? failed)
    obtain ⟨b', mem, same⟩ := List.mem_map.1 path
    obtain rfl := hb.eq_of_names h.prepared.shaped h.prepared.apart_used (needed b' mem).1
      (congrArg Path.names same.symm)
    exact .inr ⟨⟨b, mem, all.works.came b hb _ known⟩, w₁, blocked', all.works, all.later, run⟩
  | built asked ready apply =>
    obtain ⟨e, rfl⟩ := next.resolve_right (by simp)
    obtain rfl := Option.some.inj e
    have all := spec asked
    rcases builds all ready _ _ apply with ⟨same, ends⟩ | ⟨e, same, -⟩
    · obtain rfl := Applied.built.inj (Except.ok.inj same)
      exact .inl (ends.after all.later)
    · simp at same
  | left asked ready apply because signal =>
    rcases builds (spec asked) ready _ _ apply with ⟨rfl, -⟩ | ⟨e, rfl, final, -⟩
    · simp [reasonOf] at because
    · simp [reasonOf, final] at because
  | failed asked ready apply final =>
    obtain ⟨e, rfl⟩ := next.resolve_right (by simp)
    obtain rfl := Option.some.inj e
    have all := spec asked
    rcases builds all ready _ _ apply with ⟨same, -⟩ | ⟨e', -, -, ends⟩
    · simp at same
    · exact .inl (((ends _).hardened a.path).after all.later)

/-- Only a source file under its flat name is one at its path. -/
theorem fileOfKind?_path (prepared : s.Prepared used) (ha : s.tree.Has a) {kind : SourceKind}
    (h : ∀ f, a = .virtual f → f.kind ≠ kind) :
    s.tree.metadata.fileOfKind? kind a.path = none := by
  cases e : s.tree.metadata.fileOfKind? kind a.path with
  | none => rfl
  | some f =>
    obtain ⟨found, same⟩ := Metadata.fileAt?_of_fileOfKind? e
    have found : s.tree.files.find? (·.virtualPath.same a.path) = some f := found
    have same' : f.virtualPath.same a.path = true := by simpa using List.find?_some found
    have path := Path.same_iff.1 same'
    have hf : s.tree.Has (.virtual f) := List.mem_of_find?_eq_some found
    refine absurd same (h f ?_)
    exact ((prepared.tidy.hasIn ha).eq_of_names prepared.shaped prepared.apart
      (prepared.tidy.hasIn hf) (names_congr path).symm)

theorem leaves_link {kind : SourceKind} (h : p.metadata.fileOfKind? kind target = none) :
    Leaves p build target (.link kind) := by
  refine ⟨.notNamespacedFile target, _, rfl, fun w => ?_⟩
  have h : (contextOf p build).metadata.fileOfKind? kind target = none := h
  rw [Rule.apply, Context.linkSource, h]
  rfl

theorem leaves_depends {kind : SourceKind} {stem : String}
    (hs : (Rule.depends kind).product.stem? (target.append dependsSuffix) = some stem)
    (h : p.metadata.fileOfKind? kind target = none) :
    Leaves p build (target.append dependsSuffix) (.depends kind) := by
  refine ⟨.notNamespacedFile target, _, rfl, fun w => ?_⟩
  have h : (contextOf p build).metadata.fileOfKind? kind target = none := h
  rw [Rule.apply, Context.writeDepends, hs, Path.dropSuffix?_append,
    Attempt.bind_of_ok (Attempt.orThrow_some_run _ _),
    Attempt.bind_of_ok (Attempt.orThrow_some_run _ _), h]
  rfl

theorem leaves_root {root : Path} (hr : root.text ≠ "")
    (h : p.metadata.namespaceOfRoot? root = none) :
    Leaves p build (root.append Rule.root.ending) .root := by
  refine ⟨.notANamespace root, _, rfl, fun w => ?_⟩
  have h : (contextOf p build).metadata.namespaceOfRoot? ⟨root.text⟩ = none := h
  rw [Rule.apply, Context.writeRoot, Rule.root.stem?_append hr,
    Attempt.bind_of_ok (Attempt.orThrow_some_run _ _), Context.namespaceOf,
    Rule.root.stem?_append hr, bind_assoc, Attempt.bind_of_ok (Attempt.orThrow_some_run _ _), h]
  rfl

/-- The one dependency of the rule for resolved dependencies is the target without its suffix. -/
theorem fill_depends {kind : SourceKind} {stem : String}
    (hs : (Rule.depends kind).product.stem? (q.append dependsSuffix) = some stem) {d : Pattern}
    (hd : d ∈ (Rule.depends kind).dependencies) : d.fill stem = q := by
  obtain rfl := List.mem_singleton.1 hd
  obtain ⟨text, -⟩ := Pattern.stem?_ending_eq_some_iff.1 hs
  have text : q.text = stem ++ ("." ++ kind.extension) := by
    have text : q.text ++ dependsSuffix = stem ++ ("." ++ kind.extension ++ dependsSuffix) := text
    rw [← String.append_assoc] at text
    exact (String.append_left_inj _).1 text
  rw [Pattern_ending_fill, ← text]

theorem path_text_ne_empty (ha : s.tree.HasIn used a) : a.path.text ≠ "" := by
  obtain ⟨-, source, -, components, base, extension, sits⟩ := ha
  obtain ⟨q, e, -⟩ := sits.lies.spelled
  rw [e]
  exact text_div_ne_empty sits.lies.isName

/-- Dependencies as the analyzer tells them are written for all but source files under their flat
names, and for these if they cannot be built. -/
theorem ends_plainDepends (h : s.Doing used w (.depends a) source components base extension)
    (answers : s.answered → s.Answers programs)
    (comes : Comes s used w.own.inProgress a (build a.path))
    (plain : (∀ f, a ≠ .virtual f) ∨ s.content? a = none)
    (run : tryRules (s.project programs) (engineOf (s.project programs) build)
      (a.path.append dependsSuffix) [.plainDepends] blocked w = some (o, w')) :
    s.Ends used (.depends a) w o w' := by
  have ha : s.tree.HasIn used a := by
    cases h.sits with
    | depends sits => exact ⟨h.has, source, h.mem, _, _, _, sits⟩
  have matched : Rule.plainDepends.product.stem? (Artifact.depends a).path = some a.path.text :=
    Rule.plainDepends.stem?_append (path_text_ne_empty ha)
  have builds (w₁ : World LocalState)
      (h₁ : s.Doing used w₁ (.depends a) source components base extension) {path : Path}
      (known : lookupPath? a.path w₁.own.outcomes = some (.ok path)) :
      s.Builds used (.depends a) w₁ (Rule.plainDepends.apply (contextOf (s.project programs) build)
        (Artifact.depends a).path) := by
    by_cases other : ∀ f, a ≠ .virtual f
    · exact h₁.builds_writePlainDepends answers rfl other known
    · obtain ⟨f, rfl⟩ := Classical.not_forall_not.1 other
      have none_ := plain.resolve_left other
      have stands : s.Stands _ _ _ (.virtual f) path := h₁.works.came _ ha _ known
      obtain ⟨bytes, content, -⟩ := stands.held
      simp [content.eq (by simp)] at none_
  rcases ends_or_passes h matched [a] (by simp [Rule.dependencies, Pattern_ending_fill])
    (by simpa using ⟨ha, comes⟩) (fun w₁ h₁ _ known => (known a (by simp)).elim fun _ => builds w₁ h₁)
      run with ends | ⟨⟨b, mem, none_⟩, w₁, blocked', works, later, run⟩
  · exact ends
  · obtain rfl := List.mem_singleton.1 mem
    have content : s.Tells (.depends b) (s.copied (Artifact.depends b).path) := by
      intro told
      rw [Site.content?, none_ fun _ => told ⟨b, rfl⟩]
    exact (ends_nil (h.later works later) (by simp) content run).after later

section Makes

variable (prepared : s.Prepared used)

include prepared

/-- What a step of an artifact needs to be shown for is the artifact where it sits. -/
theorem makes_of_doing (ha : s.tree.HasIn used a) {m : Step Outcome}
    (h : ∀ source components base extension w o w',
      s.Doing used w a source components base extension → w.own.inProgress = a.path :: L →
        m w = some (o, w') → s.Ends used a w o w') : Makes s used L a m := by
  obtain ⟨has, source, hs, components, base, extension, sits⟩ := ha
  intro w o w' works progress run
  refine h source components base extension w o w'
    ⟨prepared, works, has, hs, sits, ?_⟩ progress run
  rw [progress, Site.listsPath_cons, Path.same_self, Bool.true_or]

theorem makes_virtual {f : NamespacedFile} (ha : s.tree.HasIn used (.virtual f))
    (comes : Comes s used (f.virtualPath :: L) (.original f) (build f.realPath)) :
    Makes s used L (.virtual f) (tryRules (s.project programs) (engineOf (s.project programs) build)
      f.virtualPath rules none) := by
  refine makes_of_doing prepared ha fun source components base extension w o w' h progress run => ?_
  obtain ⟨components', stem, made⟩ := prepared.shaped.made f h.has
  have matched := made.stem?_virtualPath
  have own {rest : List Rule} (run : tryRules (s.project programs)
      (engineOf (s.project programs) build) f.virtualPath (.link f.kind :: rest) none w =
        some (o, w')) : s.Ends used (.virtual f) w o w' := by
    refine (ends_or_passes h matched [] rfl (by simp)
      (fun w₁ h₁ same _ => h₁.builds_linkSource rfl ?_) run).resolve_right (by simp)
    rw [same, progress]
    rintro q mem
    obtain rfl := List.mem_singleton.1 mem
    exact ⟨_, ha.original, rfl, comes⟩
  cases kind : f.kind with
  | implementation =>
    rw [kind] at own matched
    rw [tryRules_rules rules_filter_l (getLast?_eq_of_stem? matched (by decide))] at run
    exact own run
  | interface =>
    rw [kind] at own matched
    rw [tryRules_rules rules_filter_i (getLast?_eq_of_stem? matched (by decide))] at run
    exact own run

theorem makes_stamp {ns : Namespace} (ha : s.tree.HasIn used (.stamp ns))
    (askable : Askable s used (ns.target .stamp :: L) build (s.tree.closure ns)) :
    Makes s used L (.stamp ns) (tryRules (s.project programs) (engineOf (s.project programs) build)
      (ns.target .stamp) rules none) := by
  refine makes_of_doing prepared ha fun source components base extension w o w' h progress run => ?_
  obtain ⟨source', -, lies⟩ := prepared.shaped.below ns h.has
  have matched := lies.stem?_target .stamp
  rw [tryRules_rules rules_filter_p (getLast?_eq_of_stem? matched (by decide))] at run
  refine (ends_or_passes h matched [] rfl (by simp)
    (fun w₁ h₁ same _ => h₁.builds_writeStamp rfl ?_) run).resolve_right (by simp)
  rw [same, progress]
  exact askable

section Signals

variable (signals : ∀ source ∈ used, ∀ q components file, q.Lies source components file →
  ∀ message : String, '/' ∉ message.toList → ∀ L, Quiet s used L (build ⟨signalKey q message⟩))

include signals

theorem makes_aliases {ns : Namespace} (ha : s.tree.HasIn used (.aliases ns)) :
    Makes s used L (.aliases ns) (tryRules (s.project programs)
      (engineOf (s.project programs) build) (ns.target .aliases) rules none) := by
  refine makes_of_doing prepared ha fun source components base extension w o w' h progress run => ?_
  obtain ⟨source', -, lies⟩ := prepared.shaped.below ns h.has
  have matched := lies.stem?_target .aliases
  rw [tryRules_rules rules_filter_l (getLast?_eq_of_stem? matched (by decide))] at run
  obtain ⟨w₁, blocked, works, later, run⟩ := passes
    (fun _ _ => leaves_link (fileOfKind?_path prepared h.has (by simp))) (by simp [Rule.dependencies])
    (fun message hm => signals source h.mem _ _ _ h.lies message hm _) h.works progress run
  have ends := (ends_or_passes (h.later works later) matched [] rfl (by simp)
    (fun w₁ h₁ _ _ => h₁.builds_writeAliases rfl) run).resolve_right (by simp)
  exact ends.after later

theorem makes_root {ns : Namespace} (ha : s.tree.HasIn used (.root ns))
    (comes : Comes s used (ns.target .root :: L) (.stamp ns) (build (ns.target .stamp))) :
    Makes s used L (.root ns) (tryRules (s.project programs)
      (engineOf (s.project programs) build) (ns.target .root) rules none) := by
  refine makes_of_doing prepared ha fun source components base extension w o w' h progress run => ?_
  obtain ⟨source', -, lies⟩ := prepared.shaped.below ns h.has
  have matched := lies.stem?_target .root
  have stamp : s.tree.HasIn used (.stamp ns) := by
    cases h.sits with
    | root lies => exact ⟨h.has, source, h.mem, _, _, _, .stamp lies⟩
  rw [tryRules_rules rules_filter_l (getLast?_eq_of_stem? matched (by decide))] at run
  obtain ⟨w₁, blocked, works, later, run⟩ := passes
    (fun _ _ => leaves_link (fileOfKind?_path prepared h.has (by simp))) (by simp [Rule.dependencies])
    (fun message hm => signals source h.mem _ _ _ h.lies message hm _) h.works progress run
  have aliases : Rule.aliases.product.stem? (Artifact.root ns).path = none :=
    stem?_aliases_root lies
  rw [tryRules_cons_of_none aliases] at run
  have h₁ := h.later works later
  have progress₁ := later.inProgress.trans progress
  refine Site.Ends.after ?_ later
  rcases ends_or_passes h₁ matched [.stamp ns] (by
      simp [Rule.dependencies, Pattern_ending_fill, Artifact.path, Namespace.target, Path.append,
        Rule.ending])
    (by simpa using ⟨stamp, progress₁ ▸ comes⟩)
    (fun w₁ h₁ _ known => by
      obtain ⟨path, known⟩ := known (.stamp ns) (by simp)
      exact h₁.builds_writeRoot rfl known) run with
    ends | ⟨⟨b, mem, none_⟩, w₂, blocked', works₂, later₂, run⟩
  · exact ends
  · obtain rfl := List.mem_singleton.1 mem
    have content : s.content? (.root ns) = s.copied (ns.target .root) := by
      have missing : s.digest? ns = none := Option.map_eq_none_iff.1 (none_.eq (by simp))
      change s.rootOf ns (s.digest? ns) = _
      rw [missing]
      rfl
    exact (ends_nil (h₁.later works₂ later₂) (by simp) (.of_eq content) run).after later₂

end Signals

theorem makes_depends (answers : s.answered → s.Answers programs) (ha : s.tree.HasIn used (.depends a))
    (comes : Comes s used (a.path.append dependsSuffix :: L) a (build a.path))
    (signals : ∀ source ∈ used, ∀ q components file, q.Lies source components file →
      ∀ message : String, '/' ∉ message.toList → ∀ L, Quiet s used L (build ⟨signalKey q message⟩)) :
    Makes s used L (.depends a) (tryRules (s.project programs)
      (engineOf (s.project programs) build) (a.path.append dependsSuffix) rules none) := by
  refine makes_of_doing prepared ha fun source components base extension w o w' h progress run => ?_
  have ha : s.tree.HasIn used a := by
    cases h.sits with
    | depends sits => exact ⟨h.has, source, h.mem, _, _, _, sits⟩
  have matched : Rule.plainDepends.product.stem? (a.path.append dependsSuffix) = some a.path.text :=
    Rule.plainDepends.stem?_append (path_text_ne_empty ha)
  rw [tryRules_rules rules_filter_s (getLast?_eq_of_stem? matched (by decide))] at run
  by_cases plain : ∀ f, a ≠ .virtual f
  · -- neither rule for source files applies, whether it finds its dependency or not
    have pass (kind : SourceKind) {rest : List Rule} {blocked : Option Failure}
        {w : World LocalState} (works : s.Works used w)
        (progress : w.own.inProgress = (Artifact.depends a).path :: L)
        (run : tryRules (s.project programs) (engineOf (s.project programs) build)
          (a.path.append dependsSuffix) (.depends kind :: rest) blocked w = some (o, w')) :
        ∃ w₁ blocked', s.Works used w₁ ∧ s.Later used w w₁ ∧ tryRules (s.project programs)
          (engineOf (s.project programs) build) (a.path.append dependsSuffix) rest blocked' w₁ =
            some (o, w') := by
      refine passes (fun stem hs => ?_) (fun stem hs d hd => ?_)
        (fun message hm => signals source h.mem _ _ _ h.lies message hm _) works progress run
      · exact leaves_depends hs (fileOfKind?_path prepared ha.1 fun f e => absurd e (plain f))
      · rw [fill_depends hs hd]
        exact comes.quiet
    obtain ⟨w₁, blocked₁, works₁, later₁, run⟩ := pass .implementation h.works progress run
    have progress₁ := later₁.inProgress.trans progress
    obtain ⟨w₂, blocked₂, works₂, later₂, run⟩ := pass .interface works₁ progress₁ run
    have later := later₁.trans later₂
    have progress₂ := later₂.inProgress.trans progress₁
    exact (ends_plainDepends (h.later works₂ later) answers (progress₂ ▸ comes) (.inl plain)
      run).after later
  · obtain ⟨f, rfl⟩ := Classical.not_forall_not.1 plain
    obtain ⟨components', stem, made⟩ := prepared.shaped.made f h.has
    have matched := made.stem?_depends
    have own {rest : List Rule} (run : tryRules (s.project programs)
        (engineOf (s.project programs) build) (Artifact.depends (.virtual f)).path
        (.depends f.kind :: rest) none w = some (o, w')) :
        s.Ends used (.depends (.virtual f)) w o w' ∨ s.content? (.virtual f) = none ∧
          ∃ w₁ blocked', s.Works used w₁ ∧ s.Later used w w₁ ∧ tryRules (s.project programs)
            (engineOf (s.project programs) build) (Artifact.depends (.virtual f)).path rest blocked'
              w₁ = some (o, w') := by
      refine (ends_or_passes h matched [.virtual f] ?_
        (by simpa using ⟨ha, progress ▸ comes⟩) (fun w₁ h₁ _ known => ?_) run).imp_right
          (And.imp_left fun ⟨b, mem, none_⟩ =>
            Site.Tells.eq (List.mem_singleton.1 mem ▸ none_) (by simp))
      · have fill := fill_depends matched (d := Pattern.ending ("." ++ f.kind.extension))
          (by simp [Rule.dependencies])
        exact congrArg ([·]) fill
      · obtain ⟨path, known⟩ := known (.virtual f) (by simp)
        exact h₁.builds_writeDepends answers rfl known
    have rest {w₁ : World LocalState} {blocked : Option Failure} (works : s.Works used w₁)
        (later : s.Later used w w₁) (none_ : s.content? (.virtual f) = none)
        (run : tryRules (s.project programs) (engineOf (s.project programs) build)
          (f.virtualPath.append dependsSuffix) [.plainDepends] blocked w₁ = some (o, w')) :
        s.Ends used (.depends (.virtual f)) w o w' :=
      (ends_plainDepends (h.later works later) answers
        ((later.inProgress.trans progress) ▸ comes) (.inr none_) run).after later
    have other {kind : SourceKind} (ne : kind ≠ f.kind) :
        (Rule.depends kind).product.stem? (f.virtualPath.append dependsSuffix) = none := by
      rw [made.virtualPath_eq_append, append_append]
      exact stem?_depends_other ne
    cases kind : f.kind with
    | implementation =>
      rw [kind] at own other
      rcases own run with ends | ⟨none_, w₁, blocked, works, later, run⟩
      · exact ends
      · rw [Artifact.path, Artifact.path, tryRules_cons_of_none (other (by decide))] at run
        exact rest works later none_ run
    | interface =>
      rw [kind] at own other
      rw [Artifact.path, tryRules_cons_of_none (other (by decide))] at run
      rcases own run with ends | ⟨none_, w₁, blocked, works, later, run⟩
      · exact ends
      · exact rest works later none_ run

/-- The original of a source file is the project's own file. -/
theorem makes_original {n : Nat} {f : NamespacedFile} (ha : s.tree.HasIn used (.original f)) :
    Makes s used L (.original f) (tryRules (s.project programs)
      (engineOf (s.project programs) (buildWithin (s.project programs) n)) f.realPath rules none) := by
  refine makes_of_doing prepared ha fun source components base extension w o w' h progress run => ?_
  have some_ := prepared.buildDir_names_ne_nil ha
  obtain ⟨stem, lies⟩ : ∃ stem, f.LiesIn source components stem := by
    cases h.sits with
    | original lies => exact ⟨_, lies⟩
  have valid : isComponent stem = true := lies.made.valid stem (by simp)
  have comps : ∀ c ∈ components, isComponent c = true := fun c hc => lies.made.valid c (by simp [hc])
  have isStem := isStem_of_isComponent valid
  have path : f.realPath = (source.below components / ⟨stem⟩).append ("." ++ f.kind.extension) := by
    rw [lies.realPath_eq, append_div isStem.isName
      (isStem.append (by simpa using f.kind.noSlash_extension)), String.append_assoc]
  have matched : (Rule.link f.kind).product.stem? f.realPath =
      some (source.below components / ⟨stem⟩).text := by
    rw [path]
    exact (Rule.link f.kind).stem?_append (text_div_ne_empty isStem.isName)
  have link {rest : List Rule} {blocked : Option Failure} (run : tryRules (s.project programs)
      (engineOf (s.project programs) (buildWithin (s.project programs) n)) f.realPath
        (.link f.kind :: rest) blocked w = some (o, w')) :=
    passes (L := f.realPath :: L) (fun _ _ => leaves_link (fileOfKind?_path prepared h.has (by simp)))
      (by simp [Rule.dependencies])
      (fun message hm => quiet_key prepared some_ h.mem h.lies hm n) h.works progress run
  cases kind : f.kind with
  | interface =>
    rw [kind] at link matched
    rw [tryRules_rules rules_filter_i (getLast?_eq_of_stem? matched (by decide))] at run
    obtain ⟨w₁, blocked, works, later, run⟩ := link run
    exact (ends_nil (h.later works later) (by simp) (.of_eq rfl) run).after later
  | implementation =>
    rw [kind] at link matched path
    rw [tryRules_rules rules_filter_l (getLast?_eq_of_stem? matched (by decide))] at run
    obtain ⟨w₁, blocked₁, works₁, later₁, run⟩ := link run
    have aliases : Rule.aliases.product.stem? f.realPath = none := by
      have text : f.realPath.text =
          (source.below components).front ++ flatName [stem] ++ Rule.root.ending := by
        rw [path, flatName_singleton, Path.append, div_eq isStem.isName]
        rfl
      exact stem?_aliases_flatName (by simpa using valid) text
    rw [Artifact.path, tryRules_cons_of_none aliases] at run
    -- beside a source file there may be a namespace of its stem, but not its root module
    have below := parts_below (p := source) fun c hc => isName_of_isComponent (comps c hc)
    have leaves : Leaves (s.project programs) (buildWithin (s.project programs) n) f.realPath .root := by
      rw [path]
      exact leaves_root (text_div_ne_empty isStem.isName)
        (namespaceOfRoot?_stem prepared h.mem lies.made.ne_nil valid below)
    obtain ⟨w₂, blocked₂, works₂, later₂, run⟩ := passes (fun _ _ => leaves)
      (fun stem' hs d hd => by
        obtain rfl := List.mem_singleton.1 hd
        obtain rfl := Option.some.inj (hs.symm.trans matched)
        rw [Pattern_ending_fill]
        exact quiet_stamp prepared some_ h.mem lies.made.ne_nil valid below comps n)
      (fun message hm => quiet_key prepared some_ h.mem h.lies hm n) works₁
      (later₁.inProgress.trans progress) run
    have later := later₁.trans later₂
    exact (ends_nil (h.later works₂ later) (by simp) (.of_eq rfl) run).after later

/-- What is built while an artifact is being built is of lower rank. -/
theorem comes_buildWithin (answers : s.answered → s.Answers programs) (n : Nat) : ∀ {a : Artifact}
    {L : List Path}, s.tree.HasIn used a → (∀ b, s.tree.HasIn used b → listsPath b.path L = true →
      a.rank s.tree < b.rank s.tree) → Comes s used L a (buildWithin (s.project programs) n a.path) := by
  induction n with
  | zero =>
    intro a L _ _ w o w' _ _ run
    simp [buildWithin, Work.exhausted] at run
  | succ n ih =>
    intro a L ha busy
    have new : listsPath a.path L = false := by
      rw [Bool.eq_false_iff]
      exact fun listed => (busy a ha listed).false
    have nested {b : Artifact} (hb : s.tree.HasIn used b) (lower : b.rank s.tree < a.rank s.tree) :
        Comes s used (a.path :: L) b (buildWithin (s.project programs) n b.path) := by
      refine ih hb fun c hc listed => ?_
      rw [Site.listsPath_cons, Bool.or_eq_true] at listed
      rcases listed with same | listed
      · exact (prepared.same_iff ha hc).1 same ▸ lower
      · exact lower.trans (busy c hc listed)
    have signals (source : Path) (hs : source ∈ used) (q : Path) (components : List String)
        (file : String) (lies : q.Lies source components file) (message : String)
        (hm : '/' ∉ message.toList) (L : List Path) :
        Quiet s used L (buildWithin (s.project programs) n ⟨signalKey q message⟩) :=
      quiet_key prepared (prepared.buildDir_names_ne_nil ha) hs lies hm n
    rw [buildWithin]
    refine Comes.once prepared ha new ?_
    cases a with
    | original f => exact makes_original prepared ha
    | virtual f => exact makes_virtual prepared ha (nested ha.original Nat.zero_lt_one)
    | stamp ns =>
      refine makes_stamp prepared ha fun q hq => ?_
      obtain ⟨b, hb, rfl, lower, -⟩ :=
        prepared.tidy.exists_member prepared.apart prepared.sub ha hq
      exact ⟨b, hb, rfl, nested hb lower⟩
    | aliases ns => exact makes_aliases prepared signals ha
    | root ns =>
      have stamp : s.tree.HasIn used (.stamp ns) := by
        obtain ⟨has, source, hs, _, _, _, ⟨⟩⟩ := ha
        rename_i lies
        exact ⟨has, source, hs, _, _, _, .stamp lies⟩
      exact makes_root prepared signals ha (nested stamp (Nat.lt_succ_self _))
    | depends a =>
      have of : s.tree.HasIn used a := by
        obtain ⟨has, source, hs, _, _, _, ⟨⟩⟩ := ha
        rename_i sits
        exact ⟨has, source, hs, _, _, _, sits⟩
      exact makes_depends prepared answers ha (nested of (Nat.lt_succ_self _)) signals

/-- Building an artifact in a world in order, when nothing is being built, comes to what the artifact
should be. -/
theorem build_correct (answers : s.answered → s.Answers programs) (works : s.Works used w)
    (idle : w.own.inProgress = []) (ha : s.tree.HasIn used a) :
    ∃ o w', Local.build (s.project programs) a.path w = some (o, w') ∧ s.Works used w' ∧
      w'.own.inProgress = [] ∧ s.Came w'.disk w'.own.outcomes w'.own.attached a o := by
  obtain ⟨o, w', run, -⟩ :=
    exists_build_eq_some (p := s.project programs) s.tree.metadata_reaches a.path w
  obtain ⟨works', later, known⟩ :=
    comes_buildWithin prepared answers _ ha (by simp [listsPath]) w o w' works idle run
  exact ⟨o, w', run, works', later.inProgress.trans idle, works'.came a ha o known⟩

end Makes

end Local
end FlatModules
