import FlatModules.Proofs.Build.Endings
import FlatModules.Proofs.Build.Growth
import FlatModules.Proofs.Path.Spelling

/-!
# Build — dependencies of namespaced files

The build of the dependencies of a source file under its flat name, from the link of the file to the
line that is written.  When a link is built it takes the tags that the original has then
(`Linked.tags`), and a link that an engine has was so built (`Handled.exists_linked`); so the
analyzer is run with the tags of both (`depends_build`).
-/

namespace FlatModules

open Naming Path

namespace Local

variable {p : Project} {build : Path → Step Outcome} {q target : Path} {t : Tree} {sources : List Path}
  {f : NamespacedFile} {w w₁ w₂ w' : World LocalState}

/-! ### Links and their tags -/

/-- The tags that the engine gives a path. -/
def tagsIn (p : Project) (w : World LocalState) (q : Path) : Tags :=
  (Tags.ofList ((p.config.tags.lookup q.text).getD [])).union (attachedTags q w.own.attached)

/-- A rule's ending cannot be an ending of nothing. -/
theorem isEnding_ending (r : Rule) : IsEnding r.ending := by
  cases r with
  | executableTags format => cases format <;> decide
  | depends kind | link kind => cases kind <;> decide
  | stamp | aliases | root | manifest => decide
  | plainDepends => decide

/-- Without a name after the last slash there is no rule. -/
theorem stem?_eq_none_of_idle {above last : String} (h : q.Spelled above last) (idle : Idle last)
    (r : Rule) : r.product.stem? q = none := by
  cases e : r.product.stem? q with
  | none => rfl
  | some stem =>
    obtain ⟨x, rfl, -⟩ :=
      h.exists_of_text (isEnding_ending r).noSlash (Pattern.stem?_ending_eq_some_iff.1 e).1
    exact absurd idle (not_or.2 ((isEnding_ending r).append_ne x))

/-- Rules that a target does not match make no difference. -/
theorem tryRules_matched (engine : Engine LocalState) (q : Path) (rs : List Rule)
    (blocked : Option Failure) : tryRules p engine q rs blocked =
      tryRules p engine q (rs.filter fun r => (r.product.stem? q).isSome) blocked := by
  induction rs generalizing blocked with
  | nil => rfl
  | cons r rs ih =>
    cases matched : r.product.stem? q with
    | none => rw [tryRules_cons_of_none matched, List.filter_cons_of_neg (by simp [matched]), ih]
    | some stem =>
      rw [List.filter_cons_of_pos (by simp [matched]), tryRules, tryRules]
      simp only [ih]

/-- A copy of a file that is not there fails. -/
theorem copySource_of_not_isFile (h : w.disk.isFile (p.root / q) = false) :
    copySource p q w = some (.error ⟨w.nextFailure, q, "no rule to build target"⟩,
      { w with nextFailure := w.nextFailure + 1 }) := by
  unfold copySource
  rw [Work.bind_of_eq_some Work.get_run]
  simp only [h]
  rfl

/-- A dependency that must be built was. -/
theorem exists_of_requireAll_singleton
    (run : ((contextOf p build).requireAll [q]).run w = some (.ok (), w')) :
    ∃ path, build q w = some (.ok path, w') := by
  obtain ⟨outcomes, asked, ⟨passed, -⟩ | ⟨r, f, -, no⟩⟩ := Context.exists_of_requireAll run
  · obtain ⟨o, rfl, done⟩ := build_singleton_eq_some asked
    obtain ⟨path, built⟩ := firstFailure?_eq_none passed (q, o) List.mem_cons_self
    obtain rfl : o = .ok path := built
    exact ⟨path, done⟩
  · cases no

/-- Where the rule for links has built one, the original was built first, and the target got the
tags that the original had then. -/
theorem exists_of_linkSource {kind : SourceKind} {x : Applied}
    (file : p.metadata.fileOfKind? kind q = some f)
    (run : ((contextOf p build).linkSource kind q).run w = some (.ok x, w')) :
    ∃ path w₁, build f.realPath w = some (.ok path, w₁) ∧
      w'.own.attached = attachTags q (tagsIn p w₁ f.realPath) w₁.own.attached := by
  have file : (contextOf p build).metadata.fileOfKind? kind q = some f := file
  rw [Context.linkSource, file, Attempt.bind_of_ok (Attempt.orThrow_some_run _ _)] at run
  obtain ⟨⟨⟩, w₁, required, run⟩ | ⟨e, w₁, -, same⟩ := Attempt.bind_eq_some.1 run
  case inr => cases (Prod.mk.inj same).1
  obtain ⟨path, built⟩ := exists_of_requireAll_singleton required
  refine ⟨path, w₁, built, ?_⟩
  have tags : (liftM ((contextOf p build).engine.tags f.realPath) : Attempt LocalState Tags).run w₁ =
      some (.ok (tagsIn p w₁ f.realPath), w₁) := by
    rw [Attempt.lift_run]
    rfl
  have attach : (liftM ((contextOf p build).engine.attach q (tagsIn p w₁ f.realPath)) :
      Attempt LocalState Unit).run w₁ = some (.ok (), { w₁ with own := { w₁.own with
        attached := attachTags q (tagsIn p w₁ f.realPath) w₁.own.attached } }) := by
    rw [Attempt.lift_run]
    rfl
  have run := (Attempt.bind_of_ok tags).symm.trans run
  have run := (Attempt.bind_of_ok attach).symm.trans run
  cases named : f.realPath.fileName? with
  | none =>
    rw [named, Attempt.bind_of_error (Attempt.orThrow_none_run _)] at run
    cases (Prod.mk.inj (Option.some.inj run)).1
  | some name =>
    rw [named, Attempt.bind_of_ok (Attempt.orThrow_some_run _ _)] at run
    obtain ⟨⟨⟩, w₂, linked, run⟩ | ⟨e, w₂, -, same⟩ := Attempt.bind_eq_some.1 run
    case inr => cases (Prod.mk.inj same).1
    rw [Attempt.onDisk_run] at linked
    obtain ⟨-, rfl⟩ := Prod.mk.inj (Option.some.inj linked)
    obtain ⟨-, rfl⟩ := Prod.mk.inj (Option.some.inj run)
    rfl

/-- The rule for links does not leave a file's virtual path to others, however it is spelled. -/
theorem writes_linkSource {kind : SourceKind} {name : String}
    (named : f.realPath.fileName? = some name) (file : p.metadata.fileOfKind? kind q = some f) :
    Writes q ((contextOf p build).linkSource kind q) := by
  have file : (contextOf p build).metadata.fileOfKind? kind q = some f := file
  rw [Context.linkSource, file]
  refine Writes.some_bind (Writes.bind (.requireAll _) fun _ => ?_)
  refine Writes.bind (.lift _) fun _ => Writes.bind (.lift _) fun _ => ?_
  rw [named]
  exact Writes.some_bind (Writes.bind (.onDisk _ _) fun _ => .built)

/-- What is built under the virtual path of a file, however spelled, is a link. -/
theorem exists_of_tryRules_link (h : t.Shaped sources) (hm : p.metadata = t.metadata)
    (hf : f ∈ t.files) (same : q.same f.virtualPath = true) (sound : w.disk.Sound) {path : Path}
    (run : tryRules p (engineOf p build) q rules none w = some (.ok path, w')) :
    ∃ path' w₁, build f.realPath w = some (.ok path', w₁) ∧
      w'.own.attached = attachTags q (tagsIn p w₁ f.realPath) w₁.own.attached := by
  obtain ⟨components, stem, made⟩ := h.made f hf
  have parts := same_iff.1 same
  have names : q.names = f.dir.names ++
      [flatName (components ++ [stem]) ++ "." ++ f.kind.extension] := by
    rw [names_congr parts, made.virtualPath_eq, Path.names_div made.isName]
  obtain ⟨above, last, spelled⟩ := q.exists_spelled
  by_cases idle : Idle last
  · -- no rule is tried for such a spelling, and there is no file of it to copy
    exfalso
    have none_ : (rules.filter fun r => (r.product.stem? q).isSome) = [] :=
      List.filter_eq_nil_iff.2 fun r _ => by simp [stem?_eq_none_of_idle spelled idle r]
    rw [tryRules_matched, none_] at run
    obtain ⟨copied, copy, agrees⟩ := copySource_of_tryRules_nil run
    obtain ⟨above', below⟩ := spelled.div p.root
    obtain ⟨front, segments⟩ := below.segments_eq
    have missing : w.disk.isFile (p.root / q) = false := by
      have end_ : (p.root / q).segments.getLast? = some last.toList := by simp [segments]
      refine Disk.isFile_eq_false_of_idle sound end_ ?_
      rcases idle with rfl | rfl
      exacts [.inl rfl, .inr rfl]
    rw [copySource_of_not_isFile missing] at copy
    obtain ⟨rfl, -⟩ := Prod.mk.inj (Option.some.inj copy)
    cases (agrees path).1 rfl
  · obtain ⟨front, names'⟩ := spelled.names_eq idle
    obtain ⟨-, last_eq⟩ := List.append_inj' (names.symm.trans names') rfl
    obtain rfl := List.singleton_inj.1 last_eq
    have text : q.text = (above ++ flatName (components ++ [stem])) ++ (Rule.link f.kind).ending := by
      rw [spelled.text, Rule.ending]
      simp only [String.append_assoc]
    have matched : (Rule.link f.kind).product.stem? q =
        some (above ++ flatName (components ++ [stem])) := by
      refine Pattern.stem?_ending_eq_some_iff.2 ⟨text, fun e => ?_⟩
      have := congrArg String.toList e
      rw [String.toList_append] at this
      exact made.isStem.isName.ne_empty (String.toList_inj.1 (List.append_eq_nil_iff.1 this).2)
    have file : p.metadata.fileOfKind? f.kind q = some f := by
      rw [hm, Metadata.fileOfKind?]
      change ((t.fileAt? q).bind fun file => if file.kind = f.kind then some file else none) = _
      rw [h.fileAt?_eq hf parts]
      simp
    -- the rule for links of this kind comes first, and does not leave the target to others
    obtain ⟨rest, first⟩ : ∃ rest, tryRules p (engineOf p build) q rules none =
        tryRules p (engineOf p build) q (.link f.kind :: rest) none := by
      cases kind : f.kind with
      | implementation =>
        rw [kind] at matched
        exact ⟨_, tryRules_rules rules_filter_l (getLast?_eq_of_stem? matched (by decide)) _⟩
      | interface =>
        rw [kind] at matched
        exact ⟨_, tryRules_rules rules_filter_i (getLast?_eq_of_stem? matched (by decide)) _⟩
    rw [first] at run
    obtain ⟨result, w₂, tried, next⟩ := tryRules_cons matched run
    have writes : Writes q ((contextOf p build).linkSource f.kind q) :=
      writes_linkSource made.fileName?_eq file
    cases tried with
    | skipped asked failed =>
      obtain ⟨d, e, -⟩ := Tried.exists_of_skipped asked failed
      simp [Rule.dependencies] at e
    | built asked ready apply =>
      obtain ⟨-, rfl⟩ := build_nil_eq_some asked
      obtain ⟨-, rfl⟩ := next.resolve_right (by simp)
      exact exists_of_linkSource file apply
    | left asked ready apply because signal =>
      rcases writes _ _ _ apply with rfl | ⟨e, rfl, final⟩
      · simp [reasonOf] at because
      · simp [reasonOf, final] at because
    | failed asked ready apply final =>
      obtain ⟨e, -⟩ := next.resolve_right (by simp)
      simp at e

/-- The building of a link from start to end, under some spelling of the file's virtual path: the
original has been asked for when the world is `w₁`, and the link is there when it is `w₂`. -/
inductive Linked (p : Project) (f : NamespacedFile) : World LocalState → World LocalState → Prop
  | intro {n : Nat} {q path : Path} {o : Outcome} {w w₁ w₂ : World LocalState}
      (same : q.same f.virtualPath = true) (new : lookupPath? q w.own.outcomes = none)
      (idle : listsPath q w.own.inProgress = false) (sound : w.disk.Sound)
      (original : buildWithin p n f.realPath (entered q w) = some (o, w₁))
      (link : buildWithin p (n + 1) q w = some (.ok path, w₂)) : Linked p f w₁ w₂

/-- Whether no tag was lost from one world to another. -/
def KeepsTags (w w' : World LocalState) : Prop :=
  ∀ q, ∀ tag ∈ (attachedTags q w.own.attached).names, tag ∈ (attachedTags q w'.own.attached).names

theorem KeepsTags.trans (h : KeepsTags w w₁) (h' : KeepsTags w₁ w₂) : KeepsTags w w₂ :=
  fun q tag mem => h' q tag (h q tag mem)

variable (h : t.Shaped sources) (hm : p.metadata = t.metadata) (hf : f ∈ t.files)

include h hm hf

/-- A link that was built has the tags that the original had. -/
theorem Linked.tags (linked : Linked p f w₁ w₂) {tag : String}
    (mem : tag ∈ (tagsIn p w₁ f.realPath).names) :
    tag ∈ (attachedTags f.virtualPath w₂.own.attached).names := by
  cases linked with
  | @intro n q path o w _ _ same new idle sound original link =>
    rw [buildWithin, once_of_new new idle] at link
    obtain ⟨⟨o', w'⟩, run, e⟩ := Option.map_eq_some_iff.1 link
    obtain ⟨rfl, rfl⟩ := Prod.mk.inj e
    obtain ⟨path', w₁', original', attached⟩ := exists_of_tryRules_link (w := entered q w) h hm hf same sound run
    obtain ⟨-, rfl⟩ := Prod.mk.inj (Option.some.inj (original.symm.trans original'))
    change tag ∈ (attachedTags f.virtualPath w'.own.attached).names
    have same' : f.virtualPath.same q = true := same_iff.2 (same_iff.1 same).symm
    rw [attached, attachedTags, lookupPath?_congr same']
    exact mem_attachedTags_attachTags.2 (.inr ⟨same_self q, mem⟩)

/-- Whether a link that is known was built in the past, and no tag was lost since. -/
def LinkKept (p : Project) (f : NamespacedFile) (w : World LocalState) : Prop :=
  ∀ path, lookupPath? f.virtualPath w.own.outcomes = some (.ok path) →
    ∃ w₁ w₂, Linked p f w₁ w₂ ∧ KeepsTags w₂ w

omit h hm hf in
theorem LinkKept.mono (kept : LinkKept p f w) (outcomes : w'.own.outcomes = w.own.outcomes)
    (tags : KeepsTags w w') : LinkKept p f w' := by
  intro path known
  obtain ⟨w₁, w₂, linked, since⟩ := kept path (outcomes ▸ known)
  exact ⟨w₁, w₂, linked, since.trans tags⟩

/-- A target that is built is the link, which is built as links are, or another one. -/
theorem LinkKept.once {n : Nat} {o : Outcome} (new : lookupPath? q w.own.outcomes = none)
    (idle : listsPath q w.own.inProgress = false) (sound : w.disk.Sound)
    (run : tryRules p (engineOf p (buildWithin p n)) q rules none (entered q w) = some (o, w'))
    (kept : LinkKept p f w') : LinkKept p f (finished q o w') := by
  intro path known
  change (if q.same f.virtualPath then some o else lookupPath? f.virtualPath w'.own.outcomes) =
    some (.ok path) at known
  by_cases same : q.same f.virtualPath = true
  · rw [if_pos same] at known
    obtain rfl := Option.some.inj known
    obtain ⟨path', w₁, original, -⟩ :=
      exists_of_tryRules_link (w := entered q w) h hm hf same sound run
    have link : buildWithin p (n + 1) q w = some (.ok path, finished q (.ok path) w') := by
      rw [buildWithin, once_of_new new idle, run]
      rfl
    exact ⟨w₁, _, .intro same new idle sound original link, fun _ _ mem => mem⟩
  · rw [if_neg same] at known
    exact kept path known

theorem Course.linkKept {T : Path → Prop} (course : Course p T w w') (sound : w.disk.Sound)
    (kept : LinkKept p f w) : LinkKept p f w' := by
  induction course with
  | refl w => exact kept
  | trans first _ ih ih' => exact ih' (first.sound sound) (ih sound kept)
  | fail w => exact kept.mono rfl fun _ _ mem => mem
  | @act q _ _ _ acts =>
    cases acts with
    | attach tags =>
      exact kept.mono rfl fun path tag mem => mem_attachedTags_attachTags.2 (.inl mem)
    | _ => exact kept.mono rfl fun _ _ mem => mem
  | once _ new idle run _ ih =>
    exact LinkKept.once h hm hf new idle sound run
      (ih sound (kept.mono rfl fun _ _ mem => mem))

omit h hm hf

/-- What an engine can come to that is used in any way: targets are asked for, tags attached, and the
disk is changed in between. -/
inductive Handled (p : Project) : World LocalState → Prop
  | start {w : World LocalState} (new : w.own = {}) (sound : w.disk.Sound) : Handled p w
  | call {w w' : World LocalState} (hw : Handled p w) (call : Calls p w w') : Handled p w'
  | tag {w : World LocalState} (hw : Handled p w) (q : Path) (tags : Tags) :
      Handled p { w with own := { w.own with attached := attachTags q tags w.own.attached } }
  | change {w : World LocalState} (hw : Handled p w) {d : Disk} (sound : d.Sound) :
      Handled p { w with disk := d }

namespace Handled

theorem sound (hw : Handled p w) : w.disk.Sound := by
  induction hw with
  | start _ sound => exact sound
  | call _ call ih => exact call.course.sound ih
  | tag _ _ _ ih => exact ih
  | change _ sound => exact sound

theorem inProgress (hw : Handled p w) : w.own.inProgress = [] := by
  induction hw with
  | start new => simp [new]
  | call _ call ih => exact call.grown.inProgress.trans ih
  | tag _ _ _ ih => exact ih
  | change _ _ ih => exact ih

include h hm hf in
theorem linkKept (hw : Handled p w) : LinkKept p f w := by
  induction hw with
  | start new => simp [LinkKept, new, lookupPath?]
  | call hw call ih => exact call.course.linkKept h hm hf hw.sound ih
  | tag _ q tags ih =>
    exact ih.mono rfl fun path tag mem => mem_attachedTags_attachTags.2 (.inl mem)
  | change _ _ ih => exact ih.mono rfl fun _ _ mem => mem

end Handled

/-! ### Saving a target -/

/-- The step that puts a target into the build directory. -/
def saving (p : Project) (q : Path) (content : String) : DiskM Unit := do
  DiskM.makeParents (p.buildDir / q)
  DiskM.write (p.buildDir / q) content.toUTF8

theorem writeOutput_run (p : Project) (build : Path → Step Outcome) (q : Path) (content : String)
    (w : World LocalState) :
    ((contextOf p build).writeOutput q content).run w =
      some (((saving p q content).run.run w.disk).1.map (fun _ => .built q) |>.mapError
        (.disk (p.buildDir / q)), { w with disk := ((saving p q content).run.run w.disk).2 }) := by
  unfold Context.writeOutput
  cases done : (saving p q content).run.run w.disk with
  | mk result d =>
    cases result with
    | ok => exact (Attempt.bind_of_ok (Attempt.onDisk_run_ok done _)).trans rfl
    | error e => exact (Attempt.bind_of_error (Attempt.onDisk_run_error done _)).trans rfl

/-- A target that was put into the build directory is read from there; one that was not has changed no
file. -/
theorem saving_cases (sound : w.disk.Sound) (p : Project) (q : Path) (content : String) :
    (((saving p q content).run.run w.disk).1 = .ok () ∧
      ((saving p q content).run.run w.disk).2.readBytes (p.buildDir / q) = .ok content.toUTF8) ∨
    ((∃ e, ((saving p q content).run.run w.disk).1 = .error e) ∧
      ∀ K, w.disk.Guarded K → w.disk.Spared K ((saving p q content).run.run w.disk).2) := by
  have parents (K : String → Prop) (guarded : w.disk.Guarded K) :=
    (Disk.Chain.makeParents (p.buildDir / q)).spared (fun _ _ makes => makes.spared) guarded
  cases made : (DiskM.makeParents (p.buildDir / q)).run.run w.disk with
  | mk result d =>
    simp only [made] at parents
    cases result with
    | error e =>
      have whole : (saving p q content).run.run w.disk = (.error e, d) := DiskM.bind_run_error made
      rw [whole]
      exact .inr ⟨⟨e, rfl⟩, parents⟩
    | ok =>
      have whole : (saving p q content).run.run w.disk =
          (DiskM.write (p.buildDir / q) content.toUTF8).run.run d := DiskM.bind_run_ok made
      rw [whole]
      have sound' : d.Sound := (parents (fun _ => False) ⟨sound, fun _ _ _ _ _ => id⟩).1.sound
      cases wrote : (DiskM.write (p.buildDir / q) content.toUTF8).run.run d with
      | mk result d' =>
        rcases Disk.write_cases sound' wrote with ⟨rfl, read⟩ | ⟨⟨e, rfl⟩, rfl⟩
        · exact .inl ⟨rfl, read⟩
        · exact .inr ⟨⟨e, rfl⟩, parents⟩

/-! ### The analysis of a source file -/

/-- The names that an analyzer reports: those after the first colon of its first line that is not
blank, if it exits with 0 and there is a colon. -/
def reported? (exit : Analyzer.Exit) : Option (List String) :=
  let line := RawLine.lineOf (Analyzer.textOf exit.output)
  if exit.code = some 0 ∧ ':' ∈ line then
    some ((Text.words (line.dropWhile (· ≠ ':')).tail).map String.ofList)
  else none

theorem map_snd_cutOnce (mark : Char) (cs : List Char) :
    (Text.cutOnce mark cs).map Prod.snd =
      if mark ∈ cs then some (cs.dropWhile (· ≠ mark)).tail else none := by
  induction cs with
  | nil => rfl
  | cons c cs ih =>
    by_cases hit : c = mark
    · simp [Text.cutOnce, hit]
    · have other : mark ≠ c := Ne.symm hit
      simp only [Text.cutOnce, hit, ↓reduceIte, Option.map_map, List.mem_cons, other, false_or, ← ih,
        List.dropWhile_cons, ne_eq, not_false_eq_true, decide_true]
      rfl

/-- What the reader of an exit makes of it. -/
theorem readExit_eq (config : AnalyzerConfig) (file : Path) (exit : Analyzer.Exit) :
    (∃ e, Analyzer.readExit config file exit = .error e ∧ reported? exit = none) ∨
      ∃ raw, Analyzer.readExit config file exit = .ok raw ∧ reported? exit = some raw.dependencies := by
  unfold Analyzer.readExit reported?
  by_cases code : exit.code = some 0
  · have cut := map_snd_cutOnce ':' (RawLine.lineOf (Analyzer.textOf exit.output))
    simp only [code, ↓reduceIte, true_and, RawLine.parse?]
    cases e : Text.cutOnce ':' (RawLine.lineOf (Analyzer.textOf exit.output)) with
    | none =>
      rw [e, Option.map_none] at cut
      refine .inl ⟨_, rfl, ?_⟩
      split at cut
      · simp at cut
      case isFalse none_ => rw [if_neg none_]
    | some split =>
      rw [e, Option.map_some] at cut
      refine .inr ⟨_, rfl, ?_⟩
      split at cut
      case isTrue there => rw [if_pos there, ← Option.some.inj cut]
      · simp at cut
  · exact .inl ⟨_, if_neg code, if_neg fun h => code h.1⟩

/-- The line of dependencies of a source file: each name with what it stands for, or by itself. -/
def dependsLine (t : Tree) (f : NamespacedFile) (names : List String) : String :=
  f.virtualPath.text ++ ": " ++ " ".intercalate (names.map fun raw => (t.resolve? f raw).getD raw) ++ "\n"

/-- A build that failed and left every file of some ending as it was. -/
structure Unmade (k : String) (w : World LocalState) (o : Outcome) (w' : World LocalState) : Prop where
  failed : ∃ failure, o = .error failure
  spared : Disk.SameFiles (HasEnding k) w.disk w'.disk

/-- What comes of the build of a source file's dependencies that began in the world `w` and has built
the link of the file in `w₁`, if the analyzer is run with given arguments. -/
inductive Analyzed (p : Project) (t : Tree) (f : NamespacedFile) (w w₁ : World LocalState)
    (arguments : List String) : Outcome → World LocalState → Prop
  /-- The analyzer could not be started. -/
  | unstarted {e o w'}
      (start : Analyzer.start p.programs w₁.disk p.buildDir p.config.analyzer.program arguments = .error e)
      (runs : w'.runs = w.runs) (unmade : Unmade dependsSuffix w o w') : Analyzed p t f w w₁ arguments o w'
  /-- The analyzer failed, or its answer has no names. -/
  | unanswered {exit o w'}
      (start : Analyzer.start p.programs w₁.disk p.buildDir p.config.analyzer.program arguments = .ok exit)
      (answer : reported? exit = none)
      (runs : w'.runs = w.runs ++ [arguments]) (unmade : Unmade dependsSuffix w o w') :
      Analyzed p t f w w₁ arguments o w'
  /-- The line could not be written. -/
  | unwritten {exit names e o w'}
      (start : Analyzer.start p.programs w₁.disk p.buildDir p.config.analyzer.program arguments = .ok exit)
      (answer : reported? exit = some names)
      (write : ((saving p (f.virtualPath.append dependsSuffix) (dependsLine t f names)).run.run
        w₁.disk).1 = .error e)
      (runs : w'.runs = w.runs ++ [arguments]) (unmade : Unmade dependsSuffix w o w') :
      Analyzed p t f w w₁ arguments o w'
  /-- The line was written. -/
  | written {exit names w'}
      (start : Analyzer.start p.programs w₁.disk p.buildDir p.config.analyzer.program arguments = .ok exit)
      (answer : reported? exit = some names)
      (write : ((saving p (f.virtualPath.append dependsSuffix) (dependsLine t f names)).run.run
        w₁.disk).1 = .ok ())
      (runs : w'.runs = w.runs ++ [arguments])
      (content : w'.disk.readBytes (p.buildDir / f.virtualPath.append dependsSuffix) =
        .ok (dependsLine t f names).toUTF8) :
      Analyzed p t f w w₁ arguments (.ok (f.virtualPath.append dependsSuffix)) w'

/-- How a build of a source file's dependencies runs that begins in the world `w`. -/
inductive DependsBuilt (p : Project) (t : Tree) (f : NamespacedFile) (w : World LocalState) :
    Outcome → World LocalState → Prop
  /-- The link could not be built. -/
  | unlinked {n failure w₁ o w'}
      (link : buildWithin p n f.virtualPath (entered (f.virtualPath.append dependsSuffix) w) =
        some (.error failure, w₁))
      (unmade : w₁.disk.isFile (p.root / f.virtualPath.append dependsSuffix) = false →
        w'.runs = w.runs ∧ Unmade dependsSuffix w o w') : DependsBuilt p t f w o w'
  /-- The link was built, in this build or before, and the analyzer is run. -/
  | linked {n path w₁ tags o w'}
      (link : buildWithin p n f.virtualPath (entered (f.virtualPath.append dependsSuffix) w) =
        some (.ok path, w₁))
      (since : ∃ w₂ w₃, Linked p f w₂ w₃ ∧ KeepsTags w₃ w₁)
      (tagged : ∀ w₂ w₃, Linked p f w₂ w₃ → KeepsTags w₃ w₁ → ∀ tag, tags.contains tag = true ↔
        tag ∈ (tagsIn p w₂ f.realPath).names ∨ tag ∈ (tagsIn p w₁ f.virtualPath).names)
      (analyzed : Analyzed p t f w w₁ (Analyzer.arguments p.config.analyzer f.virtualPath tags) o w') :
      DependsBuilt p t f w o w'

/-- The rule for the dependencies of a file under its flat name is the first that is tried for them,
and that for plain dependencies the only other. -/
theorem tryRules_depends {components : List String} {stem : String} (made : f.Made components stem)
    (blocked : Option Failure) :
    tryRules p (engineOf p build) (f.virtualPath.append dependsSuffix) rules blocked =
      tryRules p (engineOf p build) (f.virtualPath.append dependsSuffix)
        [.depends f.kind, .plainDepends] blocked := by
  have named : f.virtualPath.append dependsSuffix =
      (f.dir / ⟨flatName (components ++ [stem])⟩).append (Rule.depends f.kind).ending := by
    rw [made.virtualPath_eq_append, Path.append_append, Rule.ending]
  have other {k : SourceKind} (ne : k ≠ f.kind) :
      (Rule.depends k).product.stem? (f.virtualPath.append dependsSuffix) = none := by
    rw [named]
    exact stem?_depends_other ne
  have own := made.stem?_depends
  have plain : Rule.plainDepends.product.stem? (f.virtualPath.append dependsSuffix) =
      some f.virtualPath.text := by
    refine Rule.plainDepends.stem?_append ?_
    rw [made.virtualPath_eq]
    exact Path.text_div_ne_empty made.isName
  rw [tryRules_rules rules_filter_s (getLast?_eq_of_stem? own (by cases f.kind <;> decide)),
    tryRules_matched, tryRules_matched _ _ [.depends f.kind, .plainDepends]]
  cases kind : f.kind with
  | implementation =>
    rw [kind] at own
    simp [own, other (k := .interface) (by simp [kind]), plain]
  | interface =>
    rw [kind] at own
    simp [own, other (k := .implementation) (by simp [kind]), plain]

theorem analyze_run (p : Project) (build : Path → Step Outcome) (file : Path) (tags : Tags)
    (w : World LocalState) :
    ((contextOf p build).analyze file tags).run w =
      let told := Analyzer.analyze p.programs p.config.analyzer w.disk p.buildDir file tags
      some (told.2.mapError .analyzer, { w with runs := w.runs ++ told.1.toList }) := by
  unfold Context.analyze
  rw [Attempt.bind_of_ok Attempt.disk_run]
  cases analyzed : Analyzer.analyze p.programs p.config.analyzer w.disk p.buildDir file tags with
  | mk run? result =>
    have analyzed : Analyzer.analyze (contextOf p build).programs (contextOf p build).config.analyzer
        w.disk (contextOf p build).engine.buildDir file tags = (run?, result) := analyzed
    rw [analyzed]
    cases result <;> rfl

theorem writeDepends_run (h : t.Shaped sources) (hm : p.metadata = t.metadata) (hf : f ∈ t.files)
    (w : World LocalState) :
    ((contextOf p build).writeDepends (.depends f.kind) f.kind (f.virtualPath.append dependsSuffix)).run w =
      match Analyzer.analyze p.programs p.config.analyzer w.disk p.buildDir f.virtualPath
        (tagsIn p w f.virtualPath) with
      | (run?, .error e) => some (.error (.analyzer e), { w with runs := w.runs ++ run?.toList })
      | (run?, .ok raw) => ((contextOf p build).writeOutput (f.virtualPath.append dependsSuffix)
          (dependsLine t f raw.dependencies)).run { w with runs := w.runs ++ run?.toList } := by
  obtain ⟨components, stem, made⟩ := h.made f hf
  have file : (contextOf p build).metadata.fileOfKind? f.kind f.virtualPath = some f := by
    change p.metadata.fileOfKind? f.kind f.virtualPath = some f
    rw [hm]
    exact h.fileOfKind?_virtualPath hf
  have tags : (liftM ((contextOf p build).engine.tags f.virtualPath) : Attempt LocalState Tags).run w =
      some (.ok (tagsIn p w f.virtualPath), w) := by
    rw [Attempt.lift_run]
    rfl
  rw [Context.writeDepends, made.stem?_depends, Path.dropSuffix?_append,
    Attempt.bind_of_ok (Attempt.orThrow_some_run _ _), Attempt.bind_of_ok (Attempt.orThrow_some_run _ _),
    file, Attempt.bind_of_ok (Attempt.orThrow_some_run _ _)]
  refine (Attempt.bind_of_ok tags).trans ?_
  have run := analyze_run p build f.virtualPath (tagsIn p w f.virtualPath) w
  cases analyzed : Analyzer.analyze p.programs p.config.analyzer w.disk p.buildDir f.virtualPath
      (tagsIn p w f.virtualPath) with
  | mk run? result =>
    rw [analyzed] at run
    cases result with
    | error e => exact Attempt.bind_of_error run
    | ok raw =>
      have line : (raw.resolve (contextOf p build).metadata f).print ++ "\n" =
          dependsLine t f raw.dependencies := by
        change (raw.resolve p.metadata f).print ++ "\n" = _
        rw [hm]
        rfl
      exact (Attempt.bind_of_ok run).trans (by rw [line])

/-- What the rule for dependencies comes to. -/
theorem analyzed_of_writeDepends (h : t.Shaped sources) (hm : p.metadata = t.metadata)
    (hf : f ∈ t.files) (runs : w₁.runs = w.runs)
    (spared : w.disk.Spared (HasEnding dependsSuffix) w₁.disk) {result : Except RuleError Applied}
    (run : ((contextOf p build).writeDepends (.depends f.kind) f.kind
      (f.virtualPath.append dependsSuffix)).run w₁ = some (result, w₂)) {o : Outcome}
    (built : ∀ path, result = .ok (.built path) → o = .ok path)
    (failed : ∀ e, result = .error e → ∃ failure, o = .error failure)
    (disk : w'.disk = w₂.disk) (ran : w'.runs = w₂.runs) :
    Analyzed p t f w w₁ (Analyzer.arguments p.config.analyzer f.virtualPath
      (tagsIn p w₁ f.virtualPath)) o w' := by
  have sound := spared.1.sound
  rw [writeDepends_run h hm hf] at run
  unfold Analyzer.analyze at run
  dsimp only at run
  cases start : Analyzer.start p.programs w₁.disk p.buildDir p.config.analyzer.program
      (Analyzer.arguments p.config.analyzer f.virtualPath (tagsIn p w₁ f.virtualPath)) with
  | error e =>
    rw [start] at run
    obtain ⟨rfl, rfl⟩ := Prod.mk.inj (Option.some.inj run)
    exact .unstarted start (by simp [ran, runs]) ⟨failed _ rfl, disk ▸ spared.2⟩
  | ok exit =>
    simp only [start] at run
    rcases readExit_eq p.config.analyzer f.virtualPath exit with ⟨e, read, answer⟩ | ⟨raw, read, answer⟩
    · rw [read] at run
      obtain ⟨rfl, rfl⟩ := Prod.mk.inj (Option.some.inj run)
      exact .unanswered start answer (by simp [ran, runs]) ⟨failed _ rfl, disk ▸ spared.2⟩
    · simp only [read] at run
      rw [writeOutput_run] at run
      obtain ⟨rfl, rfl⟩ := Prod.mk.inj (Option.some.inj run)
      rcases saving_cases (w := { w₁ with runs := w₁.runs ++ _ }) sound p
        (f.virtualPath.append dependsSuffix) (dependsLine t f raw.dependencies) with
        ⟨write, content⟩ | ⟨⟨e, write⟩, unchanged⟩
      · obtain rfl := built (f.virtualPath.append dependsSuffix) (by rw [write]; rfl)
        exact .written start answer write (by simp [ran, runs]) (disk ▸ content)
      · refine .unwritten start answer write (by simp [ran, runs]) ⟨failed _ (by rw [write]; rfl), ?_⟩
        exact disk ▸ spared.2.trans (unchanged _ spared.1).2

/-- Where the source was not built, neither rule for dependencies does anything but ask for it. -/
theorem unmade_of_missing {n : Nat} {failure : Failure} {blocked : Option Failure} {o : Outcome}
    (ne : q.text ≠ "") (known : lookupPath? q w.own.outcomes = some (.error failure))
    (absent : w.disk.isFile (p.root / q.append dependsSuffix) = false)
    (run : tryRules p (engineOf p (buildWithin p (n + 1))) (q.append dependsSuffix) [.plainDepends]
      blocked w = some (o, w')) :
    (∃ failure, o = .error failure) ∧ w'.disk = w.disk ∧ w'.runs = w.runs := by
  obtain ⟨result, w₁, tried, next⟩ := tryRules_cons (Rule.plainDepends.stem?_append ne) run
  have again {outcomes w₂}
      (asked : (engineOf p (buildWithin p (n + 1))).build
        (Rule.plainDepends.dependencies.map fun d => [d.fill q.text]) w = some (outcomes, w₂)) :
      outcomes = [.error failure] ∧ w₂ = w := by
    have fill : (Pattern.ending "").fill q.text = q := by
      rw [Pattern_ending_fill, String.append_empty]
    rw [Rule.dependencies, List.map_singleton, fill] at asked
    obtain ⟨o, rfl, run⟩ := build_singleton_eq_some asked
    rw [buildWithin, once_of_known known] at run
    obtain ⟨rfl, rfl⟩ := Prod.mk.inj (Option.some.inj run)
    exact ⟨rfl, rfl⟩
  have blocked_ {outcomes w₂} (asked : (engineOf p (buildWithin p (n + 1))).build
        (Rule.plainDepends.dependencies.map fun d => [d.fill q.text]) w = some (outcomes, w₂)) :
      firstError? outcomes ≠ none := by
    obtain ⟨rfl, -⟩ := again asked
    simp [firstError?]
  cases tried with
  | skipped asked =>
    obtain ⟨-, rfl⟩ := again asked
    obtain ⟨-, blocked', run⟩ := next.resolve_left (by simp)
    obtain ⟨copied, copy, agrees⟩ := copySource_of_tryRules_nil run
    obtain ⟨rfl, rfl⟩ :=
      Prod.mk.inj (Option.some.inj ((copySource_of_not_isFile absent).symm.trans copy))
    refine ⟨?_, rfl, rfl⟩
    cases o with
    | ok path => cases (agrees path).1 rfl
    | error failure => exact ⟨failure, rfl⟩
  | built asked ready => exact absurd ready (blocked_ asked)
  | left asked ready => exact absurd ready (blocked_ asked)
  | failed asked ready => exact absurd ready (blocked_ asked)

/-- A link is no dependency. -/
theorem depends_not_same (named : q.Named linkEndings) : (q.append dependsSuffix).same q = false := by
  rw [Bool.eq_false_iff]
  intro same
  have proper : IsEnding dependsSuffix := by decide
  have avoids : q.Avoids (HasEnding dependsSuffix) := named.avoids (by decide) (by decide) (by decide)
  have names : (q.append dependsSuffix).names = q.names := names_congr (same_iff.1 same)
  refine proper.not_avoids q.text fun n hn => avoids n ?_
  rw [← names]
  exact hn

/-- The dependencies of a source file under its flat name, on an engine that has not built them: its
link is built first, which runs no analyzer.  If that succeeds, the analyzer is run on the file, with
the tags that the original had when the link was built and those of the file; what it reports is
written, and the build fails otherwise.  It fails too if there is no link, unless the project has a
file of the name.  A build that fails leaves all files of dependencies as they were, if no link leads
to one. -/
theorem depends_build {d : Disk} {root : Path} {config : Config} {programs : Analyzer.Programs}
    (sound : d.Sound) (ok : Tree.scan d root config = .ok t) (hf : f ∈ t.files)
    (hw : Handled (t.project root config programs) w)
    (guarded : w.disk.Guarded (HasEnding dependsSuffix))
    (new : lookupPath? (f.virtualPath.append dependsSuffix) w.own.outcomes = none) :
    ∃ o w', Local.build (t.project root config programs) (f.virtualPath.append dependsSuffix) w =
        some (o, w') ∧ DependsBuilt (t.project root config programs) t f w o w' := by
  set p := t.project root config programs
  set target := f.virtualPath.append dependsSuffix with target_eq
  have h := Tree.Shaped.scan ok
  have hm : p.metadata = t.metadata := rfl
  obtain ⟨components, stem, made⟩ := h.made f hf
  have named : f.virtualPath.Named linkEndings := .of_text (isEnding_link f.kind)
    (mem_linkEndings f.kind) (congrArg Path.text made.virtualPath_eq_append)
  have text : f.virtualPath.text ≠ "" := by
    rw [made.virtualPath_eq]
    exact Path.text_div_ne_empty made.isName
  have fill : (Pattern.ending ("." ++ f.kind.extension)).fill
      (f.dir / ⟨flatName (components ++ [stem])⟩).text = f.virtualPath := by
    rw [Pattern_ending_fill, made.virtualPath_eq_append, Path.append]
  have idle : listsPath target w.own.inProgress = false := by simp [hw.inProgress, listsPath]
  have free : listsPath f.virtualPath (entered target w).own.inProgress = false := by
    change listsPath f.virtualPath (target :: w.own.inProgress) = false
    simp [listsPath, hw.inProgress, target_eq, depends_not_same named]
  obtain ⟨o, w', run, -⟩ := exists_build_eq_some (p := p) t.metadata_reaches target w
  obtain ⟨n, depth_eq⟩ : ∃ n, depth p target = n + 2 := by
    have : 2 * 4 ≤ depth p target := Nat.mul_le_mul (Nat.le_add_left _ _) (Nat.le_add_left _ _)
    exact ⟨depth p target - 2, by omega⟩
  have whole := run
  rw [Local.build, depth_eq, buildWithin, once_of_new new idle] at run
  obtain ⟨⟨o', w₄⟩, tries, same⟩ := Option.map_eq_some_iff.1 run
  obtain ⟨rfl, rfl⟩ := Prod.mk.inj same
  rw [tryRules_depends made] at tries
  obtain ⟨result, w₃, tried, next⟩ := tryRules_cons made.stem?_depends tries
  -- what is known once the link has been asked for
  have asked {outcomes w₁} (asked : (engineOf p (buildWithin p (n + 1))).build
      ((Rule.depends f.kind).dependencies.map fun d =>
        [d.fill (f.dir / ⟨flatName (components ++ [stem])⟩).text]) (entered target w) =
        some (outcomes, w₁)) :
      ∃ link, outcomes = [link] ∧ buildWithin p (n + 1) f.virtualPath (entered target w) = some (link, w₁) ∧
        lookupPath? f.virtualPath w₁.own.outcomes = some link ∧ w₁.runs = w.runs ∧
        w.disk.Spared (HasEnding dependsSuffix) w₁.disk ∧ LinkKept p f w₁ := by
    rw [Rule.dependencies, List.map_singleton, fill] at asked
    obtain ⟨link, rfl, built⟩ := build_singleton_eq_some asked
    have closed : Closed p (Path.Named linkEndings) := closed_linkEndings sound ok
    have course := buildWithin_follows closed (n + 1) f.virtualPath named _ _ _ built
    refine ⟨link, rfl, built, ?_, course.runs_eq, ?_, ?_⟩
    · rw [buildWithin] at built
      exact lookupPath?_of_once free built
    · exact Course.spared_ending (w := entered target w) ok course (List.Subset.refl _) (by decide)
        (by decide) guarded
    · exact Course.linkKept (w := entered target w) h hm hf course hw.sound
        ((hw.linkKept h hm hf).mono rfl fun _ _ mem => mem)
  have tags {w₁ w₂ w₃ : World LocalState} (linked : Linked p f w₂ w₃) (kept : KeepsTags w₃ w₁) (tag : String) :
      (tagsIn p w₁ f.virtualPath).contains tag = true ↔
        tag ∈ (tagsIn p w₂ f.realPath).names ∨ tag ∈ (tagsIn p w₁ f.virtualPath).names := by
    rw [Tags.contains, List.contains_iff_mem]
    refine ⟨.inr, fun mem => mem.elim (fun mem => ?_) id⟩
    exact Tags.mem_addAll.2 (.inr (kept _ _ (linked.tags h hm hf mem)))
  -- once the link is there, the rule comes to what the analysis does
  have analyzed {outcomes w₁ w₂ result} (asked' : (engineOf p (buildWithin p (n + 1))).build
      ((Rule.depends f.kind).dependencies.map fun d =>
        [d.fill (f.dir / ⟨flatName (components ++ [stem])⟩).text]) (entered target w) =
        some (outcomes, w₁)) (ready : firstError? outcomes = none)
      (apply : ((Rule.depends f.kind).apply (contextOf p (buildWithin p (n + 1))) target).run w₁ =
        some (result, w₂)) {o : Outcome} {w' : World LocalState}
      (built : ∀ path, result = .ok (.built path) → o = .ok path)
      (failed : ∀ e, result = .error e → ∃ failure, o = .error failure)
      (disk : w'.disk = w₂.disk) (ran : w'.runs = w₂.runs) : DependsBuilt p t f w o w' := by
    obtain ⟨link, rfl, there, known, runs, spared, kept⟩ := asked asked'
    cases link with
    | error failure => simp [firstError?] at ready
    | ok path =>
      exact .linked there (kept path known) (fun _ _ => tags)
        (analyzed_of_writeDepends h hm hf runs spared apply built failed disk ran)
  refine ⟨o', _, whole, ?_⟩
  cases tried with
  | skipped asked' failed =>
    obtain ⟨link, rfl, there, known, runs, spared, -⟩ := asked asked'
    cases link with
    | ok path => simp [firstError?] at failed
    | error failure =>
      obtain ⟨-, blocked, run⟩ := next.resolve_left (by simp)
      refine .unlinked there fun absent => ?_
      obtain ⟨failed, disk, ran⟩ := unmade_of_missing text known absent run
      exact ⟨ran.trans runs, failed, disk ▸ spared.2⟩
  | built asked' ready apply =>
    obtain ⟨e, rfl⟩ := next.resolve_right (by simp)
    obtain rfl := Option.some.inj e
    exact analyzed asked' ready apply (fun path e => by rw [Applied.built.inj (Except.ok.inj e)])
      (fun e same => by simp at same) rfl rfl
  | left asked' ready apply because =>
    rcases writes_apply h hm (.depends hf) _ _ _ apply with rfl | ⟨e, rfl, final⟩
    · simp [reasonOf] at because
    · simp [reasonOf, final] at because
  | failed asked' ready apply =>
    obtain ⟨e, rfl⟩ := next.resolve_right (by simp)
    obtain rfl := Option.some.inj e
    exact analyzed asked' ready apply (fun path e => by simp at e) (fun _ _ => ⟨_, rfl⟩) rfl rfl

/-- An analyzer that reports one module, whatever it is asked. -/
def oneModule : Analyzer.Programs := fun _ _ _ _ => .ok ⟨some 0, "a.ml: List\n".toUTF8, ByteArray.empty⟩

set_option maxRecDepth 100000 in
/-- The dependencies of the one source of a small project. -/
theorem depends_build_smallDisk :
    let p := (sampleTree smallDisk libConfig).project ⟨"/p"⟩ libConfig oneModule
    ∃ f ∈ (sampleTree smallDisk libConfig).files,
      f.virtualPath.append dependsSuffix = ⟨"lib/foo/foo__a.ml.depends"⟩ ∧
      ∃ o w', Local.build p (f.virtualPath.append dependsSuffix) (newWorld smallDisk) = some (o, w') ∧
        DependsBuilt p (sampleTree smallDisk libConfig) f (newWorld smallDisk) o w' := by
  have sound : smallDisk.Sound := by decide +kernel
  have accepted := scan_sampleTree (d := smallDisk) (c := libConfig) (by decide +kernel)
  obtain ⟨f, hf, named⟩ : ∃ f ∈ (sampleTree smallDisk libConfig).files,
      f.virtualPath.append dependsSuffix = ⟨"lib/foo/foo__a.ml.depends"⟩ := by
    decide +kernel
  exact ⟨f, hf, named, depends_build sound accepted hf (.start (w := newWorld smallDisk) rfl sound)
    (by decide +kernel) rfl⟩

/-- A project with a link in its build directory, where the source would be copied to, that leads to
the dependencies of the source. -/
def leadDisk : Disk :=
  ⟨(["p", "_build", "lib", "foo", "a.ml"], .link "foo__a.ml.depends") ::
    (sampleDisk [["lib"], ["lib", "foo"], ["_build"], ["_build", "lib"], ["_build", "lib", "foo"]]
      [(["lib", "foo", "a.ml"], "let x = 1\n")]).entries⟩

set_option maxRecDepth 100000 in
/-- Through such a link the source is copied to where its dependencies would be, though these cannot
be built. -/
theorem depends_copied_leadDisk :
    (∃ f ∈ (sampleTree leadDisk libConfig).files,
      f.virtualPath.append dependsSuffix = ⟨"lib/foo/foo__a.ml.depends"⟩) ∧
    Tree.scan leadDisk ⟨"/p"⟩ libConfig = .ok (sampleTree leadDisk libConfig) ∧
    leadDisk.isFile ⟨"/p/lib/foo/foo__a.ml.depends"⟩ = false ∧
    leadDisk.isFile ⟨"/p/_build/lib/foo/foo__a.ml.depends"⟩ = false ∧
    ∃ o w, Local.build (sampleProject leadDisk libConfig) ⟨"lib/foo/foo__a.ml.depends"⟩
        (newWorld leadDisk) = some (o, w) ∧
      (!o.isOk && w.disk.isFile ⟨"/p/_build/lib/foo/foo__a.ml.depends"⟩) = true := by
  refine ⟨by decide +kernel, scan_sampleTree (by decide +kernel), by decide +kernel, by decide +kernel,
    exists_of_run (c := fun o w => !o.isOk && w.disk.isFile ⟨"/p/_build/lib/foo/foo__a.ml.depends"⟩) ?_⟩
  decide +kernel

end Local
end FlatModules
