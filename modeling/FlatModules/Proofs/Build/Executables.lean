import FlatModules.Proofs.Build.Spellings
import FlatModules.Proofs.Tree.Visits

/-!
# Build — executables and their libraries

The rules for executables attach to their target the libraries of its entry in the settings, and leave it
to others: applied to any executables in any order, they change nothing but the tags of these
(`applyToEach_run`).  An engine tries the rule of an executable before all others, and nothing that is
tried after it takes tags away (`hasLibraries_of_tryRules`); so a target that has an outcome has the tags
too (`Tagged`), whatever the engine was used for (`Serving`), unless the outcome is that of a spelling of
the target to which no rule applies (`executables_untagged_smallDisk`).
-/

namespace FlatModules

open FlatModules.Path

/-- An executable, by its stem and its format. -/
structure Executable where
  stem : String
  format : ExecutableFormat
  named : stem ≠ ""

namespace Executable

variable (e : Executable)

/-- The path of the executable. -/
def path : Path := (⟨e.stem⟩ : Path).append ("." ++ e.format.extension)

/-- The rule that is tried for the executable. -/
def rule : Rule := .executableTags e.format

/-- The path that entries of the settings are compared with, which is the stem if this ends in a name.
After a slash the extension is a file name of its own, and stays; and a dot gets another one, which
makes a `..` of it. -/
def entry : Path :=
  match (⟨e.stem⟩ : Path).segments.getLast? with
  | some [] => e.path
  | some ['.'] => (⟨e.stem⟩ : Path).append "."
  | _ => ⟨e.stem⟩

theorem text_path : e.path.text = e.stem ++ e.rule.ending := by
  cases h : e.format <;> simp [path, rule, append, Rule.ending, h]

theorem stem?_path : e.rule.product.stem? e.path = some e.stem :=
  Pattern.stem?_ending_eq_some_iff.2 ⟨e.text_path, e.named⟩

theorem extension_spec : e.format.extension ≠ "" ∧ '.' ∉ e.format.extension.toList ∧
    '/' ∉ e.format.extension.toList := by
  cases e.format <;> decide

/-- Without its extension, the path of an executable is the path of its entry. -/
theorem parts_withoutExtension : (e.path.withExtension "").parts = e.entry.parts := by
  obtain ⟨some_, noDot, noSlash⟩ := e.extension_spec
  obtain ⟨a, x, h⟩ := (⟨e.stem⟩ : Path).exists_spelled
  obtain ⟨front, segments⟩ := h.segments_eq
  have last : (⟨e.stem⟩ : Path).segments.getLast? = some x.toList := by
    rw [segments, List.getLast?_concat]
  unfold entry
  rw [last]
  by_cases empty : x = ""
  · subst empty
    exact parts_withExtension_append_of_empty some_ noDot noSlash h
  by_cases here : x = "."
  · subst here
    exact congrArg parts (withExtension_append_of_here some_ noDot noSlash h)
  · have proper : ¬ Idle x := not_or.2 ⟨empty, here⟩
    rw [path, parts_withExtension_append some_ noDot noSlash h proper]
    split
    case h_1 nil => exact absurd (String.toList_eq_nil_iff.1 (Option.some.inj nil)) empty
    case h_2 dot => exact absurd (String.toList_inj.1 (Option.some.inj dot : _ = ".".toList)) here
    case h_3 => rfl

end Executable

/-- The libraries of the first entry for a path, however spelled. -/
def Config.librariesOf (config : Config) (path : Path) : List String :=
  ((config.executables.find? (·.target.same path)).map (·.libraries)).getD []

theorem Tree.executableLibraries_path {t : Tree} {config : Config}
    (same : t.executables = config.executables) (e : Executable) :
    t.executableLibraries e.path = config.librariesOf e.entry := by
  have alike := same_congr (same_iff.2 e.parts_withoutExtension)
  simp only [executableLibraries, Config.librariesOf, same, alike]
  cases config.executables.find? (·.target.same e.entry) <;> rfl

/-- Applies its rule to each of the executables, in order. -/
def Context.applyToEach {σ : Type} (c : Context σ) (es : List Executable) :
    Work σ (List (Except RuleError Applied)) :=
  es.mapM fun e => (e.rule.apply c e.path).run

namespace Local

variable {p : Project} {build : Path → Step Outcome} {q path : Path} {w w₁ w' : World LocalState}
  {libraries : List String} {tag : String}

/-! ### What the rules for executables do -/

/-- Whether worlds are the same but for the tags that are attached. -/
def Retagged (w w' : World LocalState) : Prop :=
  ∃ attached, w' = { w with own := { w.own with attached } }

theorem Retagged.refl (w : World LocalState) : Retagged w w := ⟨w.own.attached, rfl⟩

theorem Retagged.trans (h : Retagged w w₁) (h' : Retagged w₁ w') : Retagged w w' := by
  obtain ⟨_, rfl⟩ := h
  obtain ⟨attached, rfl⟩ := h'
  exact ⟨attached, rfl⟩

/-- A world in which libraries, if there are any, are attached to a target. -/
def linkedWith (q : Path) (libraries : List String) (w : World LocalState) : World LocalState :=
  if libraries = [] then w
  else { w with own := { w.own with
    attached := attachTags q (Tags.ofList libraries) w.own.attached } }

theorem retagged_linkedWith (q : Path) (libraries : List String) (w : World LocalState) :
    Retagged w (linkedWith q libraries w) := by
  unfold linkedWith
  split
  · exact .refl w
  · exact ⟨_, rfl⟩

theorem mem_attachedTags_linkedWith :
    tag ∈ (attachedTags path (linkedWith q libraries w).own.attached).names ↔
      tag ∈ (attachedTags path w.own.attached).names ∨ q.same path = true ∧ tag ∈ libraries := by
  unfold linkedWith
  split
  case isTrue none_ => simp [none_]
  case isFalse =>
    have listed : tag ∈ (Tags.ofList libraries).names ↔ tag ∈ libraries := by
      simp [Tags.ofList, Tags.mem_addAll, Tags.none]
    rw [← listed]
    exact mem_attachedTags_attachTags

theorem mem_tagsIn : tag ∈ (tagsIn p w path).names ↔
    tag ∈ (p.config.tags.lookup path.text).getD [] ∨ tag ∈ (attachedTags path w.own.attached).names := by
  rw [tagsIn, Tags.union, Tags.mem_addAll, Tags.ofList, Tags.mem_addAll]
  simp [Tags.none]

theorem apply_rule_run (p : Project) (build : Path → Step Outcome) (e : Executable)
    (w : World LocalState) :
    (e.rule.apply (contextOf p build) e.path).run w =
      some (.ok (.inapplicable "executable libraries tagged"),
        linkedWith e.path (p.metadata.executableLibraries e.path) w) := by
  change ((contextOf p build).tagExecutable e.path).run w = _
  unfold linkedWith Context.tagExecutable
  by_cases none_ : p.metadata.executableLibraries e.path = []
  · have none' : (contextOf p build).metadata.executableLibraries e.path = [] := none_
    simp only [none_, none', ne_eq, not_true_eq_false, ↓reduceIte]
    rfl
  · have some_ : (contextOf p build).metadata.executableLibraries e.path ≠ [] := none_
    simp only [none_, some_, ne_eq, not_false_eq_true, ↓reduceIte]
    rfl

/-- Applied to any executables in turn, the rules never apply, attach the libraries of each executable
to it, and change nothing else. -/
theorem applyToEach_run (p : Project) (build : Path → Step Outcome) (es : List Executable)
    (w : World LocalState) :
    ∃ w', (contextOf p build).applyToEach es w =
        some (es.map fun _ => .ok (.inapplicable "executable libraries tagged"), w') ∧ Retagged w w' ∧
      ∀ path tag, tag ∈ (attachedTags path w'.own.attached).names ↔
        tag ∈ (attachedTags path w.own.attached).names ∨
          ∃ e ∈ es, e.path.same path = true ∧ tag ∈ p.metadata.executableLibraries e.path := by
  induction es generalizing w with
  | nil => exact ⟨w, rfl, .refl w, by simp⟩
  | cons e es ih =>
    have head := apply_rule_run p build e w
    obtain ⟨w', run, only, tags⟩ := ih (linkedWith e.path (p.metadata.executableLibraries e.path) w)
    refine ⟨w', ?_, (retagged_linkedWith _ _ w).trans only, fun path tag => ?_⟩
    · rw [Context.applyToEach, List.mapM_cons, Work.bind_of_eq_some head]
      exact (Work.bind_of_eq_some run).trans rfl
    · rw [tags, mem_attachedTags_linkedWith]
      simp [or_assoc]

/-! ### What the building of an executable leaves -/

/-- The rule of an executable is the first of those that apply to it. -/
theorem exists_matched_eq (e : Executable) :
    ∃ rest, rules.filter (fun r => (r.product.stem? e.path).isSome) = e.rule :: rest := by
  have own : (e.rule.product.stem? e.path).isSome = true := by rw [e.stem?_path]; rfl
  cases format : e.format with
  | byte =>
    rw [Executable.rule, format] at own
    rw [Executable.rule, format]
    exact ⟨_, List.filter_cons_of_pos own⟩
  | native =>
    have byte : ((Rule.executableTags .byte).product.stem? e.path).isSome = false := by
      rw [Option.isSome_eq_false_iff, Option.isNone_iff_eq_none, Option.eq_none_iff_forall_ne_some]
      intro stem matched
      have text := (Pattern.stem?_ending_eq_some_iff.1 matched).1
      rw [e.text_path, Executable.rule, format] at text
      have ends := congrArg (fun s : String => s.toList.reverse.take 2) text
      simp [Rule.ending, ExecutableFormat.extension] at ends
    rw [Executable.rule, format] at own
    rw [Executable.rule, format]
    exact ⟨_, (List.filter_cons_of_neg (by simp [byte])).trans (List.filter_cons_of_pos own)⟩

/-- Whether the libraries of an executable are attached to it. -/
def HasLibraries (p : Project) (e : Executable) (w : World LocalState) : Prop :=
  ∀ tag ∈ p.metadata.executableLibraries e.path, tag ∈ (attachedTags e.path w.own.attached).names

/-- However the building of an executable goes on after its rule, the libraries stay attached. -/
theorem hasLibraries_of_tryRules (e : Executable) {n : Nat} {o : Outcome}
    (run : tryRules p (engineOf p (buildWithin p n)) e.path rules none w = some (o, w')) :
    HasLibraries p e w' := by
  intro tag mem
  obtain ⟨rest, matched⟩ := exists_matched_eq e
  rw [tryRules_matched, matched] at run
  obtain ⟨result, w₁, tried, next⟩ := tryRules_cons e.stem?_path run
  cases tried with
  | skipped asked failed =>
    obtain ⟨rfl, -⟩ := Prod.mk.inj (Option.some.inj asked)
    simp [firstError?] at failed
  | built asked ready apply =>
    rw [apply_rule_run] at apply
    cases (Prod.mk.inj (Option.some.inj apply)).1
  | failed asked ready apply =>
    rw [apply_rule_run] at apply
    cases (Prod.mk.inj (Option.some.inj apply)).1
  | left asked ready apply because signal =>
    rw [apply_rule_run] at apply
    obtain ⟨rfl, rfl⟩ := Prod.mk.inj (Option.some.inj apply)
    obtain ⟨-, blocked, run⟩ := next.resolve_left (by simp)
    have later : Course p (fun _ => True) w₁ w' :=
      follows_tryRules (closed_true p) trivial
        (fun q _ => buildWithin_follows (closed_true p) n q trivial) rest blocked _ _ _ run
    have kept := (Calls.nestedSignal signal).grown.trans later.grown
    exact kept.attached _ _ (mem_attachedTags_linkedWith.2 (.inr ⟨same_self _, mem⟩))

/-- Whether each outcome that is kept for an executable, as it is spelled, came after its libraries were
attached. -/
def Tagged (p : Project) (w : World LocalState) : Prop :=
  ∀ x ∈ w.own.outcomes, ∀ e : Executable, x.1 = e.path → HasLibraries p e w

namespace Tagged

theorem mono (h : Tagged p w) (outcomes : w'.own.outcomes = w.own.outcomes) (grown : Grown w w') :
    Tagged p w' :=
  fun x hx e same tag mem => grown.attached _ _ (h x (outcomes ▸ hx) e same tag mem)

/-- Builds keep to it, whatever targets they are of. -/
theorem course {T : Path → Prop} (h : Tagged p w) (course : Course p T w w') : Tagged p w' := by
  induction course with
  | refl w => exact h
  | trans _ _ ih ih' => exact ih' (ih h)
  | fail w => exact h.mono rfl (.failure w)
  | act _ acts =>
    refine h.mono ?_ (.of_acts acts)
    cases acts <;> rfl
  | once _ new idle run _ ih =>
    intro x hx e same
    rcases List.mem_cons.1 hx with rfl | hx
    · obtain rfl := same
      have attached := hasLibraries_of_tryRules e run
      exact attached
    · exact ih h x hx e same

/-- An outcome that is kept under a spelling of an executable to which its rule applies will do. -/
theorem of_known (h : Tagged p w) (byParts : p.metadata.ByParts) (e : Executable) {o : Outcome}
    (known : lookupPath? e.path w.own.outcomes = some o)
    (spelled : ∀ x ∈ w.own.outcomes, x.1.same e.path = true → ∃ last, x.1.EndsIn last) :
    HasLibraries p e w := by
  obtain ⟨x, mem, same⟩ := mem_of_lookupPath? known
  obtain ⟨last, ends⟩ := spelled _ mem same
  obtain ⟨last', ends'⟩ := exists_endsIn e.stem?_path
  have beside : e.path.Beside x := .of_endsIn (same_iff.1 same).symm ends' ends
  have text : e.path.text = e.stem ++ ("." ++ e.format.extension) := rfl
  obtain ⟨stem, text', stems⟩ := beside.cut (by cases e.format <;> decide) text
  have named : stem ≠ "" := fun nil => e.named (stems.text_eq_empty_iff.2 nil)
  have spelling : x = (⟨stem, e.format, named⟩ : Executable).path := congrArg Path.mk text'
  intro tag mem'
  have tagged := h _ mem ⟨stem, e.format, named⟩ spelling
  rw [HasLibraries, ← spelling] at tagged
  rw [attachedTags, ← lookupPath?_congr same]
  exact tagged tag (byParts.executables beside ends' ▸ mem')

end Tagged

/-- What an engine can come to that is used in any way: targets are asked for, rules applied and tags
attached, and the disk is changed in between. -/
inductive Serving (p : Project) : World LocalState → Prop
  | start {w : World LocalState} (new : w.own = {}) : Serving p w
  | call {w w' : World LocalState} (hw : Serving p w) (call : Calls p w w') : Serving p w'
  | apply {w w' : World LocalState} (hw : Serving p w) {r : Rule} {q : Path}
      {result : Except RuleError Applied}
      (run : (r.apply (contextOf p (Local.build p)) q).run w = some (result, w')) : Serving p w'
  | tag {w : World LocalState} (hw : Serving p w) (q : Path) (tags : Tags) :
      Serving p { w with own := { w.own with attached := attachTags q tags w.own.attached } }
  | change {w : World LocalState} (hw : Serving p w) (d : Disk) : Serving p { w with disk := d }

/-- Nothing is being built between uses, and libraries are attached to what was built. -/
theorem Serving.inProgress_tagged (hw : Serving p w) : w.own.inProgress = [] ∧ Tagged p w := by
  have courses {w w' : World LocalState} (course : Course p (fun _ => True) w w')
      (h : w.own.inProgress = [] ∧ Tagged p w) : w'.own.inProgress = [] ∧ Tagged p w' :=
    ⟨course.grown.inProgress.trans h.1, h.2.course course⟩
  induction hw with
  | start new => simp [new, Tagged]
  | call _ call ih => exact courses call.course ih
  | apply _ run ih =>
    have follows := follows_apply (closed_true p) trivial
      (fun q _ => buildWithin_follows (closed_true p) (depth p q) q trivial) _ _ _ _ run
    exact courses follows ih
  | tag _ q tags ih => exact courses (.act trivial (.attach tags _)) ih
  | change _ d ih => exact ih

/-- The building of an executable comes to an outcome, takes no tags away and leaves the libraries
attached, unless it stops at an outcome that is kept under a spelling without a name at its end. -/
theorem exists_build_attached (supplied : p.metadata.Supplied) (byParts : p.metadata.ByParts)
    (hw : Serving p w) (e : Executable)
    (spelled : ∀ x ∈ w.own.outcomes, x.1.same e.path = true → ∃ last, x.1.EndsIn last) :
    ∃ o w', Local.build p e.path w = some (o, w') ∧ Grown w w' ∧ HasLibraries p e w' := by
  obtain ⟨inProgress, tagged⟩ := hw.inProgress_tagged
  obtain ⟨o, w', run, -⟩ := exists_build_eq_some supplied.reaches e.path w
  refine ⟨o, w', run, (Calls.target run).grown, ?_⟩
  cases known : lookupPath? e.path w.own.outcomes with
  | some o' =>
    rw [build_of_known known (same_self _)] at run
    obtain ⟨rfl, rfl⟩ := Prod.mk.inj (Option.some.inj run)
    exact tagged.of_known byParts e known spelled
  | none =>
    obtain ⟨n, depth_eq⟩ : ∃ n, depth p e.path = n + 1 := Nat.exists_eq_add_one.2 (by simp [depth])
    rw [Local.build, depth_eq, buildWithin, once_of_new known (by simp [inProgress, listsPath])] at run
    obtain ⟨⟨o', w₁⟩, tried, same⟩ := Option.map_eq_some_iff.1 run
    obtain ⟨rfl, rfl⟩ := Prod.mk.inj same
    have attached := hasLibraries_of_tryRules e tried
    exact attached

/-- Applied to any executables in any order, the rules for executables never apply and change no more
than tags: what is attached to each executable is its libraries, those of the first entry for it in the
settings.  In whatever state an engine is, the building of an executable comes to an outcome, of
whatever kind, and leaves the libraries attached, unless an outcome is kept under a spelling of its path
that does not end in a name. -/
theorem executables_tagged {d : Disk} {root : Path} {config : Config} {t : Tree}
    (accepted : Tree.scan d root config = .ok t) (programs : Analyzer.Programs) :
    let p := t.project root config programs
    (∀ build es w, ∃ w', (contextOf p build).applyToEach es w =
        some (es.map fun _ => .ok (.inapplicable "executable libraries tagged"), w') ∧ Retagged w w' ∧
      ∀ path tag, tag ∈ (tagsIn p w' path).names ↔ tag ∈ (tagsIn p w path).names ∨
        ∃ e ∈ es, e.path.same path = true ∧ tag ∈ config.librariesOf e.entry) ∧
    ∀ w, Serving p w → ∀ e : Executable,
      (∀ x ∈ w.own.outcomes, x.1.same e.path = true → ∃ last, x.1.EndsIn last) →
      ∃ o w', Local.build p e.path w = some (o, w') ∧
        (∀ tag ∈ config.librariesOf e.entry, tag ∈ (attachedTags e.path w'.own.attached).names) ∧
        ∀ path, ∀ tag ∈ (tagsIn p w path).names, tag ∈ (tagsIn p w' path).names := by
  intro p
  have libraries (e : Executable) : p.metadata.executableLibraries e.path = config.librariesOf e.entry :=
    Tree.executableLibraries_path (Tree.executables_of_scan accepted) e
  refine ⟨fun build es w => ?_, fun w hw e spelled => ?_⟩
  · obtain ⟨w', run, only, tags⟩ := applyToEach_run p build es w
    refine ⟨w', run, only, fun path tag => ?_⟩
    simp only [mem_tagsIn, tags, libraries, or_assoc]
  · obtain ⟨o, w', run, grown, attached⟩ :=
      exists_build_attached (.tree t) t.metadata_byParts hw e spelled
    refine ⟨o, w', run, libraries e ▸ attached, fun path tag mem => ?_⟩
    rw [mem_tagsIn] at mem ⊢
    exact mem.imp_right (grown.attached path tag)

/-- Settings that name executables. -/
def linkConfig (executables : List ExecutableConfig) : Config := { libConfig with executables }

/-- The executable `bin/main` of a format. -/
def mainOf (format : ExecutableFormat) : Executable := ⟨"bin/main", format, by decide⟩

set_option maxRecDepth 100000 in
/-- An executable with two libraries, its rules applied in turn, and the executable built twice. -/
theorem executables_tagged_smallDisk :
    let config := linkConfig [⟨⟨"bin/main"⟩, ["foo", "str"]⟩]
    let p := sampleProject smallDisk config
    Tree.scan smallDisk ⟨"/p"⟩ config = .ok (sampleTree smallDisk config) ∧
      (∃ answers w', (contextOf p (Local.build p)).applyToEach
          [mainOf .byte, mainOf .native, mainOf .byte] (newWorld smallDisk) = some (answers, w') ∧
        "str" ∈ (tagsIn p w' ⟨"bin//main.native"⟩).names) ∧
      ∃ o w, Local.build p ⟨"bin//main.byte"⟩ (newWorld smallDisk) = some (o, w) ∧
        ∃ o' w', Local.build p (mainOf .byte).path w = some (o', w') ∧
          "str" ∈ (attachedTags (mainOf .byte).path w'.own.attached).names := by
  intro config p
  have accepted := scan_sampleTree (d := smallDisk) (c := config) (by decide +kernel)
  obtain ⟨applied, built⟩ := executables_tagged accepted fun _ _ _ _ => .error .notFound
  refine ⟨accepted, ?_, ?_⟩
  · obtain ⟨w', run, -, tags⟩ :=
      applied (Local.build p) [mainOf .byte, mainOf .native, mainOf .byte] (newWorld smallDisk)
    exact ⟨_, w', run, (tags _ _).2 (.inr ⟨mainOf .native, by simp, by decide +kernel, by decide +kernel⟩)⟩
  · obtain ⟨o, w, run, kept⟩ : ∃ o w, Local.build p ⟨"bin//main.byte"⟩ (newWorld smallDisk) = some (o, w) ∧
        (w.own.outcomes.all fun x => !x.1.same (mainOf .byte).path || x.1 == ⟨"bin//main.byte"⟩) = true :=
      exists_of_run (by decide +kernel)
    have serving : Serving p w := .call (.start (w := newWorld smallDisk) rfl) (.target run)
    obtain ⟨o', w', again, attached, -⟩ := built w serving (mainOf .byte) fun x hx same => by
      have spelling : x.1 = ⟨"bin//main.byte"⟩ := by simpa [same] using List.all_eq_true.1 kept x hx
      exact ⟨"main.byte", [['b', 'i', 'n'], []], by rw [spelling]; decide, by decide, by decide⟩
    exact ⟨o, w, run, o', w', again, attached _ (by decide +kernel)⟩

set_option maxRecDepth 100000 in
/-- The rule leaves libraries out that are named by a second entry for the same path, and those of an
entry for the directory if the file name is no more than the extension; and none are attached if the
executable was first asked for with a slash after its name. -/
theorem executables_untagged_smallDisk :
    (let p := sampleProject smallDisk (linkConfig [⟨⟨"bin/main"⟩, ["foo"]⟩, ⟨⟨"bin//main"⟩, ["bar"]⟩])
      ∃ w', ((mainOf .byte).rule.apply (contextOf p (Local.build p)) (mainOf .byte).path).run
          (newWorld smallDisk) = some (.ok (.inapplicable "executable libraries tagged"), w') ∧
        (tagsIn p w' (mainOf .byte).path).names = ["foo"] ∧ Path.same ⟨"bin//main"⟩ ⟨"bin/main"⟩ = true) ∧
    (let p := sampleProject smallDisk (linkConfig [⟨⟨"bin"⟩, ["foo"]⟩])
      let e : Executable := ⟨"bin/", .byte, by decide⟩
      ∃ w', (e.rule.apply (contextOf p (Local.build p)) e.path).run (newWorld smallDisk) =
          some (.ok (.inapplicable "executable libraries tagged"), w') ∧
        (tagsIn p w' e.path).names = [] ∧ Path.same ⟨"bin"⟩ ⟨"bin/"⟩ = true) ∧
    (let p := sampleProject smallDisk (linkConfig [⟨⟨"bin/main"⟩, ["foo"]⟩])
      ∃ o w, Local.build p ⟨"bin/main.byte/"⟩ (newWorld smallDisk) = some (o, w) ∧
        ∃ o' w', Local.build p (mainOf .byte).path w = some (o', w') ∧
          (attachedTags (mainOf .byte).path w'.own.attached).names = []) := by
  refine ⟨⟨_, apply_rule_run _ _ _ _, by decide +kernel, by decide +kernel⟩,
    ⟨_, apply_rule_run _ _ _ _, by decide +kernel, by decide +kernel⟩, ?_⟩
  intro p
  obtain ⟨o, w, run, twice⟩ : ∃ o w, Local.build p ⟨"bin/main.byte/"⟩ (newWorld smallDisk) = some (o, w) ∧
      ((Local.build p (mainOf .byte).path w).any fun x =>
        (attachedTags (mainOf .byte).path x.2.own.attached).names.isEmpty) = true :=
    exists_of_run (by decide +kernel)
  obtain ⟨o', w', again, none_⟩ :=
    exists_of_run (c := fun _ w => (attachedTags (mainOf .byte).path w.own.attached).names.isEmpty) twice
  exact ⟨o, w, run, o', w', again, List.isEmpty_iff.1 none_⟩

end Local
end FlatModules
