import FlatModules.Proofs.Build.Putting

/-!
# Build — what the rules of artifacts come to

Each rule, applied to its own artifact in a world in order, builds it as it should be or fails for
good, and then the artifact has no content (`Site.Builds`).  So does the copying of the project's
own file where no rule builds an artifact (`Doing.copySource`).
-/

namespace FlatModules

open Naming Path Tree Local

namespace Site

/-- Whether programs answer, in the build directory, by their arguments and what the file named last
holds. -/
def Answers (s : Site) (programs : Analyzer.Programs) : Prop :=
  ∀ (d : Disk) (q : Path) (bytes : ByteArray) (program : String) (front : List String),
    d.readBytes (s.buildDir / q) = .ok bytes →
      programs d s.buildDir program (front ++ [q.text]) =
        s.answer program (front ++ [q.text]) bytes

/-- The project of a site, with the programs that it may run. -/
def project (s : Site) (programs : Analyzer.Programs) : Project :=
  s.tree.project s.root s.config programs

variable {s : Site} {used : List Path} {a : Artifact} {source : Path} {components : List String}
  {base extension : String} {w w₁ w' : World LocalState} {o : Outcome}

/-- What the building of an artifact came to, but for the keeping of its outcome. -/
structure Ends (s : Site) (used : List Path) (a : Artifact) (w : World LocalState) (o : Outcome)
    (w' : World LocalState) : Prop where
  works : s.Works used (finished a.path o w')
  later : s.Later used w w'

/-- A rule that, from a world on, builds an artifact as it should be. -/
def Builds (s : Site) (used : List Path) (a : Artifact) (w : World LocalState)
    (m : Attempt LocalState Applied) : Prop :=
  ∀ result w', m.run w = some (result, w') →
    (result = .ok (.built a.path) ∧ s.Ends used a w (.ok a.path) w') ∨
      ∃ e, result = .error e ∧ e.reason? = none ∧ ∀ failure, s.Ends used a w (.error failure) w'

theorem Ends.after (h : s.Ends used a w₁ o w') (later : s.Later used w w₁) :
    s.Ends used a w o w' :=
  ⟨h.works, later.trans h.later⟩

/-- The numbers of failures and the targets that failed for good make no difference. -/
theorem Ends.of_same (h : s.Ends used a w o w₁) (disk : w'.disk = w₁.disk)
    (outcomes : w'.own.outcomes = w₁.own.outcomes)
    (inProgress : w'.own.inProgress = w₁.own.inProgress)
    (attached : w'.own.attached = w₁.own.attached) : s.Ends used a w o w' := by
  have same : (finished a.path o w').own.outcomes = (finished a.path o w₁).own.outcomes := by
    simp only [finished, outcomes]
  refine ⟨⟨disk ▸ h.works.tended, fun b hb o' e => ?_, fun b hb e => ?_, fun b hb e => ?_⟩,
    fun b hb o' e => outcomes ▸ h.later.kept b hb o' e, inProgress.trans h.later.inProgress⟩
  · rw [same] at e ⊢
    have came := h.works.came b hb o' e
    simp only [finished] at came ⊢
    rwa [disk, attached]
  · rw [same]
    refine h.works.busy b hb ?_
    simpa only [finished, inProgress] using e
  · have untagged := h.works.untagged b hb (same ▸ e)
    simpa only [finished, attached] using untagged

theorem Ends.hardened (h : s.Ends used a w o w') (target : Path) :
    s.Ends used a w o (hardened target w') :=
  h.of_same rfl rfl rfl rfl

/-- What a rule does first may build other artifacts. -/
theorem Builds.bind {α : Type} {m : Attempt LocalState α} {f : α → Attempt LocalState Applied}
    {x : α} (step : m.run w = some (.ok x, w₁)) (later : s.Later used w w₁)
    (h : s.Builds used a w₁ (f x)) : s.Builds used a w (m >>= f) := by
  intro result w' run
  rw [Attempt.bind_of_ok step] at run
  rcases h result w' run with ⟨built, ends⟩ | ⟨e, failed, final, ends⟩
  · exact .inl ⟨built, ends.after later⟩
  · exact .inr ⟨e, failed, final, fun failure => (ends failure).after later⟩

theorem Builds.some_bind {α : Type} {x : α} {e : RuleError} {f : α → Attempt LocalState Applied}
    (h : s.Builds used a w (f x)) : s.Builds used a w (orThrow (some x) e >>= f) :=
  .bind (Attempt.orThrow_some_run x e) (.refl _ _ _) h

end Site

/-! ### Asking for artifacts -/

namespace Local

variable {s : Site} {used L : List Path} {p : Project} {build : Path → Step Outcome}
  {targets : List Path} {w w' : World LocalState}

/-- A step that builds an artifact as it should be, while the given targets are being built. -/
def Comes (s : Site) (used L : List Path) (a : Artifact) (m : Step Outcome) : Prop :=
  ∀ w o w', s.Works used w → w.own.inProgress = L → m w = some (o, w') →
    s.Works used w' ∧ s.Later used w w' ∧ lookupPath? a.path w'.own.outcomes = some o

/-- Whether targets are artifacts that can be asked for. -/
def Askable (s : Site) (used L : List Path) (build : Path → Step Outcome) (targets : List Path) :
    Prop :=
  ∀ q ∈ targets, ∃ a, s.tree.HasIn used a ∧ a.path = q ∧ Comes s used L a (build q)

theorem Comes.quiet {a : Artifact} {m : Step Outcome} (h : Comes s used L a m) :
    Quiet s used L m := by
  intro w o w' works progress run
  obtain ⟨works', later, -⟩ := h w o w' works progress run
  exact ⟨works', later⟩

/-- What the outcomes of artifacts are that were asked for together. -/
structure Asked (s : Site) (used : List Path) (targets : List Path) (w : World LocalState)
    (outcomes : List Outcome) (w' : World LocalState) : Prop where
  works : s.Works used w'
  later : s.Later used w w'
  length : outcomes.length = targets.length
  outcome : ∀ a, s.tree.HasIn used a → a.path ∈ targets →
    ∃ o ∈ outcomes, lookupPath? a.path w'.own.outcomes = some o
  artifact : ∀ o ∈ outcomes, ∃ a, s.tree.HasIn used a ∧ a.path ∈ targets ∧
    lookupPath? a.path w'.own.outcomes = some o

/-- Artifacts that are asked for together are built one after the other. -/
theorem build_askable (prepared : s.Prepared used) (h : Askable s used L build targets)
    (works : s.Works used w) (progress : w.own.inProgress = L) {outcomes : List Outcome}
    (run : (engineOf p build).build (targets.map ([·])) w = some (outcomes, w')) :
    Asked s used targets w outcomes w' := by
  change List.mapM (firstBuilt build) (targets.map ([·])) w = _ at run
  induction targets generalizing w outcomes with
  | nil =>
    obtain ⟨rfl, rfl⟩ := Prod.mk.inj (Option.some.inj run)
    exact ⟨works, .refl _ _ _, rfl, by simp, by simp⟩
  | cons q targets ih =>
    rw [List.map_cons, List.mapM_cons] at run
    obtain ⟨o, w₁, first, run⟩ := Work.bind_eq_some.1 run
    obtain ⟨os, w₂, rest, run⟩ := Work.bind_eq_some.1 run
    obtain ⟨rfl, rfl⟩ := Prod.mk.inj (Option.some.inj run)
    obtain ⟨a, ha, rfl, comes⟩ := h q List.mem_cons_self
    obtain ⟨works₁, later₁, known⟩ := comes w o w₁ works progress first
    have asked := ih (fun r hr => h r (List.mem_cons_of_mem _ hr)) works₁
      (later₁.inProgress.trans progress) rest
    have known := asked.later.kept a ha o known
    refine ⟨asked.works, later₁.trans asked.later, by simp [asked.length], fun b hb mem => ?_,
      fun o' mem => ?_⟩
    · rcases List.mem_cons.1 mem with same | mem
      · obtain rfl := hb.eq_of_names prepared.shaped prepared.apart_used ha
          (congrArg Path.names same)
        exact ⟨o, List.mem_cons_self, known⟩
      · obtain ⟨o', mem, known⟩ := asked.outcome b hb mem
        exact ⟨o', List.mem_cons_of_mem _ mem, known⟩
    · rcases List.mem_cons.1 mem with rfl | mem
      · exact ⟨a, ha, List.mem_cons_self, known⟩
      · obtain ⟨b, hb, path, known⟩ := asked.artifact o' mem
        exact ⟨b, hb, List.mem_cons_of_mem _ path, known⟩

/-- What the asking of a rule for artifacts comes to: all are there, or one has no content. -/
theorem requireAll_askable (prepared : s.Prepared used) (h : Askable s used L build targets)
    (works : s.Works used w) (progress : w.own.inProgress = L) {result : Except RuleError Unit}
    (run : ((contextOf p build).requireAll targets).run w = some (result, w')) :
    s.Works used w' ∧ s.Later used w w' ∧
      ((result = .ok () ∧ ∀ a, s.tree.HasIn used a → a.path ∈ targets →
          ∃ path, lookupPath? a.path w'.own.outcomes = some (.ok path)) ∨
        (∃ e, result = .error e ∧ e.reason? = none) ∧
          ∃ a, s.tree.HasIn used a ∧ a.path ∈ targets ∧ s.Tells a none) := by
  obtain ⟨outcomes, asked, ⟨passed, rfl⟩ | ⟨q, f, failed, rfl⟩⟩ := Context.exists_of_requireAll run
  · have all := build_askable prepared h works progress asked
    refine ⟨all.works, all.later, .inl ⟨rfl, fun a ha mem => ?_⟩⟩
    obtain ⟨o, mem, known⟩ := all.outcome a ha mem
    rw [← List.map_snd_zip all.length.le, List.mem_map] at mem
    obtain ⟨x, mem, rfl⟩ := mem
    obtain ⟨built, ok⟩ := firstFailure?_eq_none passed x mem
    exact ⟨built, ok ▸ known⟩
  · have all := build_askable prepared h works progress asked
    have mem := (List.of_mem_zip (mem_of_firstFailure? failed)).2
    obtain ⟨a, ha, path, known⟩ := all.artifact _ mem
    exact ⟨all.works, all.later, .inr ⟨⟨_, rfl, rfl⟩, a, ha, path, all.works.came a ha _ known⟩⟩

end Local

namespace Site

variable {s : Site} {used : List Path} {a : Artifact} {source : Path} {components : List String}
  {base extension : String} {w w₁ w' : World LocalState} {o : Outcome}

variable {programs : Analyzer.Programs} {build : Path → Step Outcome}

/-- The tags that the engine gives an artifact that was built. -/
theorem Stands.tags_run {path : Path}
    (h : s.Stands w.disk w.own.outcomes w.own.attached a path) :
    ((engineOf (s.project programs) build).tags a.path) w = some (s.tagsOf a, w) :=
  congrArg (fun tags => some (tags, w)) h.tags

/-- What the analyzer tells of a file that can be read in the build directory. -/
theorem Answers.analyze_eq (answers : s.Answers programs) {q : Path} {bytes : ByteArray}
    (read : w.disk.readBytes (s.buildDir / q) = .ok bytes) (tags : Tags) :
    (Analyzer.analyze programs s.config.analyzer w.disk s.buildDir q tags).2 =
      s.analysis q tags bytes := by
  have asked : programs w.disk s.buildDir s.config.analyzer.program
      (Analyzer.arguments s.config.analyzer q tags) =
      s.answer s.config.analyzer.program (Analyzer.arguments s.config.analyzer q tags) bytes :=
    answers w.disk q bytes _ _ read
  simp only [analysis, Analyzer.analyze, Analyzer.start, asked]

theorem analyze_run (programs : Analyzer.Programs) (build : Path → Step Outcome) (q : Path)
    (tags : Tags) :
    ∃ runs, ((contextOf (s.project programs) build).analyze q tags).run w =
      some ((Analyzer.analyze programs s.config.analyzer w.disk s.buildDir q tags).2.mapError
        .analyzer, { w with runs := runs }) := by
  refine ⟨w.runs ++ (Analyzer.analyze programs s.config.analyzer w.disk s.buildDir q tags).1.toList,
    ?_⟩
  rw [Context.analyze, Attempt.bind_of_ok Attempt.disk_run]
  generalize ran : Analyzer.analyze programs s.config.analyzer w.disk s.buildDir q tags = x
  obtain ⟨arguments, result⟩ := x
  have ran : Analyzer.analyze (contextOf (s.project programs) build).programs
    (contextOf (s.project programs) build).config.analyzer w.disk
    (contextOf (s.project programs) build).engine.buildDir q tags = (arguments, result) := ran
  simp only [ran]
  have note : (liftM (Work.noteRun arguments : Step Unit) : Attempt LocalState Unit).run w =
      some (.ok (), { w with runs := w.runs ++ arguments.toList }) := by
    rw [Attempt.lift_run]
    rfl
  rw [Attempt.bind_of_ok note]
  cases result <;> rfl

namespace Doing

variable (h : s.Doing used w a source components base extension)

include h

theorem later (works : s.Works used w₁) (later : s.Later used w w₁) :
    s.Doing used w₁ a source components base extension :=
  { h with works := works, busy := later.inProgress ▸ h.busy }

/-- An artifact without content may fail at any time. -/
theorem ends_error (none_ : s.Tells a none) (failure : Failure) :
    s.Ends used a w (.error failure) w :=
  ⟨h.works.finish h.prepared h.hasIn h.busy rfl rfl rfl (fun _ _ _ => rfl) none_, .refl _ _ _⟩

/-- An artifact that is no link is built once it holds what it should. -/
theorem ends_ok (plain : ∀ f, a ≠ .virtual f) {d' : Disk}
    (works : s.Works used { w with disk := d' }) {bytes : ByteArray}
    (content : s.Tells a (some bytes)) (holds : s.Holds d' a.path bytes) :
    s.Ends used a w (.ok a.path) { w with disk := d' } := by
  refine ⟨works.finish h.prepared h.hasIn h.busy rfl rfl rfl (fun _ _ _ => rfl) ?_,
    fun _ _ _ e => e, rfl⟩
  have new := h.works.untagged a h.hasIn (h.works.busy a h.hasIn h.busy)
  refine ⟨rfl, ⟨bytes, content, holds⟩, ?_, fun f e => absurd e (plain f),
    fun f e => absurd e (plain f)⟩
  have tags : s.tagsOf a = s.configured a.path := by
    cases a with
    | virtual f => exact absurd rfl (plain f)
    | original | stamp | root | aliases | depends => rfl
  rw [attachedTags, new, tags]
  rfl

/-- A rule that writes what an artifact is to hold builds it as it should be. -/
theorem builds_of_saved (plain : ∀ f, a ≠ .virtual f) {bytes : ByteArray}
    (content : s.Tells a (s.placed a.path (some bytes))) {step : DiskM Unit}
    (saved : ∀ r d', step.run.run w.disk = (r, d') → s.Works used { w with disk := d' } ∧
      ((r = .ok () ∧ s.Usable a.path ∧ s.Holds d' a.path bytes) ∨
        (∃ e, r = .error e) ∧ ¬ s.Usable a.path)) (path : Path) :
    s.Builds used a w (do
      Attempt.onDisk path step
      return .built a.path) := by
  intro result w' run
  cases done : step.run.run w.disk with
  | mk r d' =>
    obtain ⟨works, ⟨rfl, usable, holds⟩ | ⟨⟨e, rfl⟩, unusable⟩⟩ := saved r d' done
    · rw [Attempt.bind_of_ok (Attempt.onDisk_run_ok done path)] at run
      obtain ⟨rfl, rfl⟩ := Prod.mk.inj (Option.some.inj run)
      exact .inl ⟨rfl, h.ends_ok plain works (content.trans (if_pos usable)) holds⟩
    · rw [Attempt.bind_of_error (Attempt.onDisk_run_error done path)] at run
      obtain ⟨rfl, rfl⟩ := Prod.mk.inj (Option.some.inj run)
      exact .inr ⟨_, rfl, rfl, fun failure =>
        ⟨works.finish h.prepared h.hasIn h.busy rfl rfl rfl (fun _ _ _ => rfl)
          (content.trans (if_neg unusable)), fun _ _ _ e => e, rfl⟩⟩

theorem builds_writeOutput (plain : ∀ f, a ≠ .virtual f) {content : String}
    (e : s.Tells a (s.placed a.path (some content.toUTF8))) :
    s.Builds used a w ((contextOf (s.project programs) build).writeOutput a.path content) :=
  h.builds_of_saved plain e (fun _ _ run => h.written plain run) _

/-- Where no rule builds an artifact, the project's own file is what it is. -/
theorem copySource (plain : ∀ f, a ≠ .virtual f) (content : s.Tells a (s.copied a.path))
    (run : copySource (s.project programs) a.path w = some (o, w')) :
    (o = .ok a.path ∧ s.Ends used a w (.ok a.path) w') ∨
      (∃ failure, o = .error failure) ∧ ∀ failure, s.Ends used a w (.error failure) w' := by
  have read {bytes : ByteArray} : w.disk.readBytes (s.root / a.path) = .ok bytes ↔
      s.disk.readBytes (s.root / a.path) = .ok bytes :=
    h.prepared.readBytes_iff h.has h.mem h.sits h.works.tended
  -- a failure to copy leaves the artifact without content
  have ends {d' : Disk} (works : s.Works used { w with disk := d' }) (none_ : s.Tells a none)
      (failure : Failure) : s.Ends used a w (.error failure) { w with disk := d' } :=
    ⟨works.finish h.prepared h.hasIn h.busy rfl rfl rfl (fun _ _ _ => rfl) none_,
      fun _ _ _ e => e, rfl⟩
  obtain ⟨w₁, same, run₁, run⟩ := Work.bind_eq_some.1 run
  obtain ⟨rfl, rfl⟩ := Prod.mk.inj (Option.some.inj run₁)
  by_cases file : w.disk.isFile (s.root / a.path) = true
  · obtain ⟨bytes, there⟩ := Disk.isFile_iff.1 file
    have content' : s.Tells a (s.placed a.path (some bytes)) := by
      refine content.trans ?_
      rw [Site.copied, read.1 there]
      rfl
    have file : w.disk.isFile ((s.project programs).root / a.path) = true := file
    simp only [file, ↓reduceIte] at run
    cases done : (do
        DiskM.makeParents (s.buildDir / a.path)
        DiskM.copy (s.root / a.path) (s.buildDir / a.path) : DiskM Unit).run.run w.disk with
    | mk r d' =>
      have step : (Work.onDisk (do
          DiskM.makeParents ((s.project programs).buildDir / a.path)
          DiskM.copy ((s.project programs).root / a.path)
            ((s.project programs).buildDir / a.path)) : Step _) w =
          some (r, { w with disk := d' }) := by
        have done : (do
            DiskM.makeParents ((s.project programs).buildDir / a.path)
            DiskM.copy ((s.project programs).root / a.path)
              ((s.project programs).buildDir / a.path) : DiskM Unit).run.run w.disk = (r, d') := done
        rw [Work.onDisk_run, done]
      rw [Work.bind_of_eq_some step] at run
      obtain ⟨works, ⟨rfl, usable, holds⟩ | ⟨⟨e, rfl⟩, unusable⟩⟩ :=
        h.copied plain (read.1 there) done
      · obtain ⟨rfl, rfl⟩ := Prod.mk.inj (Option.some.inj run)
        exact .inl ⟨rfl, h.ends_ok plain works (content'.trans (if_pos usable)) holds⟩
      · obtain ⟨rfl, rfl⟩ := Prod.mk.inj (Option.some.inj run)
        exact .inr ⟨⟨_, rfl⟩, fun failure =>
          (ends works (content'.trans (if_neg unusable)) failure).hardened a.path⟩
  · have missing : s.Tells a none := by
      cases there : s.disk.readBytes (s.root / a.path) with
      | ok bytes => exact absurd (Disk.isFile_iff.2 ⟨bytes, read.2 there⟩) file
      | error e =>
        refine content.trans ?_
        rw [Site.copied, there]
        exact ite_self _
    have file : ¬ w.disk.isFile ((s.project programs).root / a.path) = true := file
    simp only [file, Bool.false_eq_true, ↓reduceIte] at run
    obtain ⟨rfl, rfl⟩ := Prod.mk.inj (Option.some.inj run)
    exact .inr ⟨⟨_, rfl⟩, fun failure => (h.ends_error missing failure).of_same rfl rfl rfl rfl⟩

/-! ### The rules -/

/-- A rule that asks for artifacts first: without one of them it builds nothing. -/
theorem builds_require {targets : List Path}
    (askable : Askable s used w.own.inProgress build targets)
    (missing : ∀ b, s.tree.HasIn used b → b.path ∈ targets → s.Tells b none →
      s.Tells a none) {f : Unit → Attempt LocalState Applied}
    (there : ∀ w₁, s.Doing used w₁ a source components base extension →
      (∀ b, s.tree.HasIn used b → b.path ∈ targets →
        ∃ path, lookupPath? b.path w₁.own.outcomes = some (.ok path)) →
      s.Builds used a w₁ (f ())) :
    s.Builds used a w ((contextOf (s.project programs) build).requireAll targets >>= f) := by
  intro result w' run
  rcases Attempt.bind_eq_some.1 run with ⟨x, w₁, asked, run'⟩ | ⟨e, w₁, asked, same⟩
  · obtain ⟨works, later, ⟨-, all⟩ | ⟨⟨e, e', -⟩, -⟩⟩ := requireAll_askable h.prepared askable h.works rfl asked
    case inr => simp at e'
    exact Builds.bind asked later (there w₁ (h.later works later) all) result w' run
  · obtain ⟨rfl, rfl⟩ := Prod.mk.inj same
    obtain ⟨works, later, ⟨e', -⟩ | ⟨⟨e', failed, final⟩, b, hb, path, none_⟩⟩ :=
      requireAll_askable h.prepared askable h.works rfl asked
    case inl => simp at e'
    obtain rfl := Except.error.inj failed
    have none_ := missing b hb path none_
    exact .inr ⟨_, rfl, final, fun failure =>
      ((h.later works later).ends_error none_ failure).after later⟩

/-- A world in which an artifact has got the tags of its original. -/
def tagged (s : Site) (f : NamespacedFile) (w : World LocalState) (d : Disk) : World LocalState :=
  { w with
    disk := d
    own := { w.own with
      attached := attachTags f.virtualPath (s.tagsOf (.original f)) w.own.attached } }

/-- A source file under its flat name ends as a link with the tags of its original. -/
theorem ends_link {f : NamespacedFile} (e : a = .virtual f) {stem : String}
    (lies : f.LiesIn source components stem) {path : Path}
    (known : lookupPath? f.realPath w.own.outcomes = some (.ok path)) {r : Except DiskError Unit}
    {d' : Disk}
    (done : (DiskM.replaceLink ⟨stem ++ "." ++ f.kind.extension⟩ (s.buildDir / a.path)).run.run
      w.disk = (r, d')) :
    (r = .ok () ∧ s.Ends used a w (.ok a.path) (tagged s f w d')) ∨
      (∃ e, r = .error e) ∧
        ∀ failure, s.Ends used a w (.error failure) (tagged s f w d') := by
  subst e
  have original : s.tree.HasIn used (.original f) := h.hasIn.original
  have stands : s.Stands _ _ _ (.original f) path := h.works.came _ original _ known
  obtain ⟨bytes, real, holds⟩ := stands.held
  have content : s.Tells (.virtual f) (s.placed f.virtualPath (some bytes)) := by
    refine .of_eq ?_
    rw [← real.eq (by simp)]
    rfl
  have new := h.works.untagged _ h.hasIn (h.works.busy _ h.hasIn h.busy)
  have finish {d' : Disk} {o : Outcome} (works : s.Works used { w with disk := d' })
      (came : s.Came d' w.own.outcomes (tagged s f w d').own.attached (.virtual f) o) :
      s.Ends used (.virtual f) w o (tagged s f w d') := by
    refine ⟨works.finish h.prepared h.hasIn h.busy rfl rfl rfl (fun b hb ne => ?_) came,
      fun _ _ _ e => e, rfl⟩
    refine lookupPath?_attachTags_of_ne ?_ _ _
    rw [Bool.eq_false_iff]
    exact fun same => ne ((h.prepared.same_iff h.hasIn hb).1 same).symm
  obtain ⟨works, ⟨rfl, usable, seen, link⟩ | ⟨failed, unusable⟩⟩ := h.replaced rfl lies holds done
  · refine .inl ⟨rfl, finish works ⟨rfl, ⟨bytes, content.trans (if_pos usable), seen⟩, ?_, ?_, ?_⟩⟩
    · have tags : lookupPath? f.virtualPath (tagged s f w d').own.attached =
          some (s.tagsOf (.original f)) := lookupPath?_attachTags_of_new new _
      rw [attachedTags, Artifact.path, tags]
      rfl
    · rintro _ ⟨⟩
      exact ⟨_, lies.made.fileName?_eq, link⟩
    · rintro _ ⟨⟩
      exact ⟨path, known⟩
  · exact .inr ⟨failed, fun failure => finish works (content.trans (if_neg unusable))⟩

/-- The rule for source files, once the original can be asked for. -/
theorem builds_linkSource {f : NamespacedFile} (e : a = .virtual f)
    (askable : Askable s used w.own.inProgress build [f.realPath]) :
    s.Builds used a w ((contextOf (s.project programs) build).linkSource f.kind a.path) := by
  subst e
  have original : s.tree.HasIn used (.original f) := h.hasIn.original
  obtain ⟨stem, lies⟩ : ∃ stem, f.LiesIn source components stem := by
    cases h.sits with
    | virtual lies => exact ⟨_, lies⟩
  have file : (contextOf (s.project programs) build).metadata.fileOfKind? f.kind f.virtualPath =
      some f := h.prepared.shaped.fileOfKind?_virtualPath h.has
  rw [Context.linkSource, Artifact.path, file]
  refine Builds.some_bind (h.builds_require askable (fun b hb path none_ => ?_) fun w₁ h₁ all => ?_)
  · obtain rfl : b = .original f := hb.eq_of_names h.prepared.shaped h.prepared.apart_used original
      (congrArg Path.names (List.mem_singleton.1 path))
    refine .of_eq ?_
    change s.placed f.virtualPath (s.content? (.original f)) = none
    rw [none_.eq (by simp)]
    exact ite_self _
  obtain ⟨path, known⟩ := all (.original f) original (by simp [Artifact.path])
  have stands : s.Stands _ _ _ (.original f) path := h₁.works.came _ original _ known
  have tags : (liftM ((engineOf (s.project programs) build).tags f.realPath) :
      Attempt LocalState Tags).run w₁ = some (.ok (s.tagsOf (.original f)), w₁) := by
    rw [Attempt.lift_run]
    exact congrArg (Option.map _) stands.tags_run
  have attach : (liftM ((engineOf (s.project programs) build).attach f.virtualPath
      (s.tagsOf (.original f))) : Attempt LocalState Unit).run w₁ =
      some (.ok (), tagged s f w₁ w₁.disk) := by
    rw [Attempt.lift_run]
    rfl
  intro result w' run
  have run := (Attempt.bind_of_ok tags).symm.trans run
  have run := (Attempt.bind_of_ok attach).symm.trans run
  rw [lies.made.fileName?_eq, Attempt.bind_of_ok (Attempt.orThrow_some_run _ _)] at run
  cases done : (DiskM.replaceLink ⟨stem ++ "." ++ f.kind.extension⟩
      (s.buildDir / f.virtualPath)).run.run w₁.disk with
  | mk r d' =>
    rcases h₁.ends_link rfl lies known done with ⟨rfl, ends⟩ | ⟨⟨e, rfl⟩, ends⟩
    · have step := Attempt.onDisk_run_ok (w := tagged s f w₁ w₁.disk) done
        (s.buildDir / f.virtualPath)
      have run := (Attempt.bind_of_ok step).symm.trans run
      obtain ⟨rfl, rfl⟩ := Prod.mk.inj (Option.some.inj run)
      exact .inl ⟨rfl, ends⟩
    · have step := Attempt.onDisk_run_error (w := tagged s f w₁ w₁.disk) done
        (s.buildDir / f.virtualPath)
      have run := (Attempt.bind_of_error step).symm.trans run
      obtain ⟨rfl, rfl⟩ := Prod.mk.inj (Option.some.inj run)
      exact .inr ⟨_, rfl, rfl, ends⟩

theorem namespaceOf_run {ns : Namespace} (hn : ns ∈ s.tree.namespaces) (r : Rule) :
    ((contextOf (s.project programs) build).namespaceOf r (ns.target r)).run w =
      some (.ok ns, w) := by
  obtain ⟨source, -, lies⟩ := h.prepared.shaped.below ns hn
  have root : (contextOf (s.project programs) build).metadata.namespaceOfRoot? ⟨ns.rootPath.text⟩ =
      some ns := h.prepared.shaped.namespaceOfRoot?_rootPath hn
  rw [Context.namespaceOf, lies.stem?_target, Attempt.bind_of_ok (Attempt.orThrow_some_run _ _), root]
  rfl

/-- The rule for alias modules. -/
theorem builds_writeAliases {ns : Namespace} (e : a = .aliases ns) :
    s.Builds used a w ((contextOf (s.project programs) build).writeAliases a.path) := by
  subst e
  rw [Context.writeAliases]
  exact Builds.bind (h.namespaceOf_run h.has .aliases) (.refl _ _ _)
    (h.builds_writeOutput (by simp) (.of_eq rfl))

/-- What is read of the files that a digest covers once they are there. -/
theorem digestFiles_eq {ns : Namespace} (hn : s.tree.HasIn used (.stamp ns))
    (there : ∀ b, s.tree.HasIn used b → b.path ∈ s.tree.closure ns →
      ∃ path, lookupPath? b.path w.own.outcomes = some (.ok path)) :
    (∀ q ∈ s.tree.closure ns, (s.memberOf s.digest? q).isSome) ∧
      Digest.digestFiles w.disk s.buildDir (s.tree.closure ns) = .ok (Digest.digestOf
        ((s.tree.closure ns).map fun q => (q, (s.memberOf s.digest? q).getD ByteArray.empty))) := by
  have each (q : Path) (hq : q ∈ s.tree.closure ns) : ∃ bytes,
      s.memberOf s.digest? q = some bytes ∧ w.disk.readBytes (s.buildDir / q) = .ok bytes := by
    obtain ⟨b, hb, rfl, -, member⟩ :=
      h.prepared.tidy.exists_member h.prepared.apart h.prepared.sub hn hq
    obtain ⟨path, known⟩ := there b hb hq
    have stands : s.Stands _ _ _ b path := h.works.came b hb _ known
    obtain ⟨bytes, content, holds⟩ := stands.held
    obtain ⟨-, source, hs, components, base, extension, sits⟩ := hb
    have plain : ∀ c, b ≠ .depends c := by
      rintro c rfl
      simp at member
    refine ⟨bytes, (memberOf_digest? h.prepared.tidy h.prepared.apart member).trans
      (content.eq plain), ?_⟩
    exact holds.readBytes h.works.tended h.prepared.clean
      (target_of_lies h.prepared.apart_used hs (h.prepared.direct source hs) sits.lies)
  refine ⟨fun q hq => ?_, Digest.digestFiles_eq fun q hq => ?_⟩
  · obtain ⟨bytes, content, -⟩ := each q hq
    simp [content]
  · obtain ⟨bytes, content, read⟩ := each q hq
    rw [read, content]
    rfl

/-- The rule for digests, once all that the digest covers can be asked for. -/
theorem builds_writeStamp {ns : Namespace} (e : a = .stamp ns)
    (askable : Askable s used w.own.inProgress build (s.tree.closure ns)) :
    s.Builds used a w ((contextOf (s.project programs) build).writeStamp a.path) := by
  subst e
  rw [Context.writeStamp]
  refine Builds.bind (h.namespaceOf_run h.has .stamp) (.refl _ _ _) ?_
  have content : s.content? (.stamp ns) = (s.digestOf s.digest? ns).map fun digest =>
      (digest ++ "\n").toUTF8 := by
    rw [← digest?_eq h.prepared.tidy h.prepared.apart h.has]
    rfl
  refine h.builds_require askable (fun b hb path none_ => ?_) fun w₁ h₁ all => ?_
  · obtain ⟨b', hb', same, -, member⟩ :=
      h.prepared.tidy.exists_member h.prepared.apart h.prepared.sub h.hasIn path
    obtain rfl := hb'.eq_of_names h.prepared.shaped h.prepared.apart_used hb
      (congrArg Path.names same)
    have missing := memberOf_digest? h.prepared.tidy h.prepared.apart member
    have none_ : s.content? b' = none := none_.eq (by rintro c rfl; simp at member)
    refine .of_eq ?_
    rw [content, digestOf, if_neg]
    · rfl
    · intro both
      have there := both.2 _ path
      simp [missing, none_] at there
  · obtain ⟨some_, digest⟩ := h₁.digestFiles_eq h.hasIn all
    refine Builds.bind Attempt.disk_run (.refl _ _ _) ?_
    have digest : Digest.digestFiles w₁.disk (contextOf (s.project programs) build).engine.buildDir
      ((contextOf (s.project programs) build).metadata.closure ns) = _ := digest
    simp only [digest]
    refine h₁.builds_writeOutput (by simp) (.of_eq ?_)
    by_cases usable : s.Usable (ns.target .stamp)
    · rw [content, digestOf, if_pos ⟨usable, some_⟩, placed, Artifact.path, if_pos usable]
      rfl
    · rw [content, digestOf, if_neg fun both => usable both.1, placed, Artifact.path, if_neg usable]
      rfl

/-- The rule for root modules, once the digest is there. -/
theorem builds_writeRoot {ns : Namespace} (e : a = .root ns) {path : Path}
    (known : lookupPath? (ns.target .stamp) w.own.outcomes = some (.ok path)) :
    s.Builds used a w ((contextOf (s.project programs) build).writeRoot a.path) := by
  subst e
  obtain ⟨source', -, lies⟩ := h.prepared.shaped.below ns h.has
  have stamp : s.tree.HasIn used (.stamp ns) := by
    cases h.sits with
    | root lies => exact ⟨h.has, source, h.mem, _, _, _, .stamp lies⟩
  have stands : s.Stands _ _ _ (.stamp ns) path := h.works.came _ stamp _ known
  obtain ⟨bytes, content, holds⟩ := stands.held
  obtain ⟨digest, some_, rfl⟩ := Option.map_eq_some_iff.1 (content.eq (by simp))
  have plain : trimmed (digest ++ "\n") = digest := by
    rw [digest?_eq h.prepared.tidy h.prepared.apart h.has, digestOf] at some_
    split at some_
    · exact Option.some.inj some_ ▸ trimmed_hash _
    · simp at some_
  have text : w.disk.readText (s.buildDir / ns.target .stamp) = .ok (digest ++ "\n") := by
    obtain ⟨-, source, hs, components, base, extension, sits⟩ := stamp
    have read := holds.readBytes h.works.tended h.prepared.clean
      (target_of_lies h.prepared.apart_used hs (h.prepared.direct source hs) sits.lies)
    have decoded : Text.ofUtf8? (digest ++ "\n").toUTF8 = some (digest ++ "\n") :=
      dif_pos (digest ++ "\n").isValidUTF8
    rw [Disk.readText, show w.disk.readBytes (s.buildDir / ns.target .stamp) = _ from read]
    simp only [bind, Except.bind, decoded]
    rfl
  have named : Path.withExtension ⟨ns.rootPath.text⟩ Rule.stampExtension = ns.target .stamp :=
    lies.rootPath_withExtension (by decide) (by decide)
  rw [Context.writeRoot, Artifact.path, lies.stem?_target]
  refine Builds.some_bind (Builds.bind (h.namespaceOf_run h.has .root) (.refl _ _ _) ?_)
  refine Builds.bind Attempt.disk_run (.refl _ _ _) ?_
  have text : w.disk.readText ((contextOf (s.project programs) build).outputPath
      (Path.withExtension ⟨ns.rootPath.text⟩ Rule.stampExtension)) = .ok (digest ++ "\n") := by
    rw [named]
    exact text
  simp only [text, plain]
  refine h.builds_writeOutput (by simp) (.of_eq ?_)
  change s.rootOf ns (s.digest? ns) = _
  rw [some_]
  rfl

/-- A rule that asks the analyzer about a file that is there. -/
theorem builds_analyze (answers : s.answered → s.Answers programs) {b : Artifact}
    (e : a = .depends b)
    {path : Path} (known : lookupPath? b.path w.own.outcomes = some (.ok path))
    {f : RawLine → Attempt LocalState Applied}
    (told : ∀ w₁ raw, s.Doing used w₁ a source components base extension → w₁.disk = w.disk →
      s.Tells a (s.placed a.path (some (s.dependsText b raw).toUTF8)) →
      s.Builds used a w₁ (f raw)) :
    s.Builds used a w (do
      let tags ← liftM ((contextOf (s.project programs) build).engine.tags b.path)
      let raw ← (contextOf (s.project programs) build).analyze b.path tags
      f raw) := by
  subst e
  have hb : s.tree.HasIn used b := by
    cases h.sits with
    | depends sits => exact ⟨h.has, source, h.mem, _, _, _, sits⟩
  have stands : s.Stands _ _ _ b path := h.works.came _ hb _ known
  obtain ⟨bytes, content, holds⟩ := stands.held
  have read : w.disk.readBytes (s.buildDir / b.path) = .ok bytes := by
    obtain ⟨-, source, hs, components, base, extension, sits⟩ := hb
    exact holds.readBytes h.works.tended h.prepared.clean
      (target_of_lies h.prepared.apart_used hs (h.prepared.direct source hs) sits.lies)
  have depends : s.Tells (.depends b) (s.placed (Artifact.depends b).path
      ((Analyzer.analyze programs s.config.analyzer w.disk s.buildDir b.path
        (s.tagsOf b)).2.toOption.map fun raw => (s.dependsText b raw).toUTF8)) := by
    intro told
    have answered := told ⟨b, rfl⟩
    rw [content?, content fun _ => answered, (answers answered).analyze_eq read]
  have tags : (liftM ((engineOf (s.project programs) build).tags b.path) :
      Attempt LocalState Tags).run w = some (.ok (s.tagsOf b), w) := by
    rw [Attempt.lift_run]
    exact congrArg (Option.map _) stands.tags_run
  obtain ⟨runs, analyzed⟩ := analyze_run (w := w) programs build b.path (s.tagsOf b)
  have works : s.Works used { w with runs := runs } :=
    ⟨h.works.tended, h.works.came, h.works.busy, h.works.untagged⟩
  have later : s.Later used w { w with runs := runs } := ⟨fun _ _ _ e => e, rfl⟩
  refine Builds.bind tags (.refl _ _ _) ?_
  cases result : (Analyzer.analyze programs s.config.analyzer w.disk s.buildDir b.path
    (s.tagsOf b)).2 with
  | ok raw =>
    rw [result] at analyzed depends
    exact Builds.bind analyzed later (told _ raw (h.later works later) rfl depends)
  | error e =>
    rw [result] at analyzed depends
    intro x w' run
    rw [Attempt.bind_of_error analyzed] at run
    obtain ⟨rfl, rfl⟩ := Prod.mk.inj (Option.some.inj run)
    exact .inr ⟨_, rfl, rfl, fun failure =>
      ((h.later works later).ends_error (depends.trans (ite_self _)) failure).after later⟩

/-- The rule for resolved dependencies, once the source file is there under its flat name. -/
theorem builds_writeDepends (answers : s.answered → s.Answers programs) {f : NamespacedFile}
    (e : a = .depends (.virtual f)) {path : Path}
    (known : lookupPath? f.virtualPath w.own.outcomes = some (.ok path)) :
    s.Builds used a w ((contextOf (s.project programs) build).writeDepends (.depends f.kind) f.kind
      a.path) := by
  subst e
  obtain ⟨components', stem, made⟩ := h.prepared.shaped.made f h.has
  have file : (contextOf (s.project programs) build).metadata.fileOfKind? f.kind f.virtualPath =
      some f := h.prepared.shaped.fileOfKind?_virtualPath h.has
  rw [Context.writeDepends, Artifact.path, Artifact.path, made.stem?_depends,
    Path.dropSuffix?_append]
  refine Builds.some_bind (Builds.some_bind ?_)
  rw [file]
  exact Builds.some_bind (h.builds_analyze answers rfl known fun w₁ raw h₁ _ content =>
    h₁.builds_writeOutput (by simp) content)

/-- The rule for plain dependencies, once the file is there. -/
theorem builds_writePlainDepends (answers : s.answered → s.Answers programs) {b : Artifact}
    (e : a = .depends b) (plain : ∀ f, b ≠ .virtual f) {path : Path}
    (known : lookupPath? b.path w.own.outcomes = some (.ok path)) :
    s.Builds used a w ((contextOf (s.project programs) build).writePlainDepends a.path) := by
  subst e
  -- the directory is there, as the file is
  have dirs : w.disk.Dirs (Place.trail [] (s.buildDir.names ++ (source.names ++ components))) := by
    cases h.sits with
    | depends sits =>
      have stands : s.Stands _ _ _ b path :=
        h.works.came b ⟨h.has, source, h.mem, _, _, _, sits⟩ _ known
      obtain ⟨bytes, -, holds⟩ := stands.held
      exact holds.dirs_trail h.works.tended
        (target_of_lies h.prepared.apart_used h.mem h.direct sits.lies)
  rw [Context.writePlainDepends, Artifact.path, Path.dropSuffix?_append]
  refine Builds.some_bind (h.builds_analyze answers rfl known fun w₁ raw h₁ disk content => ?_)
  have text : s.dependsText b raw = printLine b.path raw.dependencies ++ "\n" := by
    cases b with
    | virtual f => exact absurd rfl (plain f)
    | original | stamp | root | aliases | depends => rfl
  rw [text] at content
  exact h₁.builds_of_saved (by simp) content
    (fun _ _ run => h₁.written_of_dirs (by simp) (disk ▸ dirs) run) _

end Doing
end Site
end FlatModules
