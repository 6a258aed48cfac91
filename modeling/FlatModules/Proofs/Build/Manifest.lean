import FlatModules.Proofs.Build.Analysis
import FlatModules.Proofs.Build.Making
import FlatModules.Proofs.BuildLog.Order
import FlatModules.Proofs.Tree.Library

/-!
# Build — manifests of libraries

The build of a library's manifest, from the dependencies of its members to the order in which they
are written (`manifest_build`).  No two members of a library are of one module
(`Tree.After.nodup_modules`), so that the build log gives each its place.
-/

namespace FlatModules

open Naming Path BuildLog

namespace Local

variable {p : Project} {build : Path → Step Outcome} {q target : Path} {t : Tree}
  {sources : List Path} {ns : Namespace} {members : List String} {w w₁ w₂ w' : World LocalState}

/-! ### What a rule requires -/

/-- What a rule requires is asked for target by target; the rule goes on if each was built. -/
theorem requireAll_cases {targets : List Path} {result : Except RuleError Unit}
    (run : ((contextOf p build).requireAll targets).run w = some (result, w')) :
    ∃ outcomes, (engineOf p build).build (targets.map ([·])) w = some (outcomes, w') ∧
      (result = .ok () ∧ (∀ o ∈ outcomes, o.isOk) ∨
        ∃ r failure, .error failure ∈ outcomes ∧ result = .error (.dependencyFailed r failure)) := by
  obtain ⟨os, built, ⟨passed, rfl⟩ | ⟨r, f, failed, rfl⟩⟩ := Context.exists_of_requireAll run
  · refine ⟨os, built, .inl ⟨rfl, fun o mem => ?_⟩⟩
    have length : os.length ≤ targets.length := by
      rw [length_of_build built, List.length_map]
    rw [← List.map_snd_zip length, List.mem_map] at mem
    obtain ⟨x, mem, rfl⟩ := mem
    obtain ⟨path, ok⟩ := firstFailure?_eq_none passed x mem
    rw [ok]
    rfl
  · exact ⟨os, built, .inr ⟨r, f, (List.of_mem_zip (mem_of_firstFailure? failed)).2, rfl⟩⟩

/-! ### The manifest -/

/-- How a build of a library's manifest at `q` runs that begins in the world `w`. -/
inductive ManifestBuilt (p : Project) (q : Path) (members : List String) (w : World LocalState) :
    Outcome → World LocalState → Prop
  /-- The dependencies of a member could not be built. -/
  | unready {n outcomes failure w₁ o w'}
      (asked : (engineOf p (buildWithin p n)).build (members.map fun m => [memberDepends m])
        (entered q w) = some (outcomes, w₁))
      (failed : .error failure ∈ outcomes) (unmade : Unmade Rule.manifest.ending w o w') :
      ManifestBuilt p q members w o w'
  /-- There is no build log, or it is no text. -/
  | unread {n outcomes w₁ e o w'}
      (asked : (engineOf p (buildWithin p n)).build (members.map fun m => [memberDepends m])
        (entered q w) = some (outcomes, w₁))
      (ready : ∀ o ∈ outcomes, o.isOk)
      (log : w₁.disk.readText (p.buildDir / p.config.buildLog) = .error e)
      (unmade : Unmade Rule.manifest.ending w o w') : ManifestBuilt p q members w o w'
  /-- The manifest could not be written. -/
  | unwritten {n outcomes w₁ text order e o w'}
      (asked : (engineOf p (buildWithin p n)).build (members.map fun m => [memberDepends m])
        (entered q w) = some (outcomes, w₁))
      (ready : ∀ o ∈ outcomes, o.isOk)
      (log : w₁.disk.readText (p.buildDir / p.config.buildLog) = .ok text)
      (arranged : Arranged p.config.compilers text members order)
      (write : ((saving p q ("\n".intercalate order)).run.run w₁.disk).1 = .error e)
      (unmade : Unmade Rule.manifest.ending w o w') : ManifestBuilt p q members w o w'
  /-- The members were written in the order of the log. -/
  | written {n outcomes w₁ text order w'}
      (asked : (engineOf p (buildWithin p n)).build (members.map fun m => [memberDepends m])
        (entered q w) = some (outcomes, w₁))
      (ready : ∀ o ∈ outcomes, o.isOk)
      (log : w₁.disk.readText (p.buildDir / p.config.buildLog) = .ok text)
      (arranged : Arranged p.config.compilers text members order)
      (write : ((saving p q ("\n".intercalate order)).run.run w₁.disk).1 = .ok ())
      (content : w'.disk.readBytes (p.buildDir / q) = .ok ("\n".intercalate order).toUTF8) :
      ManifestBuilt p q members w (.ok q) w'

theorem writeManifest_run (h : t.Shaped sources) (hm : p.metadata = t.metadata)
    (hn : ns ∈ t.namespaces) (library : t.libraryMembers? ns = some members) :
    ((contextOf p build).writeManifest (ns.target .manifest)).run w =
      ((contextOf p build).requireAll (members.map memberDepends) >>= fun _ => do
        match compileOrder (← Attempt.disk) p.config.compilers (p.buildDir / p.config.buildLog) with
        | .ok order => (contextOf p build).writeOutput (ns.target .manifest) (manifest members order)
        | .error e => throw (.log e)).run w := by
  obtain ⟨source, -, lies⟩ := h.below ns hn
  have root : (contextOf p build).metadata.namespaceOfRoot? ⟨ns.rootPath.text⟩ = some ns := by
    change p.metadata.namespaceOfRoot? ns.rootPath = some ns
    rw [hm]
    exact h.namespaceOfRoot?_rootPath hn
  have library : (contextOf p build).metadata.libraryMembers? ns = some members := by
    change p.metadata.libraryMembers? ns = some members
    rw [hm]
    exact library
  rw [Context.writeManifest, lies.stem?_target, Attempt.bind_of_ok (Attempt.orThrow_some_run _ _), root,
    Attempt.bind_of_ok (Attempt.orThrow_some_run _ _), library,
    Attempt.bind_of_ok (Attempt.orThrow_some_run _ _)]
  rfl

/-- Reading the order of a log fails exactly if the log cannot be read. -/
theorem compileOrder_cases (d : Disk) (compilers : List String) (path : Path) :
    (∃ e e', d.readText path = .error e ∧ compileOrder d compilers path = .error e') ∨
      ∃ text, d.readText path = .ok text ∧ compileOrder d compilers path = .ok (scan compilers text) := by
  unfold compileOrder
  cases d.readText path with
  | ok text => exact .inr ⟨text, rfl, rfl⟩
  | error e =>
    left
    cases e <;> exact ⟨_, _, rfl, rfl⟩

/-- The manifest of a library, on an engine that has not built it: it is built exactly if the
dependencies of all members are, the build log is a text then and the manifest can be written.  It has
each member once, in the order of the log.  A build that fails leaves all manifests as they were, if no
link leads to one. -/
theorem manifest_build {d : Disk} {root : Path} {config : Config} {programs : Analyzer.Programs}
    (sound : d.Sound) (ok : Tree.scan d root config = .ok t) (hn : ns ∈ t.namespaces)
    (declared : t.isLibrary ns = true) (idle : w.own.inProgress = [])
    (guarded : w.disk.Guarded (HasEnding Rule.manifest.ending))
    (new : lookupPath? (ns.target .manifest) w.own.outcomes = none) :
    ∃ members o w', t.libraryMembers? ns = some members ∧ members.Nodup ∧
      Local.build (t.project root config programs) (ns.target .manifest) w = some (o, w') ∧
      ManifestBuilt (t.project root config programs) (ns.target .manifest) members w o w' := by
  set p := t.project root config programs
  set q := ns.target .manifest
  have after := Tree.After.scan sound ok
  have h := after.shaped
  have it := Tree.itinerary_visits sound root config.sourceDirs
  obtain ⟨s, hs, rfl⟩ := List.mem_map.1 hn
  have library : t.libraryMembers? s.ns = some (t.collect t.scopes.length s) := by
    rw [Tree.libraryMembers?, if_pos declared, h.scopeAt?_eq hs rfl, Option.map_some]
  have modules := after.nodup_modules it (Tree.leavesNamed_of_scan sound ok) t.scopes.length hs
  set members := t.collect t.scopes.length s
  obtain ⟨source, -, lies⟩ := h.below s.ns hn
  have matched : Rule.manifest.product.stem? q = some s.ns.rootPath.text := lies.stem?_target _
  obtain ⟨o, w', run, -⟩ := exists_build_eq_some (p := p) t.metadata_reaches q w
  refine ⟨members, o, w', library, List.Nodup.of_map _ modules, run, ?_⟩
  obtain ⟨n, depth_eq⟩ : ∃ n, depth p q = n + 1 := by
    have : 2 * 4 ≤ depth p q := Nat.mul_le_mul (Nat.le_add_left _ _) (Nat.le_add_left _ _)
    exact ⟨depth p q - 1, by omega⟩
  rw [Local.build, depth_eq, buildWithin, once_of_new new (by simp [idle, listsPath])] at run
  obtain ⟨⟨o', w₄⟩, tries, same⟩ := Option.map_eq_some_iff.1 run
  obtain ⟨rfl, rfl⟩ := Prod.mk.inj same
  rw [tryRules_rules rules_filter_b (getLast?_eq_of_stem? matched (by decide))] at tries
  obtain ⟨result, w₃, tried, next⟩ := tryRules_cons matched tries
  -- what the rule comes to, whatever the build makes of it
  have applied {outcomes w₁ w₂ result} (asked : (engineOf p (buildWithin p n)).build
      (Rule.manifest.dependencies.map fun d => [d.fill s.ns.rootPath.text]) (entered q w) =
        some (outcomes, w₁))
      (apply : (Rule.manifest.apply (contextOf p (buildWithin p n)) q).run w₁ = some (result, w₂))
      {o : Outcome} {w' : World LocalState} (built : ∀ path, result = .ok (.built path) → o = .ok path)
      (failed : ∀ e, result = .error e → ∃ failure, o = .error failure) (disk : w'.disk = w₂.disk) :
      ManifestBuilt p q members w o w' := by
    obtain ⟨-, rfl⟩ := build_nil_eq_some asked
    rw [Rule.apply, writeManifest_run h rfl hn library] at apply
    have required {result w₂} (run : ((contextOf p (buildWithin p n)).requireAll
        (members.map memberDepends)).run (entered q w) = some (result, w₂)) :
        w.disk.Spared (HasEnding Rule.manifest.ending) w₂.disk := by
      have closed : Closed p (Path.Named dependsEndings) := closed_dependsEndings sound ok
      have course : Course p (Path.Named dependsEndings) (entered q w) w₂ := by
        refine follows_requireAll (fun r hr => ?_) _ _ _ run
        obtain ⟨m, -, rfl⟩ := List.mem_map.1 hr
        exact buildWithin_follows closed n _ (named_memberDepends m)
      exact Course.spared_ending (w := entered q w) ok course (List.subset_append_left _ _)
        (by decide) (by decide) guarded
    obtain ⟨⟨⟩, w₁, require, apply⟩ | ⟨e, w₁, require, same⟩ := Attempt.bind_eq_some.1 apply
    · have spared := required require
      obtain ⟨outcomes, asked, ⟨-, ready⟩ | ⟨_, _, -, no⟩⟩ := requireAll_cases require
      case inr => simp at no
      rw [List.map_map] at asked
      rw [Attempt.bind_of_ok Attempt.disk_run] at apply
      rcases compileOrder_cases w₁.disk p.config.compilers (p.buildDir / p.config.buildLog) with
        ⟨e, e', log, order⟩ | ⟨text, log, order⟩
      · simp only [order] at apply
        obtain ⟨rfl, rfl⟩ := Prod.mk.inj (Option.some.inj apply)
        exact .unread asked ready log ⟨failed _ rfl, disk ▸ spared.2⟩
      · simp only [order] at apply
        have arranged := arranged_orderMembers p.config.compilers text modules
        rw [writeOutput_run] at apply
        obtain ⟨rfl, rfl⟩ := Prod.mk.inj (Option.some.inj apply)
        rcases saving_cases spared.1.sound p q (manifest members (scan p.config.compilers text)) with
          ⟨write, content⟩ | ⟨⟨e, write⟩, unchanged⟩
        · obtain rfl := built q (by rw [write]; rfl)
          exact .written asked ready log arranged write (disk ▸ content)
        · refine .unwritten asked ready log arranged write ⟨failed _ (by rw [write]; rfl), ?_⟩
          exact disk ▸ spared.2.trans (unchanged _ spared.1).2
    · have spared := required require
      obtain ⟨rfl, rfl⟩ := Prod.mk.inj same
      obtain ⟨outcomes, asked, ⟨no, -⟩ | ⟨_, failure, mem, -⟩⟩ := requireAll_cases require
      case inl => simp at no
      rw [List.map_map] at asked
      exact .unready asked mem ⟨failed _ rfl, disk ▸ spared.2⟩
  cases tried with
  | skipped asked failed =>
    obtain ⟨rfl, -⟩ := build_nil_eq_some asked
    simp [firstError?] at failed
  | built asked _ apply =>
    obtain ⟨e, rfl⟩ := next.resolve_right (by simp)
    obtain rfl := Option.some.inj e
    exact applied asked apply (fun path e => by rw [Applied.built.inj (Except.ok.inj e)])
      (fun e same => by simp at same) rfl
  | left asked _ apply because =>
    rcases writes_apply h rfl (.manifest hn declared) _ _ _ apply with rfl | ⟨e, rfl, final⟩
    · simp [reasonOf] at because
    · simp [reasonOf, final] at because
  | failed asked _ apply =>
    obtain ⟨e, rfl⟩ := next.resolve_right (by simp)
    obtain rfl := Option.some.inj e
    exact applied asked apply (fun path e => by simp at e) (fun _ _ => ⟨_, rfl⟩) rfl

/-- Settings with one library. -/
def libraryConfig : Config := { libConfig with libraries := [⟨"lib/foo"⟩] }

/-- A project with two sources and a log that has the second one compiled. -/
def loggedDisk : Disk :=
  sampleDisk [["lib"], ["lib", "foo"], ["_build"]]
    [(["lib", "foo", "a.ml"], "let x = 1\n"), (["lib", "foo", "b.ml"], "let y = 2\n"),
      (["_build", "_log"], "ocamlc -c lib/foo/foo__b.ml\n")]

set_option maxRecDepth 100000 in
/-- The manifest of the library of a project with a build log. -/
theorem manifest_build_loggedDisk :
    let t := sampleTree loggedDisk libraryConfig
    let p := t.project ⟨"/p"⟩ libraryConfig oneModule
    ∃ ns ∈ t.namespaces, ns.target .manifest = ⟨"lib/foo.mllib"⟩ ∧
      ∃ members o w', t.libraryMembers? ns = some members ∧ members.Nodup ∧
        Local.build p (ns.target .manifest) (newWorld loggedDisk) = some (o, w') ∧
        ManifestBuilt p (ns.target .manifest) members (newWorld loggedDisk) o w' := by
  have sound : loggedDisk.Sound := by decide +kernel
  have accepted := scan_sampleTree (d := loggedDisk) (c := libraryConfig) (by decide +kernel)
  obtain ⟨ns, hn, named, declared⟩ : ∃ ns ∈ (sampleTree loggedDisk libraryConfig).namespaces,
      ns.target .manifest = ⟨"lib/foo.mllib"⟩ ∧
        (sampleTree loggedDisk libraryConfig).isLibrary ns = true := by
    decide +kernel
  exact ⟨ns, hn, named, manifest_build sound accepted hn declared rfl (by decide +kernel) rfl⟩

/-- A project without a build log, with a link in its build directory from where the aliases of the
library are written to its manifest. -/
def strayDisk : Disk :=
  ⟨(["p", "_build", "lib", "foo___aliases.ml"], .link "foo.mllib") ::
    (sampleDisk [["lib"], ["lib", "foo"], ["_build"], ["_build", "lib"]]
      [(["lib", "foo", "a.ml"], "let x = 1\n")]).entries⟩

set_option maxRecDepth 100000 in
/-- Through such a link the aliases are written to where the manifest would be, though this cannot be
built. -/
theorem manifest_overwritten_strayDisk :
    (∃ ns ∈ (sampleTree strayDisk libraryConfig).namespaces,
      (sampleTree strayDisk libraryConfig).isLibrary ns = true ∧
        ns.target .manifest = ⟨"lib/foo.mllib"⟩) ∧
    Tree.scan strayDisk ⟨"/p"⟩ libraryConfig = .ok (sampleTree strayDisk libraryConfig) ∧
    strayDisk.isFile ⟨"/p/_build/lib/foo.mllib"⟩ = false ∧
    ∃ o w, Local.build ((sampleTree strayDisk libraryConfig).project ⟨"/p"⟩ libraryConfig oneModule)
        ⟨"lib/foo.mllib"⟩ (newWorld strayDisk) = some (o, w) ∧
      (!o.isOk && w.disk.isFile ⟨"/p/_build/lib/foo.mllib"⟩) = true := by
  refine ⟨by decide +kernel, scan_sampleTree (by decide +kernel), by decide +kernel,
    exists_of_run (c := fun o w => !o.isOk && w.disk.isFile ⟨"/p/_build/lib/foo.mllib"⟩) ?_⟩
  decide +kernel

end Local
end FlatModules
