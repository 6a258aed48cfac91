import FlatModules.Build.Rule

/-!
# Build — applying rules

What each rule does for a target.
-/

namespace FlatModules

namespace Attempt

variable {σ : Type}

/-- A step on the disk that concerns `path`. -/
def onDisk {α : Type} (path : Path) (step : DiskM α) : Attempt σ α := do
  match ← (Work.onDisk step : Work σ _) with
  | .ok result => return result
  | .error e => throw (.disk path e)

/-- The disk as it is. -/
def disk : Attempt σ Disk := do
  return (← (get : Work σ _)).disk

end Attempt

/-- The first target that was not built, with its failure. -/
def firstFailure? : List (Path × Outcome) → Option (Path × Failure)
  | [] => none
  | (target, .error failure) :: _ => some (target, failure)
  | (_, .ok _) :: rest => firstFailure? rest

/-- The text that names the members of a namespace: a line for each. -/
def aliasLines (members : List Member) : String :=
  String.join (members.map fun m => "module " ++ m.name ++ " = " ++ m.target ++ "\n")

/-- The text of a namespace's root module: its name and digest in a comment, and its aliases. -/
def rootText (moduleName digest aliases : String) : String :=
  "(* namespace " ++ moduleName ++ ", digest " ++ digest ++ " *)\n" ++ aliases

/-- A text without the white space at its ends. -/
def trimmed (text : String) : String :=
  String.ofList (Text.trim text.toList)

/-- The namespace whose root path is `root`. -/
def Metadata.namespaceOfRoot? (m : Metadata) (root : Path) : Option Namespace := do
  let ns ← m.namespaceAt? (← Naming.dirOfRoot? root)
  if ns.rootPath.same root then some ns else none

/-- The source file of kind `kind` that the build sees at a path. -/
def Metadata.fileOfKind? (m : Metadata) (kind : SourceKind) (path : Path) :
    Option NamespacedFile := do
  let file ← m.fileAt? path
  if file.kind = kind then some file else none

/-- A value that must be there. -/
def orThrow {α σ : Type} (value? : Option α) (e : RuleError) : Attempt σ α :=
  match value? with
  | some value => return value
  | none => throw e

namespace Context

variable {σ : Type}

/-- Asks the engine for targets; each must be built. -/
def requireAll (c : Context σ) (targets : List Path) : Attempt σ Unit := do
  let outcomes ← c.engine.build (targets.map ([·]))
  match firstFailure? (targets.zip outcomes) with
  | some (target, failure) => throw (.dependencyFailed target failure)
  | none => return ()

/-- Writes a target. -/
def writeOutput (c : Context σ) (target : Path) (content : String) : Attempt σ Applied := do
  let path := c.outputPath target
  Attempt.onDisk path do
    DiskM.makeParents path
    DiskM.write path content.toUTF8
  return .built target

/-- Runs the analyzer in the build directory. -/
def analyze (c : Context σ) (file : Path) (tags : Tags) : Attempt σ RawLine := do
  let (run, result) :=
    Analyzer.analyze c.programs c.config.analyzer (← Attempt.disk) c.engine.buildDir file tags
  (Work.noteRun run : Work σ _)
  match result with
  | .ok line => return line
  | .error e => throw (.analyzer e)

/-- Attaches to an executable the libraries that it is linked with, and leaves building it to
others. -/
def tagExecutable (c : Context σ) (target : Path) : Attempt σ Applied := do
  let libraries := c.metadata.executableLibraries target
  if libraries ≠ [] then
    c.engine.attach target (Tags.ofList libraries)
  return .inapplicable "executable libraries tagged"

/-- Analyzes the source file behind a target and writes its dependencies, resolved. -/
def writeDepends (c : Context σ) (rule : Rule) (kind : SourceKind) (target : Path) :
    Attempt σ Applied := do
  let _ ← orThrow (rule.product.stem? target) (.notNamespacedFile target)
  let source ← orThrow (target.dropSuffix? Naming.dependsSuffix) (.notNamespacedFile target)
  let file ← orThrow (c.metadata.fileOfKind? kind source) (.notNamespacedFile source)
  let tags ← c.engine.tags file.virtualPath
  let raw ← c.analyze file.virtualPath tags
  c.writeOutput target ((raw.resolve c.metadata file).print ++ "\n")

/-- Builds the real file behind a namespaced source file, gives the target its tags and makes it a
link to the name of that file. -/
def linkSource (c : Context σ) (kind : SourceKind) (target : Path) : Attempt σ Applied := do
  let file ← orThrow (c.metadata.fileOfKind? kind target) (.notNamespacedFile target)
  c.requireAll [file.realPath]
  let tags ← c.engine.tags file.realPath
  c.engine.attach target tags
  let name ← orThrow file.realPath.fileName? (.notNamespacedFile target)
  let link := c.outputPath target
  Attempt.onDisk link (DiskM.replaceLink ⟨name⟩ link)
  return .built target

/-- The namespace that a rule's target belongs to. -/
def namespaceOf (c : Context σ) (rule : Rule) (target : Path) : Attempt σ Namespace := do
  let root ← orThrow (rule.product.stem? target) (.notANamespace target)
  orThrow (c.metadata.namespaceOfRoot? ⟨root⟩) (.notANamespace ⟨root⟩)

/-- Builds all that a namespace consists of and writes its digest. -/
def writeStamp (c : Context σ) (target : Path) : Attempt σ Applied := do
  let ns ← c.namespaceOf .stamp target
  let closure := c.metadata.closure ns
  c.requireAll closure
  match Digest.digestFiles (← Attempt.disk) c.engine.buildDir closure with
  | .ok digest => c.writeOutput target (digest ++ "\n")
  | .error e => throw (.digest e)

/-- Writes the aliases of a namespace. -/
def writeAliases (c : Context σ) (target : Path) : Attempt σ Applied := do
  let ns ← c.namespaceOf .aliases target
  c.writeOutput target (aliasLines (c.metadata.members ns))

/-- Writes the root module of a namespace from its stamp. -/
def writeRoot (c : Context σ) (target : Path) : Attempt σ Applied := do
  let root ← orThrow (Rule.root.product.stem? target) (.notANamespace target)
  let ns ← c.namespaceOf .root target
  let stamp := c.outputPath (Path.withExtension ⟨root⟩ Rule.stampExtension)
  match (← Attempt.disk).readText stamp with
  | .ok digest =>
    let text := rootText ns.moduleName (trimmed digest) (aliasLines (c.metadata.members ns))
    c.writeOutput target text
  | .error e => throw (.disk stamp e)

/-- Builds the dependencies of a library's members and writes these in the order of the build
log. -/
def writeManifest (c : Context σ) (target : Path) : Attempt σ Applied := do
  let root ← orThrow (Rule.manifest.product.stem? target) (.notALibrary target)
  let ns ← orThrow (c.metadata.namespaceOfRoot? ⟨root⟩) (.notALibrary target)
  let members ← orThrow (c.metadata.libraryMembers? ns) (.notALibrary target)
  c.requireAll (members.map memberDepends)
  let log := c.outputPath c.config.buildLog
  match BuildLog.compileOrder (← Attempt.disk) c.config.compilers log with
  | .ok order => c.writeOutput target (BuildLog.manifest members order)
  | .error e => throw (.log e)

/-- Analyzes the file behind a target and writes its dependencies as they are, in a directory that
must exist. -/
def writePlainDepends (c : Context σ) (target : Path) : Attempt σ Applied := do
  let source ← orThrow (target.dropSuffix? Naming.dependsSuffix) (.notNamespacedFile target)
  let tags ← c.engine.tags source
  let raw ← c.analyze source tags
  let path := c.outputPath target
  Attempt.onDisk path (DiskM.write path (printLine source raw.dependencies ++ "\n").toUTF8)
  return .built target

end Context

/-- What a rule does for a target. -/
def Rule.apply {σ : Type} (c : Context σ) (target : Path) : Rule → Attempt σ Applied
  | executableTags _ => c.tagExecutable target
  | depends kind => c.writeDepends (.depends kind) kind target
  | link kind => c.linkSource kind target
  | stamp => c.writeStamp target
  | aliases => c.writeAliases target
  | root => c.writeRoot target
  | manifest => c.writeManifest target
  | plainDepends => c.writePlainDepends target

/-- How an attempt to build a target by a rule fails. -/
inductive DispatchError where
  /-- Another rule may build the target; the failure is the one kept for this. -/
  | inapplicable (signal : Failure)
  /-- The target cannot be built. -/
  | rule (e : RuleError)

/-- The wording of a dispatch error. -/
def DispatchError.message : DispatchError → String
  | inapplicable signal => "rule does not apply: " ++ signal.text
  | rule e => e.message

/-- Makes an attempt on a target and signals if the rule does not apply to it. -/
def Engine.dispatch {σ : Type} (engine : Engine σ) (target : Path) (attempt : Attempt σ Applied) :
    Work σ (Except DispatchError Path) := do
  match ← attempt.run with
  | .ok (.built path) => return .ok path
  | .ok (.inapplicable reason) => return .error (.inapplicable (← engine.signal target reason))
  | .error e =>
    match e.reason? with
    | some reason => return .error (.inapplicable (← engine.signal target reason))
    | none => return .error (.rule e)

end FlatModules
