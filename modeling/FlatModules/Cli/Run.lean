import FlatModules.Build.Local
import FlatModules.Cli.Help
import FlatModules.Config.Load
import FlatModules.Json.Printer
import FlatModules.Tree.Scan

/-!
# Command line — running a command

What a command prints, how it ends and what it does to the disk.
-/

namespace FlatModules.Cli

open Text

/-- A piece of what a command prints. -/
inductive Output where
  | out (text : String)
  | err (text : String)
  /-- On standard output: how long the build took. -/
  | elapsed

/-- The wording of a span of time, given in milliseconds: minutes and seconds, or seconds with two
places, or milliseconds. -/
def elapsedText (milliseconds : Nat) : String :=
  let seconds := milliseconds / 1000
  let rest := milliseconds % 1000
  if 60 ≤ seconds then toString (seconds / 60) ++ "m " ++ toString (seconds % 60) ++ "s"
  else if 0 < seconds then
    toString seconds ++ "." ++ toString (rest / 100) ++ toString (rest / 10 % 10) ++ "s"
  else toString rest ++ "ms"

/-- An error with what caused it, from the outside in. -/
structure Trouble where
  text : String
  causes : List String := []

/-- Further lines of a text, moved to the right. -/
def indentRest (by_ : String) (text : String) : String :=
  String.ofList (joinWith ('\n' :: by_.toList) (cutAt (· == '\n') text.toList))

/-- The causes of an error: a single one by itself, several with numbers. -/
def causesText : List String → String
  | [] => ""
  | [cause] => "\n\nCaused by:\n    " ++ indentRest "    " cause
  | causes =>
    "\n\nCaused by:" ++ String.join (causes.mapIdx fun i cause =>
      "\n    " ++ toString i ++ ": " ++ indentRest "       " cause)

/-- The text of an error. -/
def Trouble.print (t : Trouble) : String :=
  "Error: " ++ t.text ++ causesText t.causes ++ "\n"

/-- How a command ends. -/
inductive Ending where
  | done
  | trouble (t : Trouble)
  /-- A stored digest could not be cut to length. -/
  | broken

/-- What a command has printed, and how it ended. -/
structure Report where
  output : List Output
  ending : Ending

/-- The exit code of a command. -/
def Ending.code : Ending → Nat
  | done => 0
  | trouble _ => 1
  | broken => 101

/-- Where a command runs. -/
structure Setting where
  directory : Path
  overrides : Overrides
  programs : Analyzer.Programs

/-- Steps of a command: they may end in trouble, and change the disk. -/
abbrev Action := ExceptT Trouble (StateT (World LocalState) Option)

/-- Gives trouble an outer text. -/
def within {ε α : Type} (text : String) (causes : ε → List String) : Except ε α → Action α
  | .ok a => return a
  | .error e => throw { text, causes := causes e }

/-- The causes that a configuration error shows. -/
def configCauses : ConfigError → List String
  | .unreadable path cause => [(ConfigError.unreadable path cause).message, cause.message]
  | .invalid path => [(ConfigError.invalid path).message, "not a valid document"]

/-- Loads the configuration of a project. -/
def loadConfig (s : Setting) (root : Path) : Action Config := do
  let w ← get
  within "Failed to load configuration" configCauses (Config.load w.disk root s.overrides)

/-- Scans the sources of a project. -/
def scanTree (root : Path) (config : Config) : Action Tree := do
  let w ← get
  within "Failed to scan source directories" (fun e => [e.message]) (Tree.scan w.disk root config)

/-- The first twelve bytes of a digest; none if they end inside a character. -/
def shortDigest? (digest : String) : Option String :=
  let bytes := digest.toUTF8
  ofUtf8? (bytes.extract 0 (min 12 bytes.size))

/-- The digest that was stored for a namespace, if it was built. -/
def storedDigest? (d : Disk) (buildDir : Path) (ns : Namespace) : Option String :=
  match d.readText (buildDir / ns.rootPath.withExtension Rule.stampExtension) with
  | .ok text => some (trimmed text)
  | .error _ => none

/-- A line of information. -/
def infoLine (text : String) : Output := .out ("• " ++ text ++ "\n")

/-- A line for one fact about a namespace. -/
def factLine (label value : String) : Output := .out ("  " ++ label ++ ": " ++ value ++ "\n")

/-- What is printed about the members of a namespace. -/
def memberLines (verbose : Bool) (members : List Member) : List Output :=
  if verbose then members.map fun m => .out ("    " ++ m.name ++ " → " ++ m.target ++ "\n")
  else [factLine "Members" (", ".intercalate (members.map (·.name)))]

/-- What is printed about a namespace; none if its stored digest cannot be cut to length. -/
def namespaceLines? (t : Tree) (verbose : Bool) (digest : Option String) (ns : Namespace) :
    Option (List Output) := do
  let digestLines ← match digest with
    | none => some []
    | some digest => (shortDigest? digest).map fun short => [factLine "Digest" short]
  return [infoLine (ns.moduleName ++ " (" ++ ns.dir.text ++ ")"),
      factLine "Root" ns.rootFile.text]
    ++ (if t.isLibrary ns then [factLine "Library" ns.libraryName] else [])
    ++ digestLines
    ++ memberLines verbose (t.members ns)

/-- An optional text as JSON. -/
def optionalText : Option String → Json
  | some text => .text text
  | none => .null

/-- The word for the kind of a member. -/
def kindText : MemberKind → String
  | .leafModule => "module"
  | .subNamespace => "namespace"

/-- A member as JSON. -/
def memberJson (m : Member) : Json :=
  .record [("kind", .text (kindText m.kind)), ("name", .text m.name), ("target", .text m.target)]

/-- A namespace as JSON. -/
def namespaceJson (ns : Namespace) : Json :=
  .record [
    ("components", .list (ns.components.map .text)),
    ("dir", .text ns.dir.text),
    ("flat_name", .text ns.flatName),
    ("module_name", .text ns.moduleName),
    ("parent", optionalText (ns.parent.map (·.text))),
    ("root_path", .text ns.rootPath.text)]

/-- An entry of the list of namespaces as JSON. -/
def listingJson (t : Tree) (digest : Option String) (ns : Namespace) : Json :=
  .record [
    ("digest", optionalText digest),
    ("library", .boolean (t.isLibrary ns)),
    ("members", .list ((t.members ns).map memberJson)),
    ("namespace", namespaceJson ns)]

/-- Lists the namespaces of a project. -/
def listNamespaces (s : Setting) (root : Path) (json verbose : Bool) : Action Report := do
  let config ← loadConfig s root
  let tree ← scanTree root config
  let digestOf := storedDigest? (← get).disk (root / config.buildDir)
  if json then
    let listing : Json := .list (tree.namespaces.map fun ns => listingJson tree (digestOf ns) ns)
    return ⟨[.out (listing.print ++ "\n")], .done⟩
  else if tree.namespaces.isEmpty then
    return ⟨[.err "⚠ No namespaces found\n"], .done⟩
  else
    match tree.namespaces.mapM fun ns => namespaceLines? tree verbose (digestOf ns) ns with
    | some lines => return ⟨lines.flatten, .done⟩
    | none => return ⟨[], .broken⟩

/-- The project that the local engine works on. -/
def projectOf (s : Setting) (root : Path) (config : Config) (tree : Tree) : Project :=
  { root, config, metadata := tree.metadata, programs := s.programs }

/-- What is printed about a target. -/
def outcomeLine : Outcome → Output
  | .ok path => .out ("✓ Built " ++ path.text ++ "\n")
  | .error failure => .err ("✗ " ++ failure.text ++ "\n")

/-- Builds targets. -/
def buildTargets (s : Setting) (root : Path) (targets : List Path) : Action Report := do
  let config ← loadConfig s root
  let tree ← scanTree root config
  let project := projectOf s root config tree
  let outcomes ← targets.mapM fun target => (Local.build project target : Work LocalState Outcome)
  let failed := (outcomes.filterMap fun | .ok _ => none | .error f => some f).length
  let total := targets.length
  let summary := toString (total - failed) ++ " of " ++ toString total ++ " target(s) built in "
  return {
    output := outcomes.map outcomeLine ++ [.out ("• " ++ summary), .elapsed, .out "\n"]
    ending := if failed = 0 then .done
      else .trouble { text := toString failed ++ " target(s) failed" } }

/-- The source file that a path means, as the build sees it or as it lies. -/
def fileOf? (t : Tree) (path : Path) : Option NamespacedFile :=
  (t.fileAt? path).or (t.files.find? (·.realPath.same path))

/-- Shows the dependencies of a source file. -/
def showDepends (s : Setting) (root file : Path) : Action Report := do
  let config ← loadConfig s root
  let tree ← scanTree root config
  match fileOf? tree file with
  | none => throw { text := (RuleError.notNamespacedFile file).message }
  | some found =>
    let project := projectOf s root config tree
    let target := found.virtualPath.append Naming.dependsSuffix
    match ← (Local.build project target : Work LocalState Outcome) with
    | .error failure => throw { text := failure.text }
    | .ok _ =>
      let path := project.buildDir / target
      let line ← within ("Failed to read " ++ path.text) (fun e => [e.message])
        ((← get).disk.readText path)
      return ⟨[.out line], .done⟩

/-- The trouble that a build log without an order makes. -/
def logTrouble (e : BuildLog.LogError) : Trouble where
  text := e.message
  causes := match e with
    | .missing _ => []
    | .unreadable _ cause => [cause.message]

/-- Puts library members in the order of a log. -/
def showOrder (s : Setting) (root log : Path) (members : List String) : Action Report := do
  let config ← loadConfig s root
  match BuildLog.compileOrder (← get).disk config.compilers (root / log) with
  | .ok order =>
    return ⟨(BuildLog.orderMembers members order).map fun m => .out (m ++ "\n"), .done⟩
  | .error e => throw (logTrouble e)

/-- The absolute path of a place. -/
def placePath (place : Place) : Path :=
  ⟨"/" ++ "/".intercalate place⟩

/-- The project that a request is about, with all links resolved. -/
def projectRoot (s : Setting) (request : Request) : Action Path := do
  let given := request.project.getD s.directory
  let d := (← get).disk
  within ("Project not found: " ++ given.text) (fun e => [e.message])
    ((d.resolve (s.directory / given)).map placePath)

/-- Runs what a command line asks for. -/
def runRequest (s : Setting) (request : Request) : Action Report := do
  let root ← projectRoot s request
  match request.command with
  | .namespaces json => listNamespaces s root json request.verbose
  | .build targets => buildTargets s root targets
  | .depends file => showDepends s root file
  | .order log members => showOrder s root log members

/-- What a command line came to. -/
structure Result where
  code : Nat
  output : List Output
  disk : Disk
  /-- The argument lists of the analyzer runs, in order. -/
  runs : List (List String)

/-- The world in which a command starts. -/
def startWorld (d : Disk) : World LocalState where
  disk := d
  runs := []
  nextFailure := 0
  failures := .empty
  own := {}

/-- The exit code for a command line that asks for nothing sensible. -/
def misuseCode : Nat := 2

/-- Runs a command line. -/
def run (s : Setting) (d : Disk) (arguments : List String) : Option Result :=
  match Invocation.read arguments with
  | .help level => some ⟨0, [.out (helpText level)], d, []⟩
  | .helpOnHelp => some ⟨0, [.out helpOnHelpText], d, []⟩
  | .version => some ⟨0, [.out versionText], d, []⟩
  | .misused => some ⟨misuseCode, [], d, []⟩
  | .run request => do
    let (report, w) ← (runRequest s request).run (startWorld d)
    let report := match report with
      | .ok report => report
      | .error t => ⟨[], .trouble t⟩
    let last := match report.ending with
      | .trouble t => [Output.err t.print]
      | _ => []
    return ⟨report.ending.code, report.output ++ last, w.disk, w.runs⟩

end FlatModules.Cli
