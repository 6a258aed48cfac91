import FlatModules.Analyzer.Run
import FlatModules.Build.Engine
import FlatModules.Build.Pattern
import FlatModules.BuildLog.Order
import FlatModules.Digest.Files

/-!
# Build — rules

The rules, the targets that each is tried for, and how a rule ends.
-/

namespace FlatModules

/-- The two formats of an executable. -/
inductive ExecutableFormat where
  | byte
  | native
deriving DecidableEq

/-- The file extension of the format. -/
def ExecutableFormat.extension : ExecutableFormat → String
  | byte => "byte"
  | native => "native"

/-- A rule. -/
inductive Rule where
  /-- Tags an executable with the libraries that it is linked with; other rules build it. -/
  | executableTags (format : ExecutableFormat)
  /-- Writes the dependencies of a namespaced source file, in names of the flat space. -/
  | depends (kind : SourceKind)
  /-- Links a namespaced source file under its flat name. -/
  | link (kind : SourceKind)
  /-- Writes the digest of all that a namespace consists of. -/
  | stamp
  /-- Writes the aliases of a namespace by themselves. -/
  | aliases
  /-- Writes the root module of a namespace: its digest and its aliases. -/
  | root
  /-- Writes the members of a library in the order of their compilation. -/
  | manifest
  /-- Writes the dependencies of any other file, as the analyzer gave them. -/
  | plainDepends
deriving DecidableEq

/-- Where a rule stands among those of an engine. -/
inductive Rank where
  | top
  | bottom
deriving DecidableEq

namespace Rule

/-- The extension of the file that holds the digest of a namespace. -/
def stampExtension : String := "stamp"

/-- The name of a rule. -/
def name : Rule → String
  | executableTags format => "executable tags " ++ format.extension
  | depends kind => "depends " ++ kind.extension
  | link kind => "link " ++ kind.extension
  | stamp => "namespace stamp"
  | aliases => "namespace aliases"
  | root => "namespace root"
  | manifest => "library manifest"
  | plainDepends => "plain depends"

/-- What the targets of a rule end in. -/
def ending : Rule → String
  | executableTags format => "." ++ format.extension
  | depends kind => "." ++ kind.extension ++ Naming.dependsSuffix
  | link kind => "." ++ kind.extension
  | stamp => "." ++ stampExtension
  | aliases => Naming.aliasesSuffix ++ "." ++ SourceKind.implementation.extension
  | root => "." ++ SourceKind.implementation.extension
  | manifest => ".mllib"
  | plainDepends => Naming.dependsSuffix

/-- The targets that a rule is tried for. -/
def product (r : Rule) : Pattern :=
  Pattern.ending r.ending

/-- What must be built before a rule is tried, for the same stem. -/
def dependencies : Rule → List Pattern
  | depends kind => [Pattern.ending ("." ++ kind.extension)]
  | root => [Pattern.ending ("." ++ stampExtension)]
  | plainDepends => [Pattern.ending ""]
  | _ => []

/-- Rules that take targets from others stand on top. -/
def rank : Rule → Rank
  | executableTags _ => .top
  | depends _ => .top
  | _ => .bottom

/-- The rules for namespaces, in the order in which they are registered. -/
def registry : List Rule := [
  executableTags .byte, executableTags .native, depends .implementation, depends .interface,
  link .implementation, link .interface, stamp, aliases, root, manifest]

/-- Rules with those on top first, in order otherwise. -/
def ranked (rules : List Rule) : List Rule :=
  rules.filter (·.rank = .top) ++ rules.filter (·.rank = .bottom)

end Rule

/-- Why a rule gave up. -/
inductive RuleError where
  | notANamespace (path : Path)
  | notNamespacedFile (path : Path)
  | notALibrary (path : Path)
  | dependencyFailed (target : Path) (failure : Failure)
  | analyzer (e : Analyzer.AnalyzerError)
  | log (e : BuildLog.LogError)
  | digest (e : Digest.ReadFailure)
  | disk (path : Path) (cause : DiskError)

namespace RuleError

/-- The wording of a rule error. -/
def message : RuleError → String
  | notANamespace path => path.text ++ " is not a namespace"
  | notNamespacedFile path => path.text ++ " is not a namespaced file"
  | notALibrary path => path.text ++ " is not a library namespace"
  | dependencyFailed target failure =>
    "dependency " ++ target.text ++ " failed: " ++ failure.text
  | analyzer e => e.message
  | log e => e.message
  | digest e => e.message
  | disk path cause => "failed to write " ++ path.text ++ ": " ++ cause.message

/-- Why the rule does not apply, if that is what the error says; any other error is final. -/
def reason? : RuleError → Option String
  | notANamespace _ => some "not a namespace"
  | notNamespacedFile _ => some "not a namespaced file"
  | notALibrary _ => some "not a library namespace"
  | _ => none

/-- Whether another rule may still build the target. -/
def isRecoverable (e : RuleError) : Bool := e.reason?.isSome

end RuleError

/-- How a rule ends that did not give up. -/
inductive Applied where
  | built (path : Path)
  | inapplicable (reason : String)

/-- A step of a rule. -/
abbrev Attempt (σ : Type) := ExceptT RuleError (Work σ)

/-- What a rule works with. -/
structure Context (σ : Type) where
  engine : Engine σ
  metadata : Metadata
  config : Config
  programs : Analyzer.Programs

/-- Where the engine puts a target. -/
def Context.outputPath {σ : Type} (c : Context σ) (target : Path) : Path :=
  c.engine.buildDir / target

end FlatModules
