import FlatModules.Config.Decode
import FlatModules.Config.Reader
import FlatModules.Disk.Files

/-!
# Configuration — loading

The settings of a project: its configuration file, or defaults if there is none, and what the
environment says instead.
-/

namespace FlatModules

/-- Why a configuration cannot be loaded. -/
inductive ConfigError where
  | unreadable (path : Path) (cause : DiskError)
  | invalid (path : Path)

/-- The wording of a configuration error, without what is wrong in an invalid one. -/
def ConfigError.message : ConfigError → String
  | unreadable path cause => "failed to read " ++ path.text ++ ": " ++ cause.message
  | invalid path => "invalid configuration in " ++ path.text

/-- The settings that the environment may give. -/
structure Overrides where
  buildDir : Option String := none
  buildLog : Option String := none
  analyzer : Option String := none

/-- The settings that environment variables give. -/
def Overrides.ofEnvironment (value? : String → Option String) : Overrides where
  buildDir := value? "NSBUILD_BUILD_DIR"
  buildLog := value? "NSBUILD_BUILD_LOG"
  analyzer := value? "NSBUILD_ANALYZER"

namespace Config

/-- The name of the configuration file. -/
def fileName : Path := ⟨"nsbuild.toml"⟩

/-- The settings with those of the environment in place of their own. -/
def override (c : Config) (o : Overrides) : Config :=
  { c with
    buildDir := (o.buildDir.map Path.mk).getD c.buildDir
    buildLog := (o.buildLog.map Path.mk).getD c.buildLog
    analyzer := { c.analyzer with program := o.analyzer.getD c.analyzer.program } }

/-- The settings that a document gives. -/
def ofDocument? (document : String) : Option Config := do
  ofTable? (← Document.parse? document)

/-- The settings of the project at `root`. -/
def load (d : Disk) (root : Path) (o : Overrides) : Except ConfigError Config :=
  let path := root / fileName
  match d.readText path with
  | .ok document =>
    match ofDocument? document with
    | some c => .ok (c.override o)
    | none => .error (.invalid path)
  | .error .notFound => .ok (({} : Config).override o)
  | .error e => .error (.unreadable path e)

end Config
end FlatModules
