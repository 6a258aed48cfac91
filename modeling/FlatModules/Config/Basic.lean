import FlatModules.BuildLog.Invocation

/-!
# Configuration — settings

The settings of a project.  Each has a default, so that a project without a configuration works.
-/

namespace FlatModules

/-- How the dependency analyzer is run. -/
structure AnalyzerConfig where
  program : String := "ocamldep"
  /-- Flags for every run. -/
  flags : List String := []
  /-- Further flags for files that carry a tag, in the order of the tags. -/
  tagFlags : List (String × List String) := []
deriving DecidableEq

/-- An executable and the libraries that it is linked with. -/
structure ExecutableConfig where
  /-- The path of the executable without its extension. -/
  target : Path
  libraries : List String := []
deriving DecidableEq

/-- The settings of a project. -/
structure Config where
  /-- Where sources are; each directory strictly below one of these is a namespace. -/
  sourceDirs : List Path := [⟨"src"⟩]
  buildDir : Path := ⟨"_build"⟩
  /-- The log of compilations, below the build directory. -/
  buildLog : Path := ⟨"_log"⟩
  /-- The namespaces that produce a library. -/
  libraries : List Path := []
  analyzer : AnalyzerConfig := {}
  /-- The names by which a build log calls compilers. -/
  compilers : List String := BuildLog.defaultCompilers
  executables : List ExecutableConfig := []
  /-- Tags of files, by the path as spelled. -/
  tags : List (String × List String) := []
deriving DecidableEq

end FlatModules
