import FlatModules.Config.Basic
import FlatModules.Config.Value
import FlatModules.Sorted

/-!
# Configuration — from a document

The settings that a document gives.  A key that is no setting is ignored; a setting of the wrong
shape makes the document invalid.  A record may also be written as a list of its fields in order.
-/

namespace FlatModules

open Document (Value)

namespace Config

/-- A text. -/
def text? : Value → Option String
  | .string text => some text
  | _ => none

/-- A list of texts. -/
def texts? : Value → Option (List String)
  | .list items => items.mapM text?
  | _ => none

/-- A list of paths. -/
def paths? (v : Value) : Option (List Path) :=
  (texts? v).map (·.map Path.mk)

/-- Lists of texts by key, in the order of the keys. -/
def textsByKey? : Value → Option (List (String × List String))
  | .table entries => do
    let pairs ← entries.mapM fun (key, v) => do return (key, ← texts? v)
    return pairs.foldl (fun sorted p => insertInOrder (fun a b => compare a.1 b.1) p sorted) []
  | _ => none

/-- Where the fields of a record are found: under their keys in a table, or at their positions in a
list.  A date or time has none of them. -/
def fieldsOf? : Value → Option (String → Nat → Option Value)
  | .table entries => some fun key _ => entries.lookup key
  | .list items => some fun _ position => items[position]?
  | .moment _ => some fun _ _ => none
  | _ => none

/-- The value of a field, or a default if it is not given. -/
def field? {α : Type} (decode : Value → Option α) (default_ : α) : Option Value → Option α
  | none => some default_
  | some v => decode v

/-- The settings of the analyzer. -/
def analyzer? (v : Value) : Option AnalyzerConfig := do
  let get ← fieldsOf? v
  let defaults : AnalyzerConfig := {}
  return {
    program := ← field? text? defaults.program (get "program" 0)
    flags := ← field? texts? defaults.flags (get "flags" 1)
    tagFlags := ← field? textsByKey? defaults.tagFlags (get "tag_flags" 2) }

/-- The names of compilers, in the settings of the build log. -/
def compilers? (v : Value) : Option (List String) := do
  let get ← fieldsOf? v
  field? texts? BuildLog.defaultCompilers (get "compilers" 0)

/-- An executable. -/
def executable? (v : Value) : Option ExecutableConfig := do
  let get ← fieldsOf? v
  let target ← text? (← get "target" 0)
  let libraries ← field? texts? [] (get "libraries" 1)
  return { target := ⟨target⟩, libraries }

/-- The executables. -/
def executables? : Value → Option (List ExecutableConfig)
  | .list items => items.mapM executable?
  | _ => none

/-- The settings that a table gives. -/
def ofTable? (entries : List (String × Value)) : Option Config := do
  let get (key : String) := entries.lookup key
  let defaults : Config := {}
  return {
    sourceDirs := ← field? paths? defaults.sourceDirs (get "source_dirs")
    buildDir := ⟨← field? text? defaults.buildDir.text (get "build_dir")⟩
    buildLog := ⟨← field? text? defaults.buildLog.text (get "build_log")⟩
    libraries := ← field? paths? defaults.libraries (get "libraries")
    analyzer := ← field? analyzer? defaults.analyzer (get "analyzer")
    compilers := ← field? compilers? defaults.compilers (get "trace")
    executables := ← field? executables? defaults.executables (get "executable")
    tags := ← field? textsByKey? defaults.tags (get "tags") }

end Config
end FlatModules
