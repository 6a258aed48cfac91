import FlatModules.Analyzer.Line
import FlatModules.Config.Basic
import FlatModules.Disk.Files
import FlatModules.Tags
import FlatModules.Text.Quoted
import FlatModules.Text.Utf8

/-!
# Analyzer — running it

The arguments of a run, and what becomes of its result.  The programs that can be run are a
parameter, `Programs`.
-/

namespace FlatModules.Analyzer

open Text

/-- How a program ended. -/
structure Exit where
  /-- The exit code; none if a signal ended the program. -/
  code : Option Nat
  output : ByteArray
  errors : ByteArray

/-- The programs that can be run: what becomes of running the one of a given name in a directory
with a list of arguments.  They read the disk and leave it as it is. -/
def Programs : Type :=
  Disk → (directory : Path) → (program : String) → (arguments : List String) → Except DiskError Exit

/-- Why there is no dependency line. -/
inductive AnalyzerError where
  /-- The program could not be started. -/
  | notStarted (program : String) (cause : DiskError)
  /-- The program failed. -/
  | failed (program : String) (file : Path) (code : Option Nat) (errors : String)
  /-- The output has no line of dependencies. -/
  | malformed (output : String)

/-- The wording of an exit code. -/
def codeText : Option Nat → String
  | some code => "Some(" ++ toString code ++ ")"
  | none => "None"

/-- The wording of an analyzer error. -/
def AnalyzerError.message : AnalyzerError → String
  | notStarted program cause => "failed to run " ++ program ++ ": " ++ cause.message
  | failed program file code errors =>
    program ++ " failed on " ++ file.text ++ " with exit code " ++ codeText code ++ ": " ++ errors
  | malformed output => "malformed analyzer output: " ++ String.ofList (quoted output.toList)

/-- The flag that asks for module names. -/
def modulesFlag : String := "-modules"

/-- The arguments for a file with the given tags: the flag for module names, the flags for every
run, those of the file's tags, and the file. -/
def arguments (config : AnalyzerConfig) (file : Path) (tags : Tags) : List String :=
  [modulesFlag] ++ config.flags
    ++ (config.tagFlags.filter fun (tag, _) => tags.contains tag).flatMap (·.2)
    ++ [file.text]

/-- The text that a program wrote. -/
def textOf (bytes : ByteArray) : String := ofUtf8Lossy bytes

/-- What the end of a run on `file` tells. -/
def readExit (config : AnalyzerConfig) (file : Path) (exit : Exit) :
    Except AnalyzerError RawLine :=
  if exit.code = some 0 then
    let output := textOf exit.output
    match RawLine.parse? output with
    | some line => .ok line
    | none => .error (.malformed output)
  else
    let errors := String.ofList (trim (textOf exit.errors).toList)
    .error (.failed config.program file exit.code errors)

/-- Whether a text holds a zero byte, so that nothing can be started with it. -/
def hasZero (text : String) : Bool := text.toList.contains '\x00'

/-- The longest argument that a program can be started with, in bytes. -/
def argumentLimit : Nat := 131071

/-- Starts a program in a directory.  No zero byte may be in its name, in an argument or in the
directory; a program that is there takes no argument above the limit. -/
def start (programs : Programs) (d : Disk) (directory : Path) (program : String)
    (args : List String) : Except DiskError Exit := do
  if (program :: directory.text :: args).any hasZero then throw .zeroInCommand
  let exit ← programs d directory program args
  if args.any (·.utf8ByteSize > argumentLimit) then throw .argumentsTooLong
  return exit

/-- Runs the analyzer on `file` in `directory`: the arguments of the run, if it could be started,
and what it told. -/
def analyze (programs : Programs) (config : AnalyzerConfig) (d : Disk) (directory file : Path)
    (tags : Tags) : Option (List String) × Except AnalyzerError RawLine :=
  let args := arguments config file tags
  match start programs d directory config.program args with
  | .error e => (none, .error (.notStarted config.program e))
  | .ok exit => (some args, readExit config file exit)

end FlatModules.Analyzer
