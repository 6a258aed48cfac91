import FlatModules.Namespace
import FlatModules.Text.Blank

/-!
# Analyzer — dependency lines

What an analyzer prints about a file: the file, a colon and the modules that it uses.  The names
are as in the source; resolving them makes them names of the flat space.
-/

namespace FlatModules

open Text

/-- A line with the names as the analyzer gave them. -/
structure RawLine where
  target : String
  dependencies : List String
deriving DecidableEq

/-- A line with names of the flat space. -/
structure ResolvedLine where
  target : Path
  dependencies : List String
deriving DecidableEq

namespace RawLine

/-- The line of an output that counts: the first that is not blank, if there is one. -/
def lineOf (output : String) : List Char :=
  ((lines output.toList).find? (trim · ≠ [])).getD []

/-- Reads an analyzer's output: what precedes the first colon of the line, and the words after
it. -/
def parse? (output : String) : Option RawLine :=
  (cutOnce ':' (lineOf output)).map fun (target, rest) =>
    ⟨String.ofList (trim target), (words rest).map String.ofList⟩

/-- The line for `file`, in which each name that `metadata` can resolve is resolved. -/
def resolve (line : RawLine) (metadata : Metadata) (file : NamespacedFile) : ResolvedLine :=
  ⟨file.virtualPath, line.dependencies.map fun raw => (metadata.resolve? file raw).getD raw⟩

end RawLine

/-- A line for a path: the names after a colon, with a space before each. -/
def printLine (target : Path) (dependencies : List String) : String :=
  target.text ++ ": " ++ " ".intercalate dependencies

/-- The text of a resolved line. -/
def ResolvedLine.print (line : ResolvedLine) : String :=
  printLine line.target line.dependencies

end FlatModules
