import FlatModules.Text.Pieces

/-!
# Paths — spelling and parts

A path is kept as it was spelled, and shown so.  Two paths are *the same* when they have the same
parts: repeated and trailing slashes, and a `.` anywhere but at the start, do not count.  `..` is a
part like any other.
-/

namespace FlatModules

open Text

/-- A path, as spelled. -/
structure Path where
  text : String
deriving DecidableEq, Inhabited, Hashable

namespace Path

/-- One step of a path. -/
inductive Part where
  /-- The slash at the start of an absolute path. -/
  | root
  /-- A `.` at the start of a relative path. -/
  | here
  /-- A `..`. -/
  | up
  /-- A name. -/
  | name (name : String)
deriving DecidableEq, Ord, Hashable

instance : ToString Path := ⟨text⟩

/-- The path with no text. -/
def empty : Path := ⟨""⟩

/-- The pieces of the spelling between slashes, the empty ones too. -/
def segments (p : Path) : List (List Char) :=
  cutAt (· == '/') p.text.toList

/-- A path that starts at the root. -/
def isAbsolute (p : Path) : Bool :=
  p.text.toList.head? == some '/'

/-- The part that a segment after the first one stands for. -/
def part? (segment : List Char) : Option Part :=
  if segment = [] ∨ segment = ['.'] then none
  else if segment = ['.', '.'] then some .up
  else some (.name (String.ofList segment))

/-- The parts that a list of segments stands for. -/
def partsOf : List (List Char) → List Part
  | [] => []
  | [[]] => []
  | [] :: rest => .root :: rest.filterMap part?
  | ['.'] :: rest => .here :: rest.filterMap part?
  | first :: rest => (first :: rest).filterMap part?

/-- The parts of a path, in order. -/
def parts (p : Path) : List Part :=
  partsOf p.segments

/-- Equality up to spelling. -/
def same (p q : Path) : Bool :=
  p.parts == q.parts

/-- Order by parts: root before `.` before `..` before names, and names by their characters. -/
def order (p q : Path) : Ordering :=
  compare p.parts q.parts

/-- Without the segments at the end that stand for no part.  The list is read from the last
segment to the first. -/
def dropIdle : List (List Char) → List (List Char)
  | [] => []
  | [first] => if first = [] then [] else [first]
  | segment :: rest => if segment = [] ∨ segment = ['.'] then dropIdle rest else segment :: rest

/-- The path with the given segments, listed from the last to the first. -/
def ofSegments (absolute : Bool) (segments : List (List Char)) : Path :=
  if segments = [] then ⟨if absolute then "/" else ""⟩
  else ⟨String.ofList (joinWith ['/'] segments.reverse)⟩

/-- The path without its last part, spelled as before; none for the root and for the empty path. -/
def parent? (p : Path) : Option Path :=
  match dropIdle p.segments.reverse with
  | [] => none
  | _ :: rest => some (ofSegments p.isAbsolute (dropIdle rest))

/-- The last part, if it is a name. -/
def fileName? (p : Path) : Option String :=
  match p.parts.getLast? with
  | some (.name name) => some name
  | _ => none

/-- A file name before and after its last dot.  A name whose only dot comes first has no
extension. -/
def splitExtension (name : List Char) : List Char × Option (List Char) :=
  match cutOnce '.' name.reverse with
  | none => (name, none)
  | some (_, []) => (name, none)
  | some (extension, stem) => (stem.reverse, some extension.reverse)

/-- The file name without its extension. -/
def fileStem? (p : Path) : Option String :=
  p.fileName?.map fun name => String.ofList (splitExtension name.toList).1

/-- What follows the last dot of the file name. -/
def extension? (p : Path) : Option String :=
  p.fileName?.bind fun name => (splitExtension name.toList).2.map String.ofList

/-- The path with `extension` after the stem of its file name, or with the stem alone if
`extension` is empty.  A path without a file name stays as it is. -/
def endStem (p : Path) (extension : String) : Path :=
  match p.fileName? with
  | none => p
  | some name =>
    let stem := (splitExtension name.toList).1
    let ending := if extension.isEmpty then [] else '.' :: extension.toList
    ofSegments p.isAbsolute ((stem ++ ending) :: (dropIdle p.segments.reverse).tail)

/-- The path with another extension, or with none if `extension` is empty.  As many characters as
the old extension has are first taken off the end, so that its dot stays: `..x` becomes `..`, which
has no file name. -/
def withExtension (p : Path) (extension : String) : Path :=
  match p.extension? with
  | none => p.endStem extension
  | some old => endStem ⟨String.ofList (p.text.toList.take (p.text.length - old.length))⟩ extension

/-- `q` below `p`; an absolute `q` stands for itself. -/
def join (p q : Path) : Path :=
  if q.isAbsolute then q
  else if p.text.isEmpty ∨ p.text.toList.getLast? = some '/' then ⟨p.text ++ q.text⟩
  else ⟨p.text ++ "/" ++ q.text⟩

instance : Div Path := ⟨join⟩

/-- The path with `suffix` written after it. -/
def append (p : Path) (suffix : String) : Path :=
  ⟨p.text ++ suffix⟩

/-- What precedes `suffix`, if the path is spelled with it at the end. -/
def dropSuffix? (p : Path) (suffix : String) : Option Path :=
  (dropTail? suffix.toList p.text.toList).map fun rest => ⟨String.ofList rest⟩

theorem dropSuffix?_append (p : Path) (suffix : String) :
    (p.append suffix).dropSuffix? suffix = some p := by
  simp [dropSuffix?, append, Option.map_eq_some_iff, dropTail?_eq_some_iff]

end Path
end FlatModules
