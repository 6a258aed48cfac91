import FlatModules.Disk.Basic
import FlatModules.Text.Utf8

/-!
# Disk — reading and changing

The operations on files, directories and links.  A change may fail half-way, so it is a step on the
disk with an error, `DiskM`.
-/

namespace FlatModules

/-- A step that reads and changes the disk, and may fail. -/
abbrev DiskM := ExceptT DiskError (StateM Disk)

namespace Disk

open Text

/-- The bytes of the file that a path leads to. -/
def readBytes (d : Disk) (p : Path) : Except DiskError ByteArray := do
  match ← d.stat p with
  | .file bytes => pure bytes
  | .dir => throw .isDirectory
  | .link _ => throw .tooManyLinks

/-- The text of the file that a path leads to. -/
def readText (d : Disk) (p : Path) : Except DiskError String := do
  match ofUtf8? (← d.readBytes p) with
  | some text => pure text
  | none => throw .notText

/-- Whether a path is spelled with a slash at its end. -/
def endsInSlash (p : Path) : Bool :=
  p.text.toList.getLast? == some '/'

/-- The place of a path's last name in a directory that exists, whatever is there; `dots` is the
error for a path whose last step is no name. -/
def slot (d : Disk) (dots : DiskError) (p : Path) : Except DiskError Place := do
  checkPath p
  let names := (p.segments.filter (· ≠ [])).map String.ofList
  match names.getLast? with
  | none => throw dots
  | some last =>
    let here ← walk d .target linkLimit [] (names.dropLast ++ [""])
    if last = "." ∨ last = ".." then throw dots
    if last.utf8ByteSize > nameLimit then throw .nameTooLong
    return here ++ [last]

/-- The place where writing to a path would put a file: the file that it leads to, or the missing
entry. -/
def placeToWrite (d : Disk) (p : Path) : Except DiskError Place := do
  let place ← d.locate .output p
  match d.entryAt? place with
  | some .dir => throw .isDirectory
  | _ => pure place

end Disk

namespace DiskM

open Disk

/-- The outcome of a step as a value; what it changed stays changed. -/
def outcome {α : Type} (step : DiskM α) : DiskM (Except DiskError α) :=
  ExceptT.mk (Except.ok <$> step.run)

/-- Writes a file; through links, and over what the file held. -/
def write (p : Path) (bytes : ByteArray) : DiskM Unit := do
  let place ← (← get).placeToWrite p
  modify (·.put place (.file bytes))

/-- Makes a directory in one that exists. -/
def makeDir (p : Path) : DiskM Unit := do
  let d ← get
  let place ← d.slot .alreadyExists p
  if (d.entryAt? place).isSome then throw .alreadyExists
  modify (·.put place .dir)

/-- Accepts the outcome of making a directory if there is one in the end. -/
def settle (p : Path) : Except DiskError Unit → DiskM Unit
  | .ok () => pure ()
  | .error e => do if (← get).isDir p then pure () else throw e

/-- Makes a path a directory.  If the one above is missing, makes that first, at most `bound`
levels up. -/
def makeDirsUp : (bound : Nat) → Path → DiskM Unit
  | 0, p => do settle p (← outcome (makeDir p))
  | bound + 1, p => do
    match ← outcome (makeDir p), p.parent? with
    | .error .notFound, some above =>
      makeDirsUp bound above
      settle p (← outcome (makeDir p))
    | result, _ => settle p result

/-- Makes a path a directory, with the directories above it that are missing.  The path with no text
is where relative paths start, which is there. -/
def makeDirs (p : Path) : DiskM Unit :=
  if p.text = "" then pure () else makeDirsUp p.segments.length p

/-- Makes the directories above a path. -/
def makeParents (p : Path) : DiskM Unit :=
  match p.parent? with
  | some above => makeDirs above
  | none => pure ()

/-- Removes a file or a link. -/
def unlink (p : Path) : DiskM Unit := do
  let d ← get
  let place ← d.slot .isDirectory p
  match d.entryAt? place with
  | none => throw .notFound
  | some .dir => throw .isDirectory
  | some _ =>
    if endsInSlash p then throw .notDirectory
    modify (·.remove place)

/-- Makes a symbolic link where nothing is. -/
def symlink (text : Path) (p : Path) : DiskM Unit := do
  checkPath text
  let d ← get
  let place ← d.slot .alreadyExists p
  if (d.entryAt? place).isSome then throw .alreadyExists
  if endsInSlash p then throw .notFound
  modify (·.put place (.link text.text))

/-- Copies a file.  The destination is emptied before the source is read, so that a file copied
onto itself ends up empty. -/
def copy (source destination : Path) : DiskM Unit := do
  let _ ← (← get).readBytes source
  write destination ByteArray.empty
  write destination (← (← get).readBytes source)

/-- Makes `link` a symbolic link with text `text`, with the directories above it that are missing
and in place of a file or link that is there. -/
def replaceLink (text link : Path) : DiskM Unit := do
  makeParents link
  match (← get).lstat link with
  | .ok _ => unlink link
  | .error .notFound => pure ()
  | .error e => throw e
  symlink text link

end DiskM
end FlatModules
