import FlatModules.Digest.Sha256
import FlatModules.Disk.Files

/-!
# Digest — files

The digest of a list of files covers, for each in order, its path as listed and the hash of its
content.
-/

namespace FlatModules.Digest

/-- A file that could not be read. -/
structure ReadFailure where
  path : Path
  cause : DiskError

/-- The wording of a read failure. -/
def ReadFailure.message (e : ReadFailure) : String :=
  "failed to read file " ++ e.path.text ++ ": " ++ e.cause.message

/-- The hash of a file's content. -/
def hashFile (d : Disk) (p : Path) : Except ReadFailure String :=
  match d.readBytes p with
  | .ok bytes => .ok (Sha256.hash bytes)
  | .error e => .error ⟨p, e⟩

/-- The line of a listing for one file: its path and the hash of its content. -/
def entryLine (p : Path) (contentHash : String) : String :=
  "F:" ++ p.text ++ ":" ++ contentHash ++ "\n"

/-- The listing of files: a line for each, in order. -/
def listing (entries : List (Path × String)) : String :=
  String.join (entries.map fun (p, contentHash) => entryLine p contentHash)

/-- The files below `root` with the hashes of their contents; the first that cannot be read ends
the reading. -/
def hashFiles (d : Disk) (root : Path) (files : List Path) :
    Except ReadFailure (List (Path × String)) :=
  files.mapM fun p => do
    let contentHash ← hashFile d (root / p)
    return (p, contentHash)

/-- The digest of files below `root`: the hash of their listing. -/
def digestFiles (d : Disk) (root : Path) (files : List Path) : Except ReadFailure String := do
  let entries ← hashFiles d root files
  return Sha256.hash (listing entries).toUTF8

end FlatModules.Digest
