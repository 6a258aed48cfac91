import FlatModules.Disk.Error
import FlatModules.Path.Basic
import FlatModules.Sorted

/-!
# Disk — entries and lookup

A disk is a finite table of entries, each at a place: the names from the root down to it.
`Disk.locate` follows a path to a place through directories, `..` and symbolic links.
-/

namespace FlatModules

open Text

/-- Where an entry is: the names from the root down. -/
abbrev Place := List String

/-- Bytes are compared as the core library does, whatever else is imported. -/
instance decidableEqBytes : DecidableEq ByteArray := ByteArray.instDecidableEq

/-- What may be at a place. -/
inductive Entry where
  | dir
  | file (bytes : ByteArray)
  /-- A symbolic link, with its text. -/
  | link (text : String)
deriving DecidableEq, Inhabited

/-- A disk: the entries below the root, which is always a directory. -/
structure Disk where
  entries : List (Place × Entry)
deriving Inhabited

namespace Disk

/-- The disk with nothing but its root. -/
def blank : Disk := ⟨[]⟩

/-- The entry at a place. -/
def entryAt? (d : Disk) (place : Place) : Option Entry :=
  if place = [] then some .dir else d.entries.lookup place

/-- The disk with `entry` at `place`, whatever was there. -/
def put (d : Disk) (place : Place) (entry : Entry) : Disk :=
  ⟨(place, entry) :: d.entries.filter (·.1 ≠ place)⟩

/-- The disk with nothing at `place`. -/
def remove (d : Disk) (place : Place) : Disk :=
  ⟨d.entries.filter (·.1 ≠ place)⟩

/-- The disk with nothing at or below `place`. -/
def removeTree (d : Disk) (place : Place) : Disk :=
  ⟨d.entries.filter fun (at_, _) => !place.isPrefixOf at_⟩

/-- The names that are left of a place below `place`. -/
def underneath? (place : Place) (at_ : Place) : Option (List String) :=
  if place.isPrefixOf at_ ∧ place ≠ at_ then some (at_.drop place.length) else none

/-- Everything strictly below a place, as the names below it, each directory before what is in it
and neighbours by name. -/
def below (d : Disk) (place : Place) : List (List String × Entry) :=
  sortBy (fun a b => (compare a.1 b.1).isLE)
    (d.entries.filterMap fun (at_, entry) => (underneath? place at_).map (·, entry))

/-- The steps that a path's text asks for.  A slash at the end asks for a directory; it is a last
step without text. -/
def steps (text : String) : List String :=
  let segments := cutAt (· == '/') text.toList
  let names := (segments.filter (· ≠ [])).map String.ofList
  if segments.getLast? = some [] then names ++ [""] else names

/-- The longest name that an entry can have, in bytes. -/
def nameLimit : Nat := 255

/-- The longest path that an operation takes, and the longest text of a link, in bytes. -/
def pathLimit : Nat := 4095

/-- How many links one lookup may follow. -/
def linkLimit : Nat := 40

/-- What a path is looked up for. -/
inductive Aim where
  /-- The entry that it names; a link at its end is not followed. -/
  | entry
  /-- What it leads to, through links. -/
  | target
  /-- The file to write, through links.  A slash at the end never names a file, even where nothing
  is. -/
  | output
deriving DecidableEq

/-- Follows steps from the directory `here`.  A missing entry at the last step is no error: its
place is the answer.  `jump` goes on through a link, with the directory that it starts from and the
steps then left. -/
def walkWith (jump : Place → List String → Except DiskError Place) (d : Disk) (aim : Aim) :
    Place → List String → Except DiskError Place
  | here, [] => .ok here
  | here, step :: rest =>
    if step = "." ∨ step = "" then walkWith jump d aim here rest
    else if step = ".." then walkWith jump d aim here.dropLast rest
    else if aim = .output ∧ rest = [""] then .error .isDirectory
    else if step.utf8ByteSize > nameLimit then .error .nameTooLong
    else
      let place := here ++ [step]
      match d.entryAt? place with
      | none => if rest = [] then .ok place else .error .notFound
      | some .dir => walkWith jump d aim place rest
      | some (.file _) => if rest = [] then .ok place else .error .notDirectory
      | some (.link text) =>
        if rest = [] ∧ aim = .entry then .ok place
        else jump (if Path.isAbsolute ⟨text⟩ then [] else here) (steps text ++ rest)

/-- Follows steps through at most `links` links. -/
def walk (d : Disk) (aim : Aim) : (links : Nat) → Place → List String → Except DiskError Place
  | 0 => walkWith (fun _ _ => .error .tooManyLinks) d aim
  | links + 1 => walkWith (walk d aim links) d aim

/-- Refuses a text that is no path: one with a zero byte, and the empty one. -/
def checkSpelling (p : Path) : Except DiskError Unit :=
  if p.text.toList.contains '\x00' then .error .zeroInPath
  else if p.text.isEmpty then .error .notFound
  else .ok ()

/-- Refuses a text that no operation takes as a path. -/
def checkPath (p : Path) : Except DiskError Unit := do
  checkSpelling p
  if p.text.utf8ByteSize > pathLimit then throw .nameTooLong

/-- The place that a path leads to, read from the root. -/
def locate (d : Disk) (aim : Aim) (p : Path) : Except DiskError Place := do
  checkPath p
  walk d aim linkLimit [] (steps p.text)

/-- The entry at the place that a lookup led to. -/
def entryThere (d : Disk) (place : Place) : Except DiskError Entry :=
  match d.entryAt? place with
  | some entry => .ok entry
  | none => .error .notFound

/-- The entry that a path leads to, through links. -/
def stat (d : Disk) (p : Path) : Except DiskError Entry := do
  d.entryThere (← d.locate .target p)

/-- The entry that a path names; a link at its end is not followed. -/
def lstat (d : Disk) (p : Path) : Except DiskError Entry := do
  d.entryThere (← d.locate .entry p)

/-- The place of what a path leads to, which exists.  As the path is looked up name by name, its
length does not matter. -/
def resolve (d : Disk) (p : Path) : Except DiskError Place := do
  checkSpelling p
  let place ← walk d .target linkLimit [] (steps p.text)
  let _ ← d.entryThere place
  return place

/-- Whether a path leads to a directory. -/
def isDir (d : Disk) (p : Path) : Bool :=
  match d.stat p with
  | .ok .dir => true
  | _ => false

/-- Whether a path leads to a file. -/
def isFile (d : Disk) (p : Path) : Bool :=
  match d.stat p with
  | .ok (.file _) => true
  | _ => false

end Disk
end FlatModules
