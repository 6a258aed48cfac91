import FlatModules.Disk.Files
import FlatModules.Sorted
import FlatModules.Tree.Basic

/-!
# Tree — scanning

The tree of a project, from its source roots.  Everything in the flat space of modules claims its
name; a name claimed twice is an error.
-/

namespace FlatModules

/-- Why a project has no tree. -/
inductive ScanError where
  | duplicateModule (module : String) (first second : Path)
  | unknownLibrary (path : Path)

/-- The wording of a scan error. -/
def ScanError.message : ScanError → String
  | duplicateModule module first second =>
    "module " ++ module ++ " is defined by both " ++ first.text ++ " and " ++ second.text
  | unknownLibrary path => "library " ++ path.text ++ " is not a namespace directory"

namespace Tree

/-- Claims a module name.  The owner that holds it may claim it again. -/
def claim (t : Tree) (module : String) (kind : MemberKind) (owner : Path) :
    Except ScanError Tree :=
  match t.claims.find? (·.module = module) with
  | none => .ok { t with claims := ⟨module, kind, owner⟩ :: t.claims }
  | some held =>
    if held.kind = kind ∧ held.owner.same owner then .ok t
    else .error (.duplicateModule module held.owner owner)

/-- The tree with a scope changed. -/
def updateScope (t : Tree) (dir : Path) (f : Scope → Scope) : Tree :=
  { t with scopes := t.scopes.map fun s => if s.ns.dir.same dir then f s else s }

/-- The tree with a scope added, in place of one at the same directory. -/
def putScope (t : Tree) (s : Scope) : Tree :=
  { t with scopes := insertInOrder (fun a b => a.ns.dir.order b.ns.dir) s t.scopes }

/-- The tree with a file added, in place of one at the same virtual path. -/
def putFile (t : Tree) (f : NamespacedFile) : Tree :=
  { t with files := insertInOrder (fun a b => a.virtualPath.order b.virtualPath) f t.files }

/-- The namespace that a directory with these components is. -/
def namespaceFor (dir : Path) (components : List String) : Namespace :=
  let flat := Naming.flatName components
  { dir, components, flatName := flat
    moduleName := Naming.moduleName flat
    rootPath := Naming.rootPath dir flat
    parent := if components.length > 1 then dir.parent? else none }

/-- Adds the namespace of a directory, as yet without anything in it. -/
def addNamespace (t : Tree) (dir : Path) (components : List String) : Except ScanError Tree := do
  let ns := namespaceFor dir components
  let t ← t.claim ns.moduleName .subNamespace dir
  let t := match ns.parent with
    | some above => t.updateScope above fun s => { s with children := s.children ++ [dir] }
    | none => { t with topLevel := ns.moduleName :: t.topLevel }
  return t.putScope ⟨ns, [], []⟩

/-- Adds a virtual path to the leaf with a stem, or begins that leaf. -/
def addToLeaf (new : Leaf) (leaves : List Leaf) : List Leaf :=
  match leaves.find? (·.stem = new.stem) with
  | some _ =>
    leaves.map fun l => if l.stem = new.stem then { l with files := l.files ++ new.files } else l
  | none => insertInOrder (fun a b => compare a.stem b.stem) new leaves

/-- The record of a source file with a given stem in a namespace. -/
def fileFor (ns : Namespace) (dir path : Path) (stem : String) (kind : SourceKind) :
    NamespacedFile :=
  let flat := Naming.flatName [ns.flatName, stem]
  { virtualPath := (dir / ⟨flat⟩).withExtension kind.extension
    realPath := path
    ownModule := Naming.moduleName stem
    virtualModule := Naming.moduleName flat
    kind, dir }

/-- Adds a source file.  One whose stem is no component is left out; one directly in a source root
keeps its own module name. -/
def addSource (t : Tree) (path : Path) (kind : SourceKind) : Except ScanError Tree := do
  match path.fileStem? with
  | none => return t
  | some stem =>
    if !Naming.isComponent stem then return t
    let dir := path.parent?.getD Path.empty
    let owner := path.withExtension ""
    match t.scopeAt? dir with
    | none => t.claim (Naming.moduleName stem) .leafModule owner
    | some s =>
      let file := fileFor s.ns dir path stem kind
      let t ← t.claim file.virtualModule .leafModule owner
      let leaf : Leaf := {
        stem
        virtualModule := file.virtualModule
        virtualRoot := dir / ⟨Naming.flatName [s.ns.flatName, stem]⟩
        files := [file.virtualPath] }
      return (t.updateScope dir fun s => { s with leaves := addToLeaf leaf s.leaves }).putFile file

/-- The path that names below a source root spell. -/
def belowRoot (sourceDir : Path) (names : List String) : Path :=
  sourceDir / ⟨"/".intercalate names⟩

/-- Whether the directories on the way to an entry, and the entry itself if it is one, are named
by components. -/
def isVisible (names : List String) (entry : Entry) : Bool :=
  match entry with
  | .dir => names.all Naming.isComponent
  | _ => names.dropLast.all Naming.isComponent

/-- Adds what was found below a source root. -/
def addEntry (sourceDir : Path) (t : Tree) (found : List String × Entry) :
    Except ScanError Tree :=
  let path := belowRoot sourceDir found.1
  match found.2 with
  | .dir => t.addNamespace path found.1
  | _ =>
    match SourceKind.ofPath? path with
    | some kind => t.addSource path kind
    | none => .ok t

/-- Adds everything below a source root; links are not followed, and directories not named by a
component are left out with all that is in them. -/
def addSourceDir (d : Disk) (root : Path) (t : Tree) (sourceDir : Path) :
    Except ScanError Tree :=
  let base := root / sourceDir
  match d.isDir base, d.locate .target base with
  | true, .ok place =>
    ((d.below place).filter fun (names, entry) => isVisible names entry).foldlM
      (addEntry sourceDir) t
  | _, _ => .ok t

/-- Marks a namespace as a library. -/
def addLibrary (t : Tree) (library : Path) : Except ScanError Tree :=
  match t.scopeAt? library with
  | some _ => .ok { t with libraries := library :: t.libraries }
  | none => .error (.unknownLibrary library)

/-- The tree of a project. -/
def scan (d : Disk) (root : Path) (config : Config) : Except ScanError Tree := do
  let t ← config.sourceDirs.foldlM (addSourceDir d root) { executables := config.executables }
  config.libraries.foldlM addLibrary t

end Tree
end FlatModules
