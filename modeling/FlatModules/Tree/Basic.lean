import FlatModules.Config.Basic
import FlatModules.Namespace
import FlatModules.Sorted

/-!
# Tree — the namespaces of a project

The namespaces and namespaced files found below the source roots, and the answers to the questions
of `Metadata` that they give.
-/

namespace FlatModules

/-- The files of a namespace that share a stem. -/
structure Leaf where
  stem : String
  virtualModule : String
  /-- The path under the flat name, extension apart. -/
  virtualRoot : Path
  /-- The virtual paths of the files, in the order in which they were found. -/
  files : List Path

/-- Whether one of the files is an implementation. -/
def Leaf.hasImplementation (l : Leaf) : Bool :=
  l.files.any fun p => SourceKind.ofPath? p = some .implementation

/-- A namespace with what is directly in it. -/
structure Scope where
  ns : Namespace
  /-- The directories of the sub-namespaces, in the order in which they were found. -/
  children : List Path
  /-- The leaves, by stem. -/
  leaves : List Leaf

/-- The name of a sub-namespace inside the enclosing one. -/
def Scope.shortName? (s : Scope) : Option String :=
  s.ns.components.getLast?.map Naming.moduleName

/-- The member that a leaf is. -/
def Leaf.member (l : Leaf) : Member :=
  ⟨Naming.moduleName l.stem, l.virtualModule, .leafModule⟩

/-- The member that a sub-namespace is. -/
def Scope.member? (s : Scope) : Option Member :=
  s.shortName?.map fun name => ⟨name, s.ns.moduleName, .subNamespace⟩

/-- Who holds a module name of the flat space. -/
structure Claim where
  module : String
  kind : MemberKind
  owner : Path

/-- The namespaces of a project. -/
structure Tree where
  /-- In the order of their directories. -/
  scopes : List Scope := []
  /-- In the order of their virtual paths. -/
  files : List NamespacedFile := []
  /-- The module names of the namespaces directly below a source root. -/
  topLevel : List String := []
  /-- The directories of the namespaces that produce a library. -/
  libraries : List Path := []
  executables : List ExecutableConfig := []
  /-- The module names of the flat space that are taken. -/
  claims : List Claim := []

namespace Tree

/-- The namespaces, by directory. -/
def namespaces (t : Tree) : List Namespace := t.scopes.map (·.ns)

/-- The namespace at a directory, with what is in it. -/
def scopeAt? (t : Tree) (dir : Path) : Option Scope :=
  t.scopes.find? (·.ns.dir.same dir)

/-- The namespaces directly in a namespace. -/
def childScopes (t : Tree) (s : Scope) : List Scope :=
  s.children.filterMap t.scopeAt?

/-- The source file that the build sees at a path. -/
def fileAt? (t : Tree) (path : Path) : Option NamespacedFile :=
  t.files.find? (·.virtualPath.same path)

/-- Whether a namespace produces a library. -/
def isLibrary (t : Tree) (ns : Namespace) : Bool :=
  t.libraries.any (·.same ns.dir)

/-- The members of a scope, by short name; a leaf before a sub-namespace of its name. -/
def scopeMembers (t : Tree) (s : Scope) : List Member :=
  sortBy (fun a b => a.name ≤ b.name)
    (s.leaves.map Leaf.member ++ (t.childScopes s).filterMap Scope.member?)

/-- The members of a namespace, by short name. -/
def members (t : Tree) (ns : Namespace) : List Member :=
  match t.scopeAt? ns.dir with
  | none => []
  | some s => t.scopeMembers s

/-- The files that a member of a scope consists of: those of a leaf, or the root module of a
sub-namespace. -/
def memberFiles (t : Tree) (s : Scope) (m : Member) : List Path :=
  match m.kind with
  | .leafModule =>
    match s.leaves.find? (·.virtualModule = m.target) with
    | some l => l.files
    | none => []
  | .subNamespace =>
    match t.scopes.find? (·.ns.moduleName = m.target) with
    | some child => [child.ns.rootFile]
    | none => []

/-- The files that the digest of a namespace covers: those of its members, in order. -/
def closure (t : Tree) (ns : Namespace) : List Path :=
  match t.scopeAt? ns.dir with
  | none => []
  | some s => (t.scopeMembers s).flatMap (t.memberFiles s)

/-- What a library is made of, from the namespaces at most `depth` levels down: for each namespace
its aliases, its leaves that have an implementation, its sub-namespaces and its root. -/
def collect (t : Tree) : (depth : Nat) → Scope → List String
  | 0, _ => []
  | depth + 1, s =>
    [(Naming.aliasesPath s.ns.rootPath).text]
      ++ (s.leaves.filter Leaf.hasImplementation).map (·.virtualRoot.text)
      ++ (t.childScopes s).flatMap (collect t depth)
      ++ [s.ns.rootPath.text]

/-- What the library of a namespace is made of; none if it produces none. -/
def libraryMembers? (t : Tree) (ns : Namespace) : Option (List String) :=
  if t.isLibrary ns then (t.scopeAt? ns.dir).map (t.collect t.scopes.length) else none

/-- The flat module that a short name stands for directly in a scope; leaves come first. -/
def findMember? (t : Tree) (s : Scope) (name : String) : Option String :=
  ((s.leaves.find? fun l => Naming.moduleName l.stem = name).map (·.virtualModule)).or
    (((t.childScopes s).find? fun c => c.shortName? = some name).map (·.ns.moduleName))

/-- The flat module that a name stands for at a directory: what the innermost enclosing namespace
with such a member makes of it, or a namespace directly below a source root.  `depth` bounds the
steps outwards. -/
def resolveFrom? (t : Tree) (name : String) : (depth : Nat) → (dir : Path) → Option String
  | 0, _ => none
  | depth + 1, dir =>
    match t.scopeAt? dir with
    | none => none
    | some s =>
      match t.findMember? s name with
      | some target => some target
      | none =>
        match s.ns.parent with
        | some above => resolveFrom? t name depth above
        | none => if name ∈ t.topLevel then some name else none

/-- The flat module that a name stands for in a file. -/
def resolve? (t : Tree) (file : NamespacedFile) (name : String) : Option String :=
  t.resolveFrom? name (t.scopes.length + 1) file.dir

/-- The libraries that an executable is linked with, its extension apart. -/
def executableLibraries (t : Tree) (target : Path) : List String :=
  match t.executables.find? (·.target.same (target.withExtension "")) with
  | some e => e.libraries
  | none => []

/-- The paths that rules may ask for because of a tree. -/
def reach (t : Tree) : List Path :=
  t.files.map (·.realPath)
    ++ t.namespaces.flatMap t.closure
    ++ t.namespaces.flatMap fun ns => ((t.libraryMembers? ns).getD []).map memberDepends

/-- The answers that a tree gives to rules. -/
def metadata (t : Tree) : Metadata where
  namespaceAt? dir := (t.scopeAt? dir).map (·.ns)
  closure := t.closure
  members := t.members
  libraryMembers? := t.libraryMembers?
  fileAt? := t.fileAt?
  resolve? := t.resolve?
  executableLibraries := t.executableLibraries
  reach := t.reach

end Tree
end FlatModules
