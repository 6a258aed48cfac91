import FlatModules.Naming

/-!
# Namespaces — what a directory of sources stands for

The records that the rules work on: namespaces, their members and the source files in them; and
`Metadata`, all that a rule may ask about them.
-/

namespace FlatModules

/-- The two kinds of source file. -/
inductive SourceKind where
  | interface
  | implementation
deriving DecidableEq

namespace SourceKind

/-- The file extension of the kind. -/
def extension : SourceKind → String
  | interface => "mli"
  | implementation => "ml"

/-- The kind of the file at a path, by its extension. -/
def ofPath? (path : Path) : Option SourceKind :=
  match path.extension? with
  | some "mli" => some interface
  | some "ml" => some implementation
  | _ => none

end SourceKind

/-- A directory below a source root. -/
structure Namespace where
  /-- The directory, below the project. -/
  dir : Path
  /-- The names from the source root down to the directory. -/
  components : List String
  /-- The components joined. -/
  flatName : String
  /-- The name in the flat space of modules. -/
  moduleName : String
  /-- The generated files without their extensions. -/
  rootPath : Path
  /-- The enclosing namespace, if the directory is not directly below its source root. -/
  parent : Option Path
deriving DecidableEq

namespace Namespace

/-- The generated root module. -/
def rootFile (ns : Namespace) : Path :=
  ns.rootPath.withExtension SourceKind.implementation.extension

/-- The name of the library that the namespace may produce. -/
def libraryName (ns : Namespace) : String := ns.flatName

end Namespace

/-- What a member of a namespace is. -/
inductive MemberKind where
  | leafModule
  | subNamespace
deriving DecidableEq

/-- A member of a namespace: its short name inside, and the flat module that this stands for. -/
structure Member where
  name : String
  target : String
  kind : MemberKind
deriving DecidableEq

/-- A source file of a namespace. -/
structure NamespacedFile where
  /-- The path under the flat name, at which the build sees the file. -/
  virtualPath : Path
  /-- The path at which the file lies. -/
  realPath : Path
  /-- The module name that the file would have by itself. -/
  ownModule : String
  /-- The module name in the flat space. -/
  virtualModule : String
  kind : SourceKind
  /-- The directory of the namespace. -/
  dir : Path
deriving DecidableEq

/-- The file that holds the dependencies of a library member, given with or without the extension
of an implementation. -/
def memberDepends (member : String) : Path :=
  let ending := "." ++ SourceKind.implementation.extension
  let source :=
    if (Text.dropTail? ending.toList member.toList).isSome then member else member ++ ending
  Path.append ⟨source⟩ Naming.dependsSuffix

/-- What a rule may ask about the namespaces of a project. -/
structure Metadata where
  /-- The namespace at a directory. -/
  namespaceAt? : Path → Option Namespace
  /-- The files that the digest of a namespace covers. -/
  closure : Namespace → List Path
  /-- The members of a namespace, by short name. -/
  members : Namespace → List Member
  /-- What the library of a namespace is made of; none if it produces no library. -/
  libraryMembers? : Namespace → Option (List String)
  /-- The source file that the build sees at a path. -/
  fileAt? : Path → Option NamespacedFile
  /-- The flat module that a raw name stands for in a file. -/
  resolve? : NamespacedFile → String → Option String
  /-- The libraries that an executable is linked with. -/
  executableLibraries : Path → List String
  /-- The paths that a rule may ask the engine for because of these answers: real files, closures
  and dependency records of library members. -/
  reach : List Path

end FlatModules
