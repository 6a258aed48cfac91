import FlatModules.Path.Basic

/-!
# Naming — components, flat names and module names

A directory of sources is named by its components; the flat space of modules knows it by these
joined with `__`.  Components are restricted so that a flat name can be cut back into them.
-/

namespace FlatModules.Naming

open Text

/-- Whether two marks stand side by side. -/
def hasPair (mark : Char) : List Char → Bool
  | a :: b :: cs => (a == mark && b == mark) || hasPair mark (b :: cs)
  | _ => false

/-- The characters that a component may hold after its first. -/
def isComponentChar (c : Char) : Bool :=
  c.isAlphanum || c == '_' || c == '\''

/-- A component: a letter, then letters, digits, underscores and apostrophes, with no two
underscores side by side and none at the end.  Letters and digits are those of ASCII. -/
def isComponent (name : String) : Bool :=
  match name.toList with
  | [] => false
  | first :: rest =>
    first.isAlpha && rest.all isComponentChar && !hasPair '_' (first :: rest) &&
      (first :: rest).getLast? != some '_'

/-- What stands between the components of a flat name. -/
def separator : String := "__"

/-- The name of a directory in the flat space. -/
def flatName (components : List String) : String :=
  String.ofList (joinWith separator.toList (components.map String.toList))

/-- The pieces of a flat name. -/
def componentsOf (flat : String) : List String :=
  (cutAtPair '_' flat.toList).map String.ofList

/-- A name with its first letter capital, if that letter is one of ASCII. -/
def moduleName (stem : String) : String :=
  match stem.toList with
  | [] => ""
  | first :: rest => String.ofList (first.toUpper :: rest)

/-- The part of a file name before its first dot. -/
def beforeDot (name : String) : String :=
  String.ofList (name.toList.takeWhile (· != '.'))

/-- The module that the file at a path holds; empty for a path without a file name. -/
def moduleOfPath (path : Path) : String :=
  moduleName (beforeDot (path.fileName?.getD ""))

/-- The path of a namespace's generated files, extension apart: its flat name beside its
directory. -/
def rootPath (dir : Path) (flat : String) : Path :=
  match dir.parent? with
  | some above => above / ⟨flat⟩
  | none => ⟨flat⟩

/-- The directory that a root path would belong to: the last component of the flat name beside
it. -/
def dirOfRoot? (root : Path) : Option Path := do
  let flat ← root.fileName?
  let components := componentsOf flat
  if components.all isComponent then
    let last ← components.getLast?
    match root.parent? with
    | some above => some (above / ⟨last⟩)
    | none => some ⟨last⟩
  else none

/-- What is written after a root path for the module that collects a namespace's aliases. -/
def aliasesSuffix : String := "___aliases"

/-- The path of a namespace's alias module, extension apart. -/
def aliasesPath (root : Path) : Path :=
  root.append aliasesSuffix

/-- What is written after a source for the record of its dependencies. -/
def dependsSuffix : String := ".depends"

end FlatModules.Naming
