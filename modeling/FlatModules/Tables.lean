import FlatModules.Build.Local

/-!
# Tables — metadata by listing

Metadata given by finite tables, which need not agree with one another as those of a tree do.
-/

namespace FlatModules

/-- The answers of metadata, listed. -/
structure Tables where
  namespaces : List Namespace := []
  files : List NamespacedFile := []
  /-- By the directory of a namespace, as are the next two. -/
  closures : List (Path × List Path) := []
  members : List (Path × List Member) := []
  libraries : List (Path × List String) := []
  /-- What names stand for, in every file. -/
  names : List (String × String) := []
  executables : List (Path × List String) := []

namespace Tables

/-- The metadata that tables give. -/
def metadata (t : Tables) : Metadata where
  namespaceAt? dir := t.namespaces.find? (·.dir.same dir)
  closure ns := (lookupPath? ns.dir t.closures).getD []
  members ns := (lookupPath? ns.dir t.members).getD []
  libraryMembers? ns := lookupPath? ns.dir t.libraries
  fileAt? path := t.files.find? (·.virtualPath.same path)
  resolve? _ name := t.names.lookup name
  executableLibraries target := (lookupPath? target t.executables).getD []
  reach := t.files.map (·.realPath) ++ t.closures.flatMap (·.2)
    ++ t.libraries.flatMap fun (_, members) => members.map memberDepends

end Tables
end FlatModules
