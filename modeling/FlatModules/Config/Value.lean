import FlatModules.Text.Pieces

/-!
# Configuration — documents

The value of a configuration document, and the tables that its lines build up.  A document says
each thing once: a key, a header of a table, and what an inline table or a list holds are final.
-/

namespace FlatModules.Document

/-- A value of a document. -/
inductive Value where
  | string (text : String)
  | integer (value : Int)
  | float (text : String)
  | boolean (value : Bool)
  | moment (text : String)
  | list (items : List Value)
  | table (entries : List (String × Value))

/-- How a table came to be. -/
inductive Origin where
  /-- By a header of its own, or as the document. -/
  | header
  /-- On the way of another table's header. -/
  | implied
  /-- On the way of a dotted key. -/
  | dotted
deriving DecidableEq

/-- What a key stands for while a document is read. -/
inductive Node where
  | value (v : Value)
  | table (origin : Origin) (entries : List (String × Node))
  /-- The tables under repeated headers: the latest, and the earlier ones backwards. -/
  | tables (latest : List (String × Node)) (earlier : List (List (String × Node)))

mutual

/-- The value that a node ends up as. -/
def Node.toValue : Node → Value
  | .value v => v
  | .table _ entries => .table (entriesToValue entries)
  | .tables latest earlier =>
    .list (.table (entriesToValue latest) :: itemsToValue earlier).reverse

/-- The entries of a table, as values. -/
def entriesToValue : List (String × Node) → List (String × Value)
  | [] => []
  | (key, node) :: rest => (key, node.toValue) :: entriesToValue rest

/-- Tables, as values. -/
def itemsToValue : List (List (String × Node)) → List Value
  | [] => []
  | entries :: rest => .table (entriesToValue entries) :: itemsToValue rest

end

/-- The entries of a table while a document is read. -/
abbrev Entries := List (String × Node)

/-- The entries with another node under a key that they have. -/
def replace (key : String) (node : Node) (entries : Entries) : Entries :=
  entries.map fun (k, n) => if k = key then (k, node) else (k, n)

/-- Changes the table at the end of a path of keys by `f`, which also learns how that table came to
be.  Missing tables on the way are made.  A dotted path does not pass through a table that has a
header of its own; a path through repeated headers means the last of their tables. -/
def changeAt (isDotted : Bool) (f : Origin → Entries → Option Entries) :
    Origin → List String → Entries → Option Entries
  | origin, [], entries => f origin entries
  | _, key :: path, entries =>
    match entries.lookup key with
    | none => do
      let origin : Origin := if isDotted then .dotted else .implied
      let inner ← changeAt isDotted f origin path []
      return entries ++ [(key, .table origin inner)]
    | some (.table origin inner) =>
      if isDotted ∧ origin = .header then none
      else do
        let inner ← changeAt isDotted f origin path inner
        return replace key (.table origin inner) entries
    | some (.tables latest earlier) => do
      let latest ← changeAt isDotted f .header path latest
      return replace key (.tables latest earlier) entries
    | some (.value _) => none

/-- Enters a value under a new key. -/
def addNew (key : String) (v : Value) (entries : Entries) : Option Entries :=
  match entries.lookup key with
  | none => some (entries ++ [(key, .value v)])
  | some _ => none

/-- Enters a value under a dotted key, given by the keys before the last dot and the last. -/
def addValue (path : List String) (key : String) (v : Value) (entries : Entries) :
    Option Entries :=
  changeAt true
    (fun origin inner => if path ≠ [] ∧ origin ≠ .dotted then none else addNew key v inner)
    .header path entries

/-- Begins the table of a header. -/
def addTable (path : List String) (key : String) (entries : Entries) : Option Entries :=
  changeAt false
    (fun _ inner =>
      match inner.lookup key with
      | none => some (inner ++ [(key, .table .header [])])
      | some (.table .implied held) => some (replace key (.table .header held) inner)
      | some _ => none)
    .header path entries

/-- Begins one more table of a repeated header. -/
def addRepeated (path : List String) (key : String) (entries : Entries) : Option Entries :=
  changeAt false
    (fun _ inner =>
      match inner.lookup key with
      | none => some (inner ++ [(key, .tables [] [])])
      | some (.tables latest earlier) => some (replace key (.tables [] (latest :: earlier)) inner)
      | some _ => none)
    .header path entries

end FlatModules.Document
