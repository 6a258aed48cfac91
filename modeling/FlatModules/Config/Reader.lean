import FlatModules.Config.Quotes

/-!
# Configuration — reading a document

A document is a sequence of lines: a key with a value, a header of a table, a comment or nothing.
-/

namespace FlatModules.Document

/-- What follows spaces and tabs. -/
def dropSpaces (cs : List Char) : List Char :=
  cs.dropWhile fun c => c == ' ' || c == '\t'

/-- What follows white space, line ends and comments; none if a comment holds a control
character. -/
def dropGap : (inComment : Bool) → List Char → Option (List Char)
  | _, [] => some []
  | _, '\n' :: cs => dropGap false cs
  | _, '\r' :: '\n' :: cs => dropGap false cs
  | true, c :: cs => if isPlain c then dropGap true cs else none
  | false, ' ' :: cs => dropGap false cs
  | false, '\t' :: cs => dropGap false cs
  | false, '#' :: cs => dropGap true cs
  | false, cs => some cs

/-- What follows the end of a line: spaces, a comment and a line end, or the end of the text. -/
def endLine? (cs : List Char) : Option (List Char) :=
  match dropSpaces cs with
  | [] => some []
  | '\n' :: cs => some cs
  | '\r' :: '\n' :: cs => some cs
  | '#' :: cs =>
    match cs.dropWhile isPlain with
    | [] => some []
    | '\n' :: cs => some cs
    | '\r' :: '\n' :: cs => some cs
    | _ => none
  | _ => none

/-- A character of a key without quotes. -/
def isKeyChar (c : Char) : Bool :=
  c.isAlphanum || c == '_' || c == '-'

/-- A key without dots. -/
def simpleKey? (cs : List Char) : Option (String × List Char) :=
  match cs with
  | '"' :: _ => (quotedKey? cs).map fun (key, rest) => (String.ofList key, rest)
  | '\'' :: _ => (quotedKey? cs).map fun (key, rest) => (String.ofList key, rest)
  | _ =>
    let (key, rest) := (cs.takeWhile isKeyChar, cs.dropWhile isKeyChar)
    if key = [] then none else some (String.ofList key, rest)

/-- How many keys a dotted key may join, and how many lists and inline tables may hold one
another. -/
def depthLimit : Nat := 80

/-- A key that joins at most `bound` keys: those before its last dot, and the last; with the spaces
around it. -/
def keyWithin : (bound : Nat) → List Char → Option ((List String × String) × List Char)
  | 0, _ => none
  | bound + 1, cs => do
    let (key, rest) ← simpleKey? (dropSpaces cs)
    match dropSpaces rest with
    | '.' :: rest => do
      let ((path, last), rest) ← keyWithin bound rest
      return ((key :: path, last), rest)
    | rest => return (([], key), rest)

/-- A key, dotted or not. -/
def key? (cs : List Char) : Option ((List String × String) × List Char) :=
  keyWithin depthLimit cs

mutual

/-- A value inside `depth` lists and inline tables. -/
def value? (depth : Nat) : (bound : Nat) → List Char → Option (Value × List Char)
  | 0, _ => none
  | bound + 1, cs =>
    match cs with
    | '[' :: cs => do
      if depth = depthLimit then none
      let (items, rest) ← items? (depth + 1) bound cs
      return (.list items, rest)
    | '\x7b' :: cs => do
      if depth = depthLimit then none
      let (entries, rest) ← inner? (depth + 1) bound [] cs
      return (.table (entriesToValue entries), rest)
    | '"' :: _ => (quotedText? cs).map fun (text, rest) => (.string (String.ofList text), rest)
    | '\'' :: _ => (quotedText? cs).map fun (text, rest) => (.string (String.ofList text), rest)
    | _ =>
      let (spelled, rest) := takeScalar cs
      (scalar? spelled).map (·, rest)

/-- The rest of a list: values with commas between them, and perhaps one at the end. -/
def items? (depth : Nat) : (bound : Nat) → List Char → Option (List Value × List Char)
  | 0, _ => none
  | bound + 1, cs => do
    match ← dropGap false cs with
    | ']' :: rest => return ([], rest)
    | cs =>
      let (item, rest) ← value? depth bound cs
      match ← dropGap false rest with
      | ']' :: rest => return ([item], rest)
      | ',' :: rest =>
        let (items, rest) ← items? depth bound rest
        return (item :: items, rest)
      | _ => none

/-- The rest of an inline table, whose entries so far are given. -/
def inner? (depth : Nat) : (bound : Nat) → Entries → List Char → Option (Entries × List Char)
  | 0, _, _ => none
  | bound + 1, entries, cs => do
    match ← dropGap false cs with
    | '\x7d' :: rest => return (entries, rest)
    | cs =>
      let ((path, key), rest) ← key? cs
      match ← dropGap false rest with
      | '=' :: rest =>
        let (value, rest) ← value? depth bound (← dropGap false rest)
        let entries ← addValue path key value entries
        match ← dropGap false rest with
        | '\x7d' :: rest => return (entries, rest)
        | ',' :: rest => inner? depth bound entries rest
        | _ => none
      | _ => none

end

/-- The document so far, and the path of the table that lines belong to. -/
structure Draft where
  path : List String
  root : Entries

/-- Enters a value into the table at hand. -/
def Draft.enter (s : Draft) (path : List String) (key : String) (v : Value) : Option Draft := do
  let root ← changeAt false (fun _ inner => addValue path key v inner) .header s.path s.root
  return { s with root }

/-- A header, given what follows its opening bracket or brackets. -/
def header? (closing : List Char) (cs : List Char) :
    Option ((List String × String) × List Char) := do
  let (name, rest) ← key? cs
  return (name, ← Text.dropHead? closing rest)

/-- Reads lines to the end. -/
def readLines : (bound : Nat) → Draft → List Char → Option Entries
  | 0, _, _ => none
  | bound + 1, s, cs => do
    match ← dropGap false cs with
    | [] => return s.root
    | '[' :: '[' :: cs =>
      let ((path, key), rest) ← header? [']', ']'] cs
      let root ← addRepeated path key s.root
      readLines bound ⟨path ++ [key], root⟩ (← endLine? rest)
    | '[' :: cs =>
      let ((path, key), rest) ← header? [']'] cs
      let root ← addTable path key s.root
      readLines bound ⟨path ++ [key], root⟩ (← endLine? rest)
    | cs =>
      let ((path, key), rest) ← key? cs
      match rest with
      | '=' :: rest =>
        let (value, rest) ← value? 0 (2 * rest.length + 2) (dropSpaces rest)
        let s ← s.enter path key value
        readLines bound s (← endLine? rest)
      | _ => none

/-- The mark that may open a text and is no part of it. -/
def byteOrderMark : Char := '\uFEFF'

/-- The table that a document spells. -/
def parse? (text : String) : Option (List (String × Value)) := do
  let cs := match text.toList with
    | c :: cs => if c = byteOrderMark then cs else c :: cs
    | [] => []
  let entries ← readLines (cs.length + 1) ⟨[], []⟩ cs
  return entriesToValue entries

end FlatModules.Document
