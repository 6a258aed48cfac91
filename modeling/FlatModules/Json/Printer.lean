import FlatModules.Text.Quoted

/-!
# JSON — printing

The text of a JSON value over several lines.
-/

namespace FlatModules

open Text

/-- The JSON values that are printed. -/
inductive Json where
  | null
  | boolean (value : Bool)
  | text (value : String)
  | list (items : List Json)
  | record (fields : List (String × Json))

namespace Json

/-- One character inside quotes. -/
def escapeChar (c : Char) : List Char :=
  match c with
  | '"' => ['\\', '"']
  | '\\' => ['\\', '\\']
  | '\x08' => ['\\', 'b']
  | '\x0c' => ['\\', 'f']
  | '\n' => ['\\', 'n']
  | '\r' => ['\\', 'r']
  | '\t' => ['\\', 't']
  | c =>
    if c.toNat < 0x20 then
      let digits := hex c.toNat
      ['\\', 'u'] ++ List.replicate (4 - digits.length) '0' ++ digits
    else [c]

/-- A text in quotes. -/
def quote (text : String) : String :=
  String.ofList ('"' :: text.toList.flatMap escapeChar ++ ['"'])

/-- The start of a line at a given level. -/
def newLine (level : Nat) : String :=
  "\n" ++ String.ofList (List.replicate (2 * level) ' ')

/-- Items in brackets, each on lines of its own one level further in. -/
def bracket (opening closing : String) (level : Nat) (items : List String) : String :=
  if items = [] then opening ++ closing
  else
    let lines := items.map (newLine (level + 1) ++ ·)
    opening ++ ",".intercalate lines ++ newLine level ++ closing

mutual

/-- The text of a value whose first line is begun at a given level. -/
def printAt (level : Nat) : Json → String
  | null => "null"
  | boolean true => "true"
  | boolean false => "false"
  | text value => quote value
  | list items => bracket "[" "]" level (printItems (level + 1) items)
  | record fields => bracket "\x7b" "\x7d" level (printFields (level + 1) fields)

/-- The texts of the items of a list. -/
def printItems (level : Nat) : List Json → List String
  | [] => []
  | item :: rest => printAt level item :: printItems level rest

/-- The texts of the fields of a record. -/
def printFields (level : Nat) : List (String × Json) → List String
  | [] => []
  | (key, value) :: rest => (quote key ++ ": " ++ printAt level value) :: printFields level rest

end

/-- The text of a value. -/
def print (value : Json) : String := printAt 0 value

end Json
end FlatModules
