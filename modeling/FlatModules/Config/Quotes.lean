import FlatModules.Config.Scalar

/-!
# Configuration — quoted text

The four ways to write a text in a document: in double quotes, where a backslash begins an escape,
or in single quotes, where it does not; and each on one line, or in triple quotes on several.
-/

namespace FlatModules.Document

/-- A character that may stand in a document: no control character but the tab. -/
def isPlain (c : Char) : Bool :=
  c == '\t' || (0x20 ≤ c.toNat && c.toNat != 0x7F)

/-- Puts a character before what has been read. -/
def put (c : Char) : Option (List Char × List Char) → Option (List Char × List Char)
  | some (text, rest) => some (c :: text, rest)
  | none => none

/-- The number that hexadecimal digits spell. -/
def hexNumber? (cs : List Char) : Option Nat :=
  if cs.all isHexDigit then some (digitsValue 16 cs) else none

/-- The character of a given code, if there is one. -/
def charOf? (code : Nat) : Option Char :=
  if h : code.isValidChar then some (Char.ofNatAux code h) else none

/-- The character that a letter after a backslash stands for. -/
def shortEscape? : Char → Option Char
  | 'b' => some '\x08'
  | 't' => some '\t'
  | 'n' => some '\n'
  | 'f' => some '\x0c'
  | 'r' => some '\r'
  | 'e' => some '\x1b'
  | '"' => some '"'
  | '\\' => some '\\'
  | _ => none

/-- The character of an escape, given what follows the backslash. -/
def escape? : List Char → Option (Char × List Char)
  | [] => none
  | c :: cs =>
    let count := if c = 'x' then 2 else if c = 'u' then 4 else if c = 'U' then 8 else 0
    if count = 0 then (shortEscape? c).map (·, cs)
    else if (cs.take count).length < count then none
    else do
      let char ← charOf? (← hexNumber? (cs.take count))
      return (char, cs.drop count)

/-- The rest of a text in double quotes.  Each reader answers with what it read and what follows;
where it has a bound on its steps, the length of the input is enough. -/
def basic : (bound : Nat) → List Char → Option (List Char × List Char)
  | 0, _ => none
  | _, [] => none
  | _, '"' :: cs => some ([], cs)
  | bound + 1, '\\' :: cs => do
    let (c, cs) ← escape? cs
    put c (basic bound cs)
  | bound + 1, c :: cs => if isPlain c then put c (basic bound cs) else none

/-- The rest of a text in single quotes. -/
def literal : List Char → Option (List Char × List Char)
  | [] => none
  | '\'' :: cs => some ([], cs)
  | c :: cs => if isPlain c then put c (literal cs) else none

/-- How many of the first five characters in a row are the mark. -/
def runLength (mark : Char) (cs : List Char) : Nat :=
  ((cs.take 5).takeWhile (· == mark)).length

/-- What follows white space and line ends. -/
def dropBlankLines : List Char → List Char
  | ' ' :: cs => dropBlankLines cs
  | '\t' :: cs => dropBlankLines cs
  | '\n' :: cs => dropBlankLines cs
  | '\r' :: '\n' :: cs => dropBlankLines cs
  | cs => cs

/-- What follows a backslash at the end of a line: the next line that is not blank, from its first
character on. -/
def joinLine? (cs : List Char) : Option (List Char) :=
  match cs.dropWhile fun c => c == ' ' || c == '\t' with
  | '\n' :: cs => some (dropBlankLines cs)
  | '\r' :: '\n' :: cs => some (dropBlankLines cs)
  | _ => none

/-- The rest of a text in triple double quotes.  Up to two quotes may stand before the closing
three. -/
def basicLines : (bound : Nat) → List Char → Option (List Char × List Char)
  | 0, _ => none
  | _, [] => none
  | bound + 1, '"' :: cs =>
    let quotes := runLength '"' ('"' :: cs)
    if 3 ≤ quotes then some (List.replicate (quotes - 3) '"', cs.drop (quotes - 1))
    else put '"' (basicLines bound cs)
  | bound + 1, '\\' :: cs =>
    match joinLine? cs with
    | some cs => basicLines bound cs
    | none => do
      let (c, cs) ← escape? cs
      put c (basicLines bound cs)
  | bound + 1, '\n' :: cs => put '\n' (basicLines bound cs)
  | bound + 1, '\r' :: '\n' :: cs => put '\r' (put '\n' (basicLines bound cs))
  | bound + 1, c :: cs => if isPlain c then put c (basicLines bound cs) else none

/-- The rest of a text in triple single quotes. -/
def literalLines : List Char → Option (List Char × List Char)
  | [] => none
  | '\'' :: cs =>
    let quotes := runLength '\'' ('\'' :: cs)
    if 3 ≤ quotes then some (List.replicate (quotes - 3) '\'', cs.drop (quotes - 1))
    else put '\'' (literalLines cs)
  | '\n' :: cs => put '\n' (literalLines cs)
  | '\r' :: '\n' :: cs => put '\r' (put '\n' (literalLines cs))
  | c :: cs => if isPlain c then put c (literalLines cs) else none

/-- A line end right after opening triple quotes does not count. -/
def dropFirstLineEnd : List Char → List Char
  | '\n' :: cs => cs
  | '\r' :: '\n' :: cs => cs
  | cs => cs

/-- A quoted text on one line. -/
def quotedKey? : List Char → Option (List Char × List Char)
  | '"' :: cs => basic (cs.length + 1) cs
  | '\'' :: cs => literal cs
  | _ => none

/-- A quoted text. -/
def quotedText? : List Char → Option (List Char × List Char)
  | '"' :: '"' :: '"' :: cs => basicLines (cs.length + 1) (dropFirstLineEnd cs)
  | '\'' :: '\'' :: '\'' :: cs => literalLines (dropFirstLineEnd cs)
  | cs => quotedKey? cs

end FlatModules.Document
