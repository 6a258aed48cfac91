import FlatModules.Config.Decimal
import FlatModules.Config.Value

/-!
# Configuration — plain values

Values that are written without quotes or brackets: truth values, numbers, dates and times.
-/

namespace FlatModules.Document

open Text

/-- A digit of base sixteen. -/
def isHexDigit (c : Char) : Bool :=
  c.isDigit || ('a' ≤ c && c ≤ 'f') || ('A' ≤ c && c ≤ 'F')

/-- The whole number that a text spells. -/
def integer? (cs : List Char) : Option Int :=
  match cs with
  | '0' :: 'x' :: ds => if isDigits isHexDigit ds then some (digitsValue 16 ds) else none
  | '0' :: 'o' :: ds =>
    if isDigits (fun c => '0' ≤ c && c ≤ '7') ds then some (digitsValue 8 ds) else none
  | '0' :: 'b' :: ds =>
    if isDigits (fun c => c == '0' || c == '1') ds then some (digitsValue 2 ds) else none
  | _ =>
    if isWhole (dropSign cs) then some (signedValue cs) else none

/-- Whether a whole number is small enough to be kept: 128 bits, with or without a sign. -/
def isKept (n : Int) : Bool :=
  -Int.pow 2 127 ≤ n && n < Int.pow 2 128

/-- Whether a text spells one of the numbers that have no digits. -/
def isSpecial (cs : List Char) : Bool :=
  cs == ['i', 'n', 'f'] || cs == ['n', 'a', 'n']

/-- The number that exactly `count` digits spell, and what follows them. -/
def fixedDigits? (count : Nat) (cs : List Char) : Option (Nat × List Char) :=
  let digits := cs.take count
  if digits.length = count ∧ digits.all Char.isDigit then
    some (digitsValue 10 digits, cs.drop count)
  else none

/-- The number of days in a month. -/
def daysIn (year month : Nat) : Nat :=
  if month = 2 then
    if year % 4 = 0 ∧ (year % 100 ≠ 0 ∨ year % 400 = 0) then 29 else 28
  else if month = 4 ∨ month = 6 ∨ month = 9 ∨ month = 11 then 30
  else 31

/-- A date; answers with what follows it. -/
def date? (cs : List Char) : Option (List Char) := do
  let (year, cs) ← fixedDigits? 4 cs
  let (month, cs) ← fixedDigits? 2 (← dropHead? ['-'] cs)
  let (day, cs) ← fixedDigits? 2 (← dropHead? ['-'] cs)
  if 1 ≤ month ∧ month ≤ 12 ∧ 1 ≤ day ∧ day ≤ daysIn year month then some cs else none

/-- Seconds with an optional fraction; answers with what follows them. -/
def seconds? (cs : List Char) : Option (List Char) := do
  let (second, cs) ← fixedDigits? 2 cs
  if second > 60 then none
  else
    match cs with
    | '.' :: cs =>
      if (cs.takeWhile Char.isDigit).isEmpty then none else some (cs.dropWhile Char.isDigit)
    | cs => some cs

/-- A time of day, with or without seconds; answers with what follows it. -/
def time? (cs : List Char) : Option (List Char) := do
  let (hour, cs) ← fixedDigits? 2 cs
  let (minute, cs) ← fixedDigits? 2 (← dropHead? [':'] cs)
  if hour > 23 ∨ minute > 59 then none
  else
    match cs with
    | ':' :: cs => seconds? cs
    | cs => some cs

/-- Whether a text is a distance from universal time, or empty. -/
def isOffset (cs : List Char) : Bool :=
  match cs with
  | [] => true
  | ['Z'] => true
  | ['z'] => true
  | sign :: cs =>
    (sign == '+' || sign == '-') &&
      match fixedDigits? 2 cs with
      | some (hour, ':' :: cs) =>
        match fixedDigits? 2 cs with
        | some (minute, []) => hour ≤ 23 && minute ≤ 59
        | _ => false
      | _ => false

/-- Whether a text is a date, a time, or both with or without a distance from universal time. -/
def isMoment (cs : List Char) : Bool :=
  match date? cs with
  | some [] => true
  | some (mark :: rest) =>
    (mark == 'T' || mark == 't' || mark == ' ') && (time? rest).any isOffset
  | none => time? cs == some []

/-- The plain value that a text spells. -/
def scalar? (cs : List Char) : Option Value :=
  if cs == ['t', 'r', 'u', 'e'] then some (.boolean true)
  else if cs == ['f', 'a', 'l', 's', 'e'] then some (.boolean false)
  else
    match integer? cs with
    | some n => if isKept n then some (.integer n) else none
    | none =>
      match decimal? (dropSign cs) with
      | some x => if x.isFinite then some (.float (String.ofList cs)) else none
      | none =>
        if isSpecial (dropSign cs) then some (.float (String.ofList cs))
        else if isMoment cs then some (.moment (String.ofList cs))
        else none

/-- Whether a character ends a plain value. -/
def endsScalar (c : Char) : Bool :=
  c == ' ' || c == '\t' || c == '\n' || c == '\r' || c == ',' || c == ']' || c == '\x7d' || c == '#'

/-- The characters of the plain value at the start of a text, and what follows.  One space between
a date and a time belongs to it. -/
def takeScalar (cs : List Char) : List Char × List Char :=
  let (first, rest) := cutBefore endsScalar cs
  match date? first, rest with
  | some [], ' ' :: d :: rest =>
    if d.isDigit then
      let (second, rest) := cutBefore endsScalar (d :: rest)
      (first ++ ' ' :: second, rest)
    else (first, ' ' :: d :: rest)
  | _, _ => (first, rest)

end FlatModules.Document
