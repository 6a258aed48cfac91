import FlatModules.Text.Pieces

/-!
# Configuration — digits and decimals

How digits spell numbers, and the numbers with a fraction or an exponent.  Such a number is kept as
a double, so it must round to a finite one.  Rounding goes to the nearest, and half way to the even
one: `Decimal.bound`, half way between the largest double and the next power of two, is too large.
-/

namespace FlatModules.Document

open Text

/-- One or more digits, with single underscores between them allowed. -/
def isDigits (isDigit : Char → Bool) (cs : List Char) : Bool :=
  (cutAt (· == '_') cs).all fun piece => piece ≠ [] && piece.all isDigit

/-- Takes a sign off. -/
def dropSign : List Char → List Char
  | '+' :: cs => cs
  | '-' :: cs => cs
  | cs => cs

/-- The value of a digit in any base up to sixteen. -/
def digitValue (c : Char) : Nat :=
  if c.isDigit then c.toNat - 48 else if c.isUpper then c.toNat - 55 else c.toNat - 87

/-- Digits without the underscores between them. -/
def bareDigits (cs : List Char) : List Char := cs.filter (· ≠ '_')

/-- The number that digits spell, underscores apart. -/
def digitsValue (base : Nat) (cs : List Char) : Nat :=
  (bareDigits cs).foldl (fun n c => n * base + digitValue c) 0

/-- The number that decimal digits after an optional sign spell. -/
def signedValue (cs : List Char) : Int :=
  let n : Int := digitsValue 10 (dropSign cs)
  if cs.head? = some '-' then -n else n

/-- A whole number without sign in the usual notation: no zero before other digits. -/
def isWhole (cs : List Char) : Bool :=
  isDigits Char.isDigit cs && (cs.head? != some '0' || cs == ['0'])

/-- Cuts before the first character that `stop` picks out. -/
def cutBefore (stop : Char → Bool) (cs : List Char) : List Char × List Char :=
  (cs.takeWhile (!stop ·), cs.dropWhile (!stop ·))

/-- A decimal without its sign: the number that `digits` spell, times `10 ^ exponent`. -/
structure Decimal where
  digits : List Char
  exponent : Int
deriving DecidableEq

namespace Decimal

/-- The least number that no double holds: half way from the largest double to `2 ^ 1024`. -/
def bound : Nat := Nat.pow 2 1024 - Nat.pow 2 970

/-- The number of decimal digits of `bound`. -/
def boundLength : Int := 309

/-- Whether a double holds a decimal.  Powers of ten are computed only where the number of digits
does not decide. -/
def isFinite (x : Decimal) : Bool :=
  let value := digitsValue 10 x.digits
  if value = 0 ∨ x.digits.length + x.exponent < boundLength then true
  else if boundLength < x.exponent then false
  else value * Nat.pow 10 x.exponent.toNat < bound * Nat.pow 10 (-x.exponent).toNat

end Decimal

/-- The letter before an exponent. -/
def isExponentMark (c : Char) : Bool := c == 'e' || c == 'E'

/-- The exponent that a text spells with its mark; no text spells zero. -/
def exponent? : List Char → Option Int
  | [] => some 0
  | _ :: cs => if isDigits Char.isDigit (dropSign cs) then some (signedValue cs) else none

/-- The number with a fraction, an exponent or both that a text without sign spells. -/
def decimal? (cs : List Char) : Option Decimal :=
  let (whole, rest) := cutBefore (fun c => c == '.' || isExponentMark c) cs
  if isWhole whole then
    match rest with
    | [] => none
    | '.' :: rest =>
      let (places, rest) := cutBefore isExponentMark rest
      if isDigits Char.isDigit places then
        (exponent? rest).map fun e => ⟨bareDigits (whole ++ places), e - (bareDigits places).length⟩
      else none
    | _ => (exponent? rest).map fun e => ⟨bareDigits whole, e⟩
  else none

end FlatModules.Document
