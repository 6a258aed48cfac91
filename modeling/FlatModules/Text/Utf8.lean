/-!
# Text — bytes

Reading bytes as text: exactly, where ill-formed bytes are refused, and leniently, where each
longest ill-formed run that could have begun a character becomes one replacement character.
-/

namespace FlatModules.Text

/-- The text that the bytes encode, if they are well-formed UTF-8. -/
def ofUtf8? (bytes : ByteArray) : Option String := String.fromUTF8? bytes

/-- The character shown for an ill-formed run. -/
def replacement : Char := '\uFFFD'

/-- A byte that may continue a character begun by others. -/
def isContinuation (b : UInt8) : Bool := 0x80 ≤ b && b ≤ 0xBF

/-- How many continuation bytes a first byte announces, and the range of the first of them; none
for a byte that begins no character. -/
def leadByte (b : UInt8) : Option (Nat × UInt8 × UInt8) :=
  if b ≤ 0x7F then some (0, 0x80, 0xBF)
  else if b < 0xC2 then none
  else if b ≤ 0xDF then some (1, 0x80, 0xBF)
  else if b == 0xE0 then some (2, 0xA0, 0xBF)
  else if b == 0xED then some (2, 0x80, 0x9F)
  else if b ≤ 0xEF then some (2, 0x80, 0xBF)
  else if b == 0xF0 then some (3, 0x90, 0xBF)
  else if b ≤ 0xF3 then some (3, 0x80, 0xBF)
  else if b == 0xF4 then some (3, 0x80, 0x8F)
  else none

/-- The bits that a first byte with `more` continuation bytes contributes. -/
def leadBits (more : Nat) (b : UInt8) : Nat :=
  match more with
  | 0 => b.toNat
  | 1 => b.toNat % 0x20
  | 2 => b.toNat % 0x10
  | _ => b.toNat % 0x08

/-- What has been read of the character at hand: nothing, or its bits so far, the number of bytes
it still needs and the range of the next one. -/
inductive Reading where
  | fresh
  | within (bits more : Nat) (low high : UInt8)

/-- Starts a character at `b`. -/
def beginAt (b : UInt8) : List Char × Reading :=
  match leadByte b with
  | none => ([replacement], .fresh)
  | some (0, _, _) => ([Char.ofNat b.toNat], .fresh)
  | some (more, low, high) => ([], .within (leadBits more b) more low high)

/-- Reads one byte: the characters that it completes, and what is open after it. -/
def readByte : Reading → UInt8 → List Char × Reading
  | .fresh, b => beginAt b
  | .within bits more low high, b =>
    if low ≤ b && b ≤ high then
      let bits := bits * 0x40 + b.toNat % 0x40
      if more ≤ 1 then ([Char.ofNat bits], .fresh)
      else ([], .within bits (more - 1) 0x80 0xBF)
    else
      let (shown, next) := beginAt b
      (replacement :: shown, next)

/-- Reads bytes to the end, where an unfinished character is ill-formed. -/
def readBytes : Reading → List UInt8 → List Char
  | .fresh, [] => []
  | .within .., [] => [replacement]
  | reading, b :: bytes =>
    let (shown, next) := readByte reading b
    shown ++ readBytes next bytes

/-- The text that the bytes encode, with a replacement character for each ill-formed run. -/
def ofUtf8Lossy (bytes : ByteArray) : String :=
  match ofUtf8? bytes with
  | some text => text
  | none => String.ofList (readBytes .fresh bytes.toList)

end FlatModules.Text
