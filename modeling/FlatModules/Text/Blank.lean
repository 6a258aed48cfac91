import FlatModules.Text.Pieces

/-!
# Text — white space

The white-space class, and the cuts made at it: trimming, words and lines.
-/

namespace FlatModules.Text

/-- White space: the twenty-five characters with the Unicode property of that name. -/
def isBlank (c : Char) : Bool :=
  let n := c.toNat
  (0x9 ≤ n && n ≤ 0xD) || n == 0x20 || n == 0x85 || n == 0xA0 || n == 0x1680 ||
    (0x2000 ≤ n && n ≤ 0x200A) || n == 0x2028 || n == 0x2029 || n == 0x202F || n == 0x205F ||
    n == 0x3000

/-- The text without the white space at its two ends. -/
def trim (cs : List Char) : List Char :=
  ((cs.dropWhile isBlank).reverse.dropWhile isBlank).reverse

/-- The longest runs without white space, in order. -/
def words (cs : List Char) : List (List Char) :=
  (cutAt isBlank cs).filter (· ≠ [])

/-- A line without the carriage return that may end it. -/
def dropReturn (line : List Char) : List Char :=
  (dropTail? ['\r'] line).getD line

/-- The lines of a text.  A line feed, with a carriage return right before it or not, ends a line;
what follows the last line feed is a line only if it is not empty, and keeps a carriage return at
its end. -/
def lines (cs : List Char) : List (List Char) :=
  go (cutAt (· == '\n') cs)
where
  /-- Reads the pieces between line feeds. -/
  go : List (List Char) → List (List Char)
    | [] => []
    | [last] => if last = [] then [] else [last]
    | piece :: rest => dropReturn piece :: go rest

/-- Every character of the core library's class is white space. -/
theorem isBlank_of_isWhitespace {c : Char} (h : c.isWhitespace = true) : isBlank c = true := by
  simp only [Char.isWhitespace, Bool.or_eq_true, decide_eq_true_eq] at h
  rcases h with ((rfl | rfl) | rfl) | rfl <;> decide

theorem words_ne_nil {cs word : List Char} (h : word ∈ words cs) : word ≠ [] := by
  simpa using (List.mem_filter.1 h).2

end FlatModules.Text
