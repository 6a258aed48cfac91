import FlatModules.Path.Basic
import FlatModules.Text.Blank

/-!
# Build — failures

A failure has an identity, so that the same failure met twice can be told from two failures of one
wording.  A `FailureTable` keeps failures by key; what it holds under a key never changes.
-/

namespace FlatModules

open Text

/-- Why a target was not built.  Two handles mean the same failure when their numbers agree. -/
structure Failure where
  id : Nat
  target : Path
  message : String
deriving DecidableEq

/-- The wording of a failure. -/
def Failure.text (f : Failure) : String :=
  "failed to build " ++ f.target.text ++ ": " ++ f.message

/-- What became of a target, or of a batch of alternatives. -/
abbrev Outcome := Except Failure Path

/-- Failures by key. -/
structure FailureTable where
  entries : List (String × Failure)

namespace FailureTable

/-- The table without entries. -/
def empty : FailureTable := ⟨[]⟩

/-- The failure under a key. -/
def get? (t : FailureTable) (key : String) : Option Failure :=
  t.entries.lookup key

/-- Enters a failure under a key that has none yet; the table is the same otherwise. -/
def insert (t : FailureTable) (key : String) (f : Failure) : FailureTable :=
  match t.get? key with
  | some _ => t
  | none => ⟨(key, f) :: t.entries⟩

/-- The number of keys. -/
def size (t : FailureTable) : Nat := t.entries.length

theorem get?_insert_of_some {t : FailureTable} {key : String} {f g : Failure}
    (h : t.get? key = some f) : (t.insert key g).get? key = some f := by
  simp [insert, h]

theorem get?_insert_of_none {t : FailureTable} {key : String} {f : Failure}
    (h : t.get? key = none) : (t.insert key f).get? key = some f := by
  unfold insert
  rw [h]
  simp [get?]

theorem get?_insert_of_ne {t : FailureTable} {key other : String} {f : Failure}
    (h : other ≠ key) : (t.insert key f).get? other = t.get? other := by
  unfold insert
  split
  · rfl
  · simp [get?, List.lookup_cons, beq_false_of_ne h]

end FailureTable

/-- What opens the target that stands for "the rule does not apply". -/
def signalOpen : String := "<<nsbuild:inapplicable:"

/-- What closes that target; no rule produces a target that ends so. -/
def signalClose : String := ">>"

/-- A character of a message as it stands in such a target. -/
def signalChar (c : Char) : Char :=
  if isBlank c || c == ':' then '_' else c

/-- The target that stands for "the rule does not apply to `target`, for the reason `message`". -/
def signalKey (target : Path) (message : String) : String :=
  signalOpen ++ target.text ++ ":" ++ String.ofList (message.toList.map signalChar) ++ signalClose

end FlatModules
