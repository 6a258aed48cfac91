/-!
# Text — pieces

Cutting a list of characters at marked characters, joining pieces again, and taking a known
beginning or ending off.  Joining is the inverse of cutting: `joinWith_cutAt`.
-/

namespace FlatModules.Text

/-- The pieces between the characters that `mark` picks out, in order; the marked characters are
dropped.  There is always at least one piece. -/
def cutAt (mark : Char → Bool) : List Char → List (List Char)
  | [] => [[]]
  | c :: cs =>
    if mark c then [] :: cutAt mark cs
    else match cutAt mark cs with
      | [] => [[c]]
      | piece :: rest => (c :: piece) :: rest

/-- The pieces in order, with `separator` between neighbours. -/
def joinWith (separator : List Char) : List (List Char) → List Char
  | [] => []
  | [piece] => piece
  | piece :: rest => piece ++ separator ++ joinWith separator rest

/-- What follows `head` in `cs`, if `cs` begins with it. -/
def dropHead? : (head cs : List Char) → Option (List Char)
  | [], cs => some cs
  | _ :: _, [] => none
  | h :: head, c :: cs => if h = c then dropHead? head cs else none

/-- What precedes `tail` in `cs`, if `cs` ends with it. -/
def dropTail? (tail cs : List Char) : Option (List Char) :=
  (dropHead? tail.reverse cs.reverse).map List.reverse

/-- The parts before and after the first `mark`, if there is one. -/
def cutOnce (mark : Char) : List Char → Option (List Char × List Char)
  | [] => none
  | c :: cs =>
    if c = mark then some ([], cs)
    else (cutOnce mark cs).map fun (before, after) => (c :: before, after)

/-- The parts between occurrences of two marks in a row, read from the left: of three marks the
first two separate and the third begins the next part. -/
def cutAtPair (mark : Char) : List Char → List (List Char)
  | [] => [[]]
  | [c] => [[c]]
  | a :: b :: cs =>
    if a = mark ∧ b = mark then [] :: cutAtPair mark cs
    else match cutAtPair mark (b :: cs) with
      | [] => [[a]]
      | piece :: rest => (a :: piece) :: rest

theorem cutAt_ne_nil (mark : Char → Bool) (cs : List Char) : cutAt mark cs ≠ [] := by
  induction cs with
  | nil => simp [cutAt]
  | cons c cs ih =>
    unfold cutAt
    split
    · simp
    · split <;> simp

theorem joinWith_cons_of_ne_nil (separator piece : List Char) {rest : List (List Char)}
    (h : rest ≠ []) :
    joinWith separator (piece :: rest) = piece ++ separator ++ joinWith separator rest := by
  cases rest with
  | nil => exact absurd rfl h
  | cons _ _ => rfl

/-- Nothing but the separators is lost by cutting. -/
theorem joinWith_cutAt (c : Char) (cs : List Char) : joinWith [c] (cutAt (· == c) cs) = cs := by
  induction cs with
  | nil => rfl
  | cons d cs ih =>
    unfold cutAt
    split
    case isTrue h =>
      rw [joinWith_cons_of_ne_nil _ _ (cutAt_ne_nil _ _), ih]
      simp_all
    case isFalse h =>
      split
      case h_1 h' => exact absurd h' (cutAt_ne_nil _ _)
      case h_2 piece rest h' =>
        rw [h'] at ih
        cases rest with
        | nil => simp_all [joinWith]
        | cons _ _ => simp_all [joinWith]

theorem dropHead?_eq_some_iff {head cs rest : List Char} :
    dropHead? head cs = some rest ↔ cs = head ++ rest := by
  induction head generalizing cs with
  | nil => simp [dropHead?, eq_comm]
  | cons h head ih =>
    cases cs with
    | nil => simp [dropHead?]
    | cons c cs =>
      by_cases e : h = c
      · simp [dropHead?, e, ih]
      · simp [dropHead?, e, Ne.symm e]

theorem dropTail?_eq_some_iff {tail cs rest : List Char} :
    dropTail? tail cs = some rest ↔ cs = rest ++ tail := by
  simp only [dropTail?, Option.map_eq_some_iff, dropHead?_eq_some_iff]
  constructor
  · rintro ⟨front, h, rfl⟩
    simpa using congrArg List.reverse h
  · rintro rfl
    exact ⟨rest.reverse, by simp, by simp⟩

end FlatModules.Text
