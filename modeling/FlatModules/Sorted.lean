/-!
# Sorted — lists kept in the order of a key
-/

namespace FlatModules

/-- Puts a value into a list in the order of a key, in place of one with the same key. -/
def insertInOrder {α : Type} (order : α → α → Ordering) (x : α) : List α → List α
  | [] => [x]
  | y :: ys =>
    match order x y with
    | .lt => x :: y :: ys
    | .eq => x :: ys
    | .gt => y :: insertInOrder order x ys

/-- Puts a value before the first of a list that it may precede. -/
def insertBefore {α : Type} (le : α → α → Bool) (x : α) : List α → List α
  | [] => [x]
  | y :: ys => if le x y then x :: y :: ys else y :: insertBefore le x ys

/-- A list in order; values that may precede each other keep their order. -/
def sortBy {α : Type} (le : α → α → Bool) (xs : List α) : List α :=
  xs.foldr (insertBefore le) []

end FlatModules
