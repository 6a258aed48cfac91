import FlatModules.Path.Basic

/-!
# Build — patterns

A pattern is a text in which the first `%` stands for a stem, which may be any text but the empty
one.
-/

namespace FlatModules

open Text

/-- A pattern for targets. -/
structure Pattern where
  text : String
deriving DecidableEq

namespace Pattern

/-- The stem that a target has under the pattern. -/
def stem? (p : Pattern) (target : Path) : Option String := do
  let (front, back) ← cutOnce '%' p.text.toList
  let stem ← dropTail? back (← dropHead? front target.text.toList)
  if stem = [] then none else some (String.ofList stem)

/-- The path that the pattern gives for a stem. -/
def fill (p : Pattern) (stem : String) : Path :=
  match cutOnce '%' p.text.toList with
  | none => ⟨p.text⟩
  | some (front, back) => ⟨String.ofList (front ++ stem.toList ++ back)⟩

/-- The pattern of all targets with a given ending. -/
def ending (text : String) : Pattern := ⟨"%" ++ text⟩

theorem stem?_ending_eq_some_iff {text stem : String} {target : Path} :
    (ending text).stem? target = some stem ↔ target.text = stem ++ text ∧ stem ≠ "" := by
  have cut : cutOnce '%' (ending text).text.toList = some ([], text.toList) := by
    simp [ending, cutOnce]
  simp only [stem?, cut, Option.bind_eq_bind, Option.bind_some, dropHead?]
  cases h : dropTail? text.toList target.text.toList with
  | none =>
    simp only [Option.bind_none, reduceCtorEq, false_iff, not_and]
    intro e
    have : dropTail? text.toList target.text.toList = some stem.toList :=
      dropTail?_eq_some_iff.2 (by simp [e])
    simp [h] at this
  | some rest =>
    have e := dropTail?_eq_some_iff.1 h
    simp only [Option.bind_some]
    constructor
    · intro h'
      split at h'
      · simp at h'
      · obtain rfl := Option.some.inj h'
        refine ⟨String.toList_inj.1 (by simp [e]), ?_⟩
        intro empty
        simp_all
    · rintro ⟨e', ne⟩
      have : rest = stem.toList := by
        have := e.symm.trans (congrArg String.toList e')
        simpa using this
      subst this
      simp [ne]

end Pattern
end FlatModules
