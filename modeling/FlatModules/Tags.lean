/-!
# Tags — sorted sets of names
-/

namespace FlatModules

/-- A set of tags, in order and without repetition. -/
structure Tags where
  names : List String
deriving DecidableEq

namespace Tags

/-- No tags. -/
def none : Tags := ⟨[]⟩

/-- Puts a name into its place in a list in order. -/
def insertName (name : String) : List String → List String
  | [] => [name]
  | n :: names =>
    if name = n then n :: names
    else if name < n then name :: n :: names
    else n :: insertName name names

/-- The tags with one more. -/
def insert (tags : Tags) (name : String) : Tags :=
  ⟨insertName name tags.names⟩

/-- The tags with further ones. -/
def addAll (tags : Tags) (names : List String) : Tags :=
  names.foldl insert tags

/-- The tags in either set. -/
def union (s t : Tags) : Tags :=
  s.addAll t.names

/-- The set of the listed tags. -/
def ofList (names : List String) : Tags :=
  none.addAll names

/-- Whether a tag is in the set. -/
def contains (tags : Tags) (name : String) : Bool :=
  tags.names.contains name

theorem mem_insertName {x name : String} {names : List String} :
    x ∈ insertName name names ↔ x = name ∨ x ∈ names := by
  induction names with
  | nil => simp [insertName]
  | cons n names ih =>
    unfold insertName
    split
    · simp_all
    · split
      · simp
      · simp only [List.mem_cons, ih]
        constructor
        · rintro (h | h | h) <;> simp [h]
        · rintro (h | h | h) <;> simp [h]

theorem mem_addAll {x : String} {tags : Tags} {names : List String} :
    x ∈ (tags.addAll names).names ↔ x ∈ tags.names ∨ x ∈ names := by
  induction names generalizing tags with
  | nil => simp [addAll]
  | cons n names ih =>
    have step : tags.addAll (n :: names) = (tags.insert n).addAll names := rfl
    rw [step, ih]
    simp only [insert, mem_insertName, List.mem_cons]
    constructor
    · rintro ((h | h) | h) <;> simp [h]
    · rintro (h | h | h) <;> simp [h]

end Tags
end FlatModules
