import Mathlib.Data.List.Basic
import Mathlib.Data.List.Induction
import FlatModules.Sorted

/-!
# Sorted — what the ordered lists hold

`insertInOrder` keeps a list strictly in order, so that no two of its members have one key; and
`sortBy` rearranges a list into the only order that it can have (`sortBy_eq_of_perm`).
-/

namespace FlatModules

section InsertInOrder

variable {α : Type} {order : α → α → Ordering} {x y : α} {ys : List α}

theorem mem_of_mem_insertInOrder (h : y ∈ insertInOrder order x ys) : y = x ∨ y ∈ ys := by
  induction ys with
  | nil => simpa [insertInOrder] using h
  | cons z zs ih =>
    unfold insertInOrder at h
    split at h
    · simpa using h
    · rcases List.mem_cons.1 h with e | h
      · exact .inl e
      · exact .inr (List.mem_cons_of_mem _ h)
    · rcases List.mem_cons.1 h with e | h
      · exact .inr (List.mem_cons.2 (.inl e))
      · exact (ih h).imp_right (List.mem_cons_of_mem _)

theorem mem_insertInOrder_self (order : α → α → Ordering) (x : α) (ys : List α) :
    x ∈ insertInOrder order x ys := by
  induction ys with
  | nil => simp [insertInOrder]
  | cons z zs ih =>
    unfold insertInOrder
    split
    · simp
    · simp
    · exact List.mem_cons_of_mem _ ih

/-- Only a member with the same key is lost. -/
theorem mem_insertInOrder_of_mem (h : y ∈ ys) (ne : order x y ≠ .eq) :
    y ∈ insertInOrder order x ys := by
  induction ys with
  | nil => simp at h
  | cons z zs ih =>
    unfold insertInOrder
    split
    case h_1 => exact List.mem_cons_of_mem _ h
    case h_2 e =>
      rcases List.mem_cons.1 h with rfl | h
      · exact absurd e ne
      · exact List.mem_cons_of_mem _ h
    case h_3 =>
      rcases List.mem_cons.1 h with rfl | h
      · exact List.mem_cons_self
      · exact List.mem_cons_of_mem _ (ih h)

/-- A list stays strictly in order. -/
theorem pairwise_insertInOrder [Std.TransCmp order] (h : ys.Pairwise (order · · = .lt)) :
    (insertInOrder order x ys).Pairwise (order · · = .lt) := by
  induction ys with
  | nil => simp [insertInOrder]
  | cons z zs ih =>
    obtain ⟨first, rest⟩ := List.pairwise_cons.1 h
    unfold insertInOrder
    split
    case h_1 e =>
      refine List.pairwise_cons.2 ⟨fun w hw => ?_, h⟩
      rcases List.mem_cons.1 hw with rfl | hw
      · exact e
      · exact Std.TransCmp.lt_trans e (first w hw)
    case h_2 e =>
      exact List.pairwise_cons.2 ⟨fun w hw => Std.TransCmp.lt_of_eq_of_lt e (first w hw), rest⟩
    case h_3 e =>
      refine List.pairwise_cons.2 ⟨fun w hw => ?_, ih rest⟩
      rcases mem_of_mem_insertInOrder hw with rfl | hw
      · exact Std.OrientedCmp.lt_of_gt e
      · exact first w hw

/-- Members of a list strictly in order that have one key are one. -/
theorem eq_of_pairwise_lt {c : α → α → Ordering} [Std.TransCmp c] (h : ys.Pairwise (c · · = .lt))
    (hx : x ∈ ys) (hy : y ∈ ys) (e : c x y = .eq) : x = y := by
  induction h with
  | nil => simp at hx
  | cons first _ ih =>
    rcases List.mem_cons.1 hx with rfl | hx'
    · rcases List.mem_cons.1 hy with rfl | hy'
      · rfl
      · rw [first y hy'] at e
        simp at e
    · rcases List.mem_cons.1 hy with rfl | hy'
      · have lt := first x hx'
        rw [Std.OrientedCmp.eq_symm e] at lt
        simp at lt
      · exact ih hx' hy'

/-- Lists strictly in order that have the same members are one. -/
theorem eq_of_pairwise_lt_of_mem_iff {c : α → α → Ordering} [Std.TransCmp c] {xs : List α}
    (hx : xs.Pairwise (c · · = .lt)) (hy : ys.Pairwise (c · · = .lt))
    (same : ∀ x, x ∈ xs ↔ x ∈ ys) : xs = ys := by
  have self (a : α) : c a a = .eq := Std.ReflCmp.compare_self
  have nodup {zs : List α} (h : zs.Pairwise (c · · = .lt)) : zs.Nodup :=
    h.imp fun {a b} lt e => by simp [e, self] at lt
  have perm : xs.Perm ys := (List.perm_ext_iff_of_nodup (nodup hx) (nodup hy)).2 same
  have asymm (a b : α) (lt : c a b = .lt) : c b a ≠ .lt := Std.OrientedCmp.not_lt_of_lt lt
  exact perm.eq_of_pairwise (fun a b _ _ lt lt' => absurd lt' (asymm a b lt)) hx hy

/-- What a list in order holds afterwards: what was put in, and what has another key. -/
theorem mem_insertInOrder_iff_of_pairwise {c : α → α → Ordering} [Std.TransCmp c]
    (h : ys.Pairwise (c · · = .lt)) :
    y ∈ insertInOrder c x ys ↔ y = x ∨ y ∈ ys ∧ c x y ≠ .eq := by
  constructor
  · intro mem
    by_cases same : y = x
    · exact .inl same
    · refine .inr ⟨(mem_of_mem_insertInOrder mem).resolve_left same, fun e => same ?_⟩
      exact (eq_of_pairwise_lt (pairwise_insertInOrder h) (mem_insertInOrder_self _ _ _) mem e).symm
  · rintro (rfl | ⟨mem, ne⟩)
    · exact mem_insertInOrder_self _ _ _
    · exact mem_insertInOrder_of_mem mem ne

/-- A value with a key of its own comes to the others. -/
theorem insertInOrder_perm (fresh : ∀ z ∈ ys, order x z ≠ .eq) :
    (insertInOrder order x ys).Perm (x :: ys) := by
  induction ys with
  | nil => exact .refl _
  | cons z zs ih =>
    unfold insertInOrder
    split
    case h_1 => exact .refl _
    case h_2 e => exact absurd e (fresh z List.mem_cons_self)
    case h_3 =>
      exact ((ih fun w hw => fresh w (List.mem_cons_of_mem _ hw)).cons z).trans (.swap x z zs)

end InsertInOrder

/-- The first member with a property is the only one that has it. -/
theorem find?_eq_some_of_unique {α : Type} {p : α → Bool} {x : α} {xs : List α} (hx : x ∈ xs)
    (hp : p x = true) (h : ∀ y ∈ xs, p y = true → y = x) : xs.find? p = some x := by
  cases e : xs.find? p with
  | none => exact absurd hp (List.find?_eq_none.1 e x hx)
  | some y => rw [h y (List.mem_of_find?_eq_some e) (List.find?_some e)]

section SortBy

variable {α : Type} {le : α → α → Bool} {x y : α} {xs ys : List α}

theorem insertBefore_perm (le : α → α → Bool) (x : α) (xs : List α) :
    (insertBefore le x xs).Perm (x :: xs) := by
  induction xs with
  | nil => exact .refl _
  | cons z zs ih =>
    unfold insertBefore
    split
    · exact .refl _
    · exact (ih.cons z).trans (.swap x z zs)

theorem sortBy_perm (le : α → α → Bool) (xs : List α) : (sortBy le xs).Perm xs := by
  induction xs with
  | nil => exact .refl _
  | cons x xs ih => exact (insertBefore_perm le x _).trans (ih.cons x)

theorem mem_sortBy : x ∈ sortBy le xs ↔ x ∈ xs :=
  (sortBy_perm le xs).mem_iff

theorem pairwise_insertBefore (total : ∀ a b, le a b = true ∨ le b a = true)
    (trans : ∀ a b c, le a b = true → le b c = true → le a c = true)
    (h : xs.Pairwise (le · · = true)) : (insertBefore le x xs).Pairwise (le · · = true) := by
  induction xs with
  | nil => simp [insertBefore]
  | cons z zs ih =>
    obtain ⟨first, rest⟩ := List.pairwise_cons.1 h
    unfold insertBefore
    split
    case isTrue e =>
      refine List.pairwise_cons.2 ⟨fun w hw => ?_, h⟩
      rcases List.mem_cons.1 hw with rfl | hw
      · exact e
      · exact trans _ _ _ e (first w hw)
    case isFalse e =>
      refine List.pairwise_cons.2 ⟨fun w hw => ?_, ih rest⟩
      rcases List.mem_cons.1 ((insertBefore_perm le x zs).mem_iff.1 hw) with rfl | hw
      · exact (total _ _).resolve_left e
      · exact first w hw

theorem pairwise_sortBy (total : ∀ a b, le a b = true ∨ le b a = true)
    (trans : ∀ a b c, le a b = true → le b c = true → le a c = true) (xs : List α) :
    (sortBy le xs).Pairwise (le · · = true) := by
  induction xs with
  | nil => simp [sortBy]
  | cons x xs ih => exact pairwise_insertBefore total trans ih

/-- A list has one order in which it can be put, if different members differ in key. -/
theorem sortBy_eq_of_perm (total : ∀ a b, le a b = true ∨ le b a = true)
    (trans : ∀ a b c, le a b = true → le b c = true → le a c = true)
    (anti : ∀ a ∈ xs, ∀ b ∈ xs, le a b = true → le b a = true → a = b) (h : xs.Perm ys) :
    sortBy le xs = sortBy le ys :=
  List.Perm.eq_of_pairwise
    (fun a b ha hb => anti a (mem_sortBy.1 ha) b (h.mem_iff.2 (mem_sortBy.1 hb)))
    (pairwise_sortBy total trans xs) (pairwise_sortBy total trans ys)
    ((sortBy_perm le xs).trans (h.trans (sortBy_perm le ys).symm))

/-- Sorting keeps the first of the values that may precede each other. -/
theorem find?_sortBy {p : α → Bool} (h : ∀ a b, p a = true → p b = true → le a b = true) :
    (sortBy le xs).find? p = xs.find? p := by
  have insert (x : α) (ys : List α) : (insertBefore le x ys).find? p = (x :: ys).find? p := by
    induction ys with
    | nil => rfl
    | cons y ys ih =>
      unfold insertBefore
      split
      case isTrue => rfl
      case isFalse after =>
        rw [List.find?_cons, ih]
        by_cases hy : p y = true
        · have hx : p x = false := Bool.eq_false_iff.2 fun hx => after (h x y hx hy)
          simp [hx, hy]
        · simp [List.find?_cons, hy]
  induction xs with
  | nil => rfl
  | cons x xs ih =>
    change (insertBefore le x (sortBy le xs)).find? p = _
    rw [insert, List.find?_cons, List.find?_cons, ih]

end SortBy

/-- A relation holds all along a list if each value has it to those before. -/
theorem pairwise_of_split {α : Type} {R : α → α → Prop} {xs : List α}
    (h : ∀ front x back, xs = front ++ x :: back → ∀ y ∈ front, R y x) : xs.Pairwise R := by
  induction xs using List.reverseRecOn with
  | nil => exact .nil
  | append_singleton xs x ih =>
    refine List.pairwise_append.2 ⟨ih fun front y back e => ?_, by simp, ?_⟩
    · exact h front y (back ++ [x]) (by rw [e, List.append_assoc, List.cons_append])
    · intro y hy z hz
      rw [List.mem_singleton.1 hz]
      exact h xs x [] rfl y hy

end FlatModules
