import FlatModules.Proofs.Path.Names

/-!
# Paths — straight down

A relative path without `..` that ends in a name leads straight down to it (`Path.Straight`).  What
it leads to below another path is spelled by the names of both (`Straight.names_div`).
-/

namespace FlatModules

open Text

namespace Path

/-- A path is absolute exactly if its parts begin at the root. -/
theorem isAbsolute_iff {p : Path} : p.isAbsolute = true ↔ p.parts.head? = some .root := by
  unfold isAbsolute parts segments
  cases p.text.toList with
  | nil => simp [cutAt, partsOf]
  | cons c cs =>
    by_cases slash : c = '/'
    · subst slash
      obtain ⟨piece, rest, e⟩ := List.exists_cons_of_ne_nil (cutAt_ne_nil (· == '/') cs)
      simp [cutAt, partsOf, e]
    · have no_root (segments : List (List Char)) :
          (segments.filterMap part?).head? ≠ some .root := by
        intro h
        obtain ⟨s, -, hs⟩ := List.mem_filterMap.1 (List.mem_of_head? h)
        unfold part? at hs
        split at hs
        · simp at hs
        · split at hs <;> simp at hs
      obtain ⟨piece, rest, e⟩ := List.exists_cons_of_ne_nil (cutAt_ne_nil (· == '/') cs)
      have segments : cutAt (· == '/') (c :: cs) = (c :: piece) :: rest := by
        simp [cutAt, slash, e]
      rw [segments]
      have false_ : ((c :: cs).head? == some '/') = false := by simpa using slash
      rw [false_]
      simp only [Bool.false_eq_true, false_iff]
      unfold partsOf
      split
      case h_1 e => simp at e
      case h_2 e => simp at e
      case h_3 e => simp at e
      case h_4 => simp
      case h_5 s ss _ _ _ e =>
        rw [← e]
        exact no_root _

theorem isAbsolute_congr {p q : Path} (h : p.parts = q.parts) : p.isAbsolute = q.isAbsolute := by
  rw [Bool.eq_iff_iff, isAbsolute_iff, isAbsolute_iff, h]

/-- Names after a path make no difference to where it starts. -/
theorem isAbsolute_of_parts {p q : Path} {names : List String}
    (h : p.parts = q.parts ++ names.map Part.name) : p.isAbsolute = q.isAbsolute := by
  rw [Bool.eq_iff_iff, isAbsolute_iff, isAbsolute_iff, h]
  cases q.parts with
  | nil => cases names <;> simp
  | cons part rest => simp

/-- What is spelled by names after a path is so below any other one. -/
theorem names_div_of_parts {p q : Path} {names : List String}
    (h : p.parts = q.parts ++ names.map Part.name) (base : Path) :
    (base / p).names = (base / q).names ++ names := by
  have start := isAbsolute_of_parts h
  cases absolute : q.isAbsolute with
  | true =>
    have itself {p : Path} (h : p.isAbsolute = true) : base / p = p := if_pos h
    rw [itself (start.trans absolute), itself absolute, names_of_parts h]
  | false =>
    rw [names_div_relative (start.trans absolute), names_div_relative absolute, names_of_parts h,
      List.append_assoc]

/-- A path below one that is relative is relative. -/
theorem isAbsolute_div {p : Path} {name : String} (h : IsName name)
    (relative : p.isAbsolute = false) : (p / ⟨name⟩).isAbsolute = false := by
  rw [Bool.eq_false_iff, ne_eq, isAbsolute_iff] at relative ⊢
  rw [parts_div h]
  cases parts_ : p.parts with
  | nil => simp
  | cons part rest => simpa [parts_] using relative

/-- A name below a relative path is below both that and what the path is below. -/
theorem div_div {base q : Path} {name : String} (h : IsName name)
    (relative : q.isAbsolute = false) (ne : q.text ≠ "") : base / (q / ⟨name⟩) = base / q / ⟨name⟩ := by
  have front : (base / q).front = base.front ++ q.front := by
    have chars : q.text.toList ≠ [] := fun e => ne (String.toList_inj.1 e)
    have last : (base.front ++ q.text).toList.getLast? = q.text.toList.getLast? := by
      rw [String.toList_append, List.getLast?_append_of_ne_nil _ chars]
    have front_of (p : Path) (ne : p.text ≠ "") :
        p.front = if p.text.toList.getLast? = some '/' then p.text else p.text ++ "/" := by
      simp [Path.front, ne]
    rw [div_eq_front relative, front_of _ (by simp [ne]), front_of q ne, last]
    split <;> simp [String.append_assoc]
  rw [div_eq_front (isAbsolute_div h relative), div_eq h, div_eq h, front, String.append_assoc]

/-- The last name of a relative path is the last one below any path. -/
theorem EndsIn.div {q : Path} {last : String} (h : q.EndsIn last) (relative : q.isAbsolute = false)
    (p : Path) : (p / q).EndsIn last := by
  obtain ⟨front, e, ne, ne'⟩ := h
  rw [div_eq_front relative]
  rcases p.front_eq_or with empty | slash
  · refine ⟨front, ?_, ne, ne'⟩
    rw [empty, String.empty_append]
    exact e
  · obtain ⟨cs, text⟩ := List.getLast?_eq_some_iff.1 slash
    refine ⟨cutAt (· == '/') cs ++ front, ?_, ne, ne'⟩
    rw [segments, String.toList_append, text, List.append_assoc, List.singleton_append,
      cutAt_append_cons (by simp), List.append_assoc, ← e, segments]

/-- A relative path that leads over the names in front straight down to a last one. -/
structure Straight (p : Path) (front : List String) (last : String) : Prop where
  relative : p.isAbsolute = false
  ends : p.EndsIn last
  names : p.names = front ++ [last]
  noUp : ".." ∉ front ++ [last]

namespace Straight

variable {p : Path} {front : List String} {last : String}

theorem names_div (h : p.Straight front last) (base : Path) :
    (base / p).names = base.names ++ front ++ [last] := by
  rw [names_div_relative h.relative, h.names, List.append_assoc]

theorem ends_div (h : p.Straight front last) (base : Path) : (base / p).EndsIn last :=
  h.ends.div h.relative base

theorem ne_up (h : p.Straight front last) : last ≠ ".." := by
  rintro rfl
  exact h.noUp (by simp)

theorem noUp_front (h : p.Straight front last) : ".." ∉ front :=
  fun mem => h.noUp (List.mem_append_left _ mem)

end Straight

/-- A file below a source leads straight down from there, whatever spells its directory. -/
theorem straight_of_parts {source q : Path} {components : List String} {file : String}
    (relative : source.isAbsolute = false) (noUp : ".." ∉ source.names)
    (e : q.parts = source.parts ++ components.map Part.name) (hc : ∀ c ∈ components, IsName c)
    (hf : IsName file) : (q / ⟨file⟩).Straight (source.names ++ components) file where
  relative := by
    refine isAbsolute_div hf ?_
    rw [Bool.eq_false_iff, ne_eq, isAbsolute_iff] at relative ⊢
    rw [e]
    cases parts_ : source.parts with
    | nil => cases components <;> simp
    | cons part rest => simpa [parts_] using relative
  ends := endsIn_div hf
  names := by rw [names_div hf, names_of_parts e]
  noUp := by
    simp only [List.mem_append, List.mem_singleton, not_or]
    exact ⟨⟨noUp, fun mem => (hc _ mem).ne_up rfl⟩, hf.ne_up.symm⟩

end Path
end FlatModules
