import FlatModules.Proofs.Build.Keys
import FlatModules.Proofs.Path.Below
import Mathlib.Data.List.TakeWhile

/-!
# Paths — how a path is spelled

A spelling is cut behind its last slash (`Path.Spelled`).  What comes after the slash is what the
endings of rules are told by; if it is empty or a dot, the path has no ending at all
(`Spelled.not_idle`), and otherwise it is the last name of the path (`Spelled.names_eq`).
-/

namespace FlatModules

open Text

namespace Path

variable {p q : Path} {above last stem e : String}

/-- A path whose spelling after its last slash is `last`. -/
structure Spelled (p : Path) (above last : String) : Prop where
  text : p.text = above ++ last
  noSlash : '/' ∉ last.toList
  above : above = "" ∨ above.toList.getLast? = some '/'

/-- Whether what is spelled after the last slash names nothing. -/
def Idle (last : String) : Prop := last = "" ∨ last = "."

instance (last : String) : Decidable (Idle last) := inferInstanceAs (Decidable (_ ∨ _))

theorem exists_spelled (p : Path) : ∃ above last, p.Spelled above last := by
  have split := List.takeWhile_append_dropWhile (p := (· != '/')) (l := p.text.toList.reverse)
  refine ⟨String.ofList (p.text.toList.reverse.dropWhile (· != '/')).reverse,
    String.ofList (p.text.toList.reverse.takeWhile (· != '/')).reverse, ?_, ?_, ?_⟩
  · refine String.toList_inj.1 ?_
    rw [← String.ofList_append, ← List.reverse_append, split]
    simp
  · simp only [String.toList_ofList, List.mem_reverse]
    intro slash
    simpa using List.mem_takeWhile_imp slash
  · cases e : p.text.toList.reverse.dropWhile (· != '/') with
    | nil => exact .inl rfl
    | cons c cs =>
      have := List.head_dropWhile_not (p := (· != '/')) (l := p.text.toList.reverse) (by simp [e])
      simp only [e, List.head_cons, bne_eq_false_iff_eq] at this
      exact .inr (by simp [this])

namespace Spelled

theorem segments_eq (h : p.Spelled above last) : ∃ front, p.segments = front ++ [last.toList] := by
  have noSlash : ∀ c ∈ last.toList, (c == '/') = false := fun c hc =>
    beq_false_of_ne fun e => h.noSlash (e ▸ hc)
  rcases h.above with rfl | slash
  · refine ⟨[], ?_⟩
    rw [segments, h.text, String.empty_append, cutAt_of_notMem]
    · rfl
    · exact noSlash
  · obtain ⟨cs, e⟩ := List.getLast?_eq_some_iff.1 slash
    refine ⟨cutAt (· == '/') cs, ?_⟩
    rw [segments, h.text, String.toList_append, e, List.append_assoc, List.singleton_append,
      cutAt_append_cons (by simp), cutAt_of_notMem noSlash]

theorem names_eq (h : p.Spelled above last) (proper : ¬ Idle last) :
    ∃ front, p.names = front ++ [last] := by
  obtain ⟨front, e⟩ := h.segments_eq
  have proper : last.toList ≠ [] ∧ last.toList ≠ ['.'] :=
    ⟨fun e => proper (.inl (String.toList_inj.1 e)), fun e => proper (.inr (String.toList_inj.1 e))⟩
  refine ⟨namesOf front, ?_⟩
  rw [names, e, namesOf_append, namesOf_cons proper]
  simp

/-- An ending without a slash is one of what comes after the last slash. -/
theorem exists_of_text (h : p.Spelled above last) (noSlash : '/' ∉ e.toList)
    (text : p.text = stem ++ e) : ∃ x, last = x ++ e ∧ stem = above ++ x := by
  have same := congrArg String.toList (h.text.symm.trans text)
  rw [String.toList_append, String.toList_append] at same
  rcases List.append_eq_append_iff.1 same with ⟨x, stem_eq, last_eq⟩ | ⟨c, above_eq, e_eq⟩
  · exact ⟨String.ofList x, String.toList_inj.1 (by simpa using last_eq),
      String.toList_inj.1 (by simpa using stem_eq)⟩
  · obtain rfl | ⟨c, x, rfl⟩ := c.eq_nil_or_concat'
    · exact ⟨"", String.toList_inj.1 (by simpa using e_eq.symm),
        String.toList_inj.1 (by simpa using above_eq.symm)⟩
    · have slash : x = '/' := by
        rcases h.above with rfl | slash
        · simp at above_eq
        · rw [above_eq] at slash
          simpa using slash
      exact absurd (by simp [e_eq, slash]) noSlash

/-- A path below another one is spelled as it is after its last slash. -/
theorem div (h : q.Spelled above last) (p : Path) : ∃ above', (p / q).Spelled above' last := by
  cases absolute : q.isAbsolute with
  | true =>
    have same : p / q = q := if_pos absolute
    exact ⟨above, by rwa [same]⟩
  | false =>
    refine ⟨p.front ++ above, ?_, h.noSlash, ?_⟩
    · rw [div_eq_front absolute, h.text, String.append_assoc]
    · rcases h.above with rfl | slash
      · simpa using p.front_eq_or
      · right
        rw [String.toList_append, List.getLast?_append, slash]
        rfl

end Spelled
end Path
end FlatModules
