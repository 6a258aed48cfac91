import Mathlib.Data.List.Basic
import FlatModules.Naming

/-!
# Naming — flat names can be cut back

The restrictions on components make the separator readable: a flat name is cut back into the
components that it was joined from (`componentsOf_flatName`), so that different lists of components
have different flat names (`flatName_inj`), and none of them ends like an alias module
(`flatName_ne_append_aliases`).
-/

namespace FlatModules

open Text

namespace Text

/-- A list of characters that a cut at pairs of `mark` leaves whole, also with a pair after it. -/
structure Uncut (mark : Char) (cs : List Char) : Prop where
  noPair : Naming.hasPair mark cs = false
  noEnd : cs.getLast? ≠ some mark

theorem Uncut.tail {mark c : Char} {cs : List Char} (h : Uncut mark (c :: cs)) :
    Uncut mark cs := by
  cases cs with
  | nil => exact ⟨rfl, by simp⟩
  | cons d cs =>
    have pair := h.noPair
    simp only [Naming.hasPair, Bool.or_eq_false_iff] at pair
    exact ⟨pair.2, by simpa [List.getLast?_cons_cons] using h.noEnd⟩

theorem hasPair_append_pair (mark : Char) (cs ds : List Char) :
    Naming.hasPair mark (cs ++ mark :: mark :: ds) = true := by
  induction cs with
  | nil => simp [Naming.hasPair]
  | cons c cs ih =>
    obtain ⟨d, rest, e⟩ := List.exists_cons_of_ne_nil
      (show cs ++ mark :: mark :: ds ≠ [] by simp)
    rw [List.cons_append, e, Naming.hasPair, ← e, ih, Bool.or_true]

theorem cutAtPair_ne_nil (mark : Char) (cs : List Char) : cutAtPair mark cs ≠ [] := by
  fun_cases cutAtPair mark cs <;> simp_all

/-- Nothing but pairs is lost by cutting at them. -/
theorem mem_cutAtPair {mark c : Char} (ne : c ≠ mark) {cs : List Char} (h : c ∈ cs) :
    ∃ piece ∈ cutAtPair mark cs, c ∈ piece := by
  fun_induction cutAtPair mark cs with
  | case1 => simp at h
  | case2 a => exact ⟨[a], by simp, h⟩
  | case3 a b cs pair ih =>
    obtain ⟨rfl, rfl⟩ := pair
    obtain ⟨piece, mem, hc⟩ := ih (by simpa [ne] using h)
    exact ⟨piece, List.mem_cons_of_mem _ mem, hc⟩
  | case4 a b cs apart e => exact absurd e (cutAtPair_ne_nil _ _)
  | case5 a b cs apart piece rest e ih =>
    rcases List.mem_cons.1 h with rfl | h
    · exact ⟨_, List.mem_cons_self, List.mem_cons_self⟩
    · obtain ⟨other, mem, hc⟩ := ih h
      rcases List.mem_cons.1 (e ▸ mem) with rfl | mem
      · exact ⟨_, List.mem_cons_self, List.mem_cons_of_mem _ hc⟩
      · exact ⟨other, List.mem_cons_of_mem _ mem, hc⟩

/-- A list without a pair is one piece. -/
theorem cutAtPair_of_noPair {mark : Char} {cs : List Char}
    (h : Naming.hasPair mark cs = false) : cutAtPair mark cs = [cs] := by
  induction cs with
  | nil => rfl
  | cons a cs ih =>
    cases cs with
    | nil => rfl
    | cons b cs =>
      simp only [Naming.hasPair, Bool.or_eq_false_iff, Bool.and_eq_false_iff, beq_eq_false_iff_ne]
        at h
      have apart : ¬ (a = mark ∧ b = mark) := fun e => h.1.elim (· e.1) (· e.2)
      rw [cutAtPair, if_neg apart, ih h.2]

/-- A pair after a list that it does not touch ends the first piece. -/
theorem cutAtPair_append {mark : Char} {cs : List Char} (h : Uncut mark cs) (rest : List Char) :
    cutAtPair mark (cs ++ mark :: mark :: rest) = cs :: cutAtPair mark rest := by
  induction cs with
  | nil => simp [cutAtPair]
  | cons a cs ih =>
    have cut := ih h.tail
    cases cs with
    | nil =>
      have ne : a ≠ mark := fun e => h.noEnd (by simp [e])
      simp only [List.nil_append, List.cons_append] at cut ⊢
      rw [cutAtPair, if_neg fun e => ne e.1, cut]
    | cons b cs =>
      have pair := h.noPair
      simp only [Naming.hasPair, Bool.or_eq_false_iff, Bool.and_eq_false_iff,
        beq_eq_false_iff_ne] at pair
      have apart : ¬ (a = mark ∧ b = mark) := fun e => pair.1.elim (· e.1) (· e.2)
      simp only [List.cons_append] at cut ⊢
      rw [cutAtPair, if_neg apart, cut]

/-- Pieces joined by pairs are cut back into themselves; the last one may end in a mark. -/
theorem cutAtPair_joinWith {mark : Char} {last : List Char} (pieces : List (List Char))
    (hp : ∀ p ∈ pieces, Uncut mark p) (hl : Naming.hasPair mark last = false) :
    cutAtPair mark (joinWith [mark, mark] (pieces ++ [last])) = pieces ++ [last] := by
  induction pieces with
  | nil => exact cutAtPair_of_noPair hl
  | cons p pieces ih =>
    have rest := ih fun q hq => hp q (List.mem_cons_of_mem _ hq)
    rw [List.cons_append, joinWith_cons_of_ne_nil _ _ (by simp)]
    simp only [List.append_assoc, List.cons_append, List.nil_append]
    rw [cutAtPair_append (hp p List.mem_cons_self), rest]

theorem joinWith_append_singleton {separator : List Char} {pieces : List (List Char)}
    (h : pieces ≠ []) (last : List Char) :
    joinWith separator (pieces ++ [last]) = joinWith separator pieces ++ separator ++ last := by
  induction pieces with
  | nil => exact absurd rfl h
  | cons p pieces ih =>
    cases pieces with
    | nil => rfl
    | cons q pieces =>
      rw [List.cons_append, joinWith_cons_of_ne_nil _ _ (by simp), ih (by simp),
        joinWith_cons_of_ne_nil _ p (by simp)]
      simp

end Text

namespace Naming

theorem isComponent_iff {name : String} :
    isComponent name = true ↔
      ∃ first rest, name.toList = first :: rest ∧ first.isAlpha ∧ (∀ c ∈ rest, isComponentChar c) ∧
        Uncut '_' (first :: rest) := by
  unfold isComponent
  split
  case h_1 e => simp [e]
  case h_2 first rest e =>
    simp only [Bool.and_eq_true, List.all_eq_true, Bool.not_eq_true', bne_iff_ne, ne_eq]
    constructor
    · rintro ⟨⟨⟨alpha, chars⟩, pair⟩, last⟩
      exact ⟨first, rest, e, alpha, chars, pair, last⟩
    · rintro ⟨f, r, e', alpha, chars, pair, last⟩
      obtain ⟨rfl, rfl⟩ := List.cons.inj (e.symm.trans e')
      exact ⟨⟨⟨alpha, chars⟩, pair⟩, last⟩

theorem uncut_of_isComponent {name : String} (h : isComponent name = true) :
    Uncut '_' name.toList := by
  obtain ⟨first, rest, e, -, -, uncut⟩ := isComponent_iff.1 h
  rwa [e]

theorem isComponentChar_of_isComponent {name : String} (h : isComponent name = true) {c : Char}
    (hc : c ∈ name.toList) : isComponentChar c = true := by
  obtain ⟨first, rest, e, alpha, chars, -⟩ := isComponent_iff.1 h
  rw [e, List.mem_cons] at hc
  rcases hc with rfl | hc
  · simp [isComponentChar, Char.isAlphanum, alpha]
  · exact chars c hc

theorem dot_notMem_of_isComponent {name : String} (h : isComponent name = true) :
    '.' ∉ name.toList := fun hc => by
  exact absurd (isComponentChar_of_isComponent h hc) (by decide)

/-- Cutting the flat name of components followed by any text without a pair of underscores. -/
theorem componentsOf_flatName_append {components : List String} {last : String}
    (h : ∀ c ∈ components, isComponent c = true) (hl : hasPair '_' last.toList = false) :
    componentsOf (flatName (components ++ [last])) = components ++ [last] := by
  have cut := cutAtPair_joinWith (components.map String.toList)
    (by simpa using fun c hc => uncut_of_isComponent (h c hc)) hl
  simp only [componentsOf, flatName, separator, List.map_append, List.map_cons, List.map_nil,
    String.toList_ofList]
  rw [show ("__" : String).toList = ['_', '_'] from rfl, cut]
  simp

/-- A flat name is cut back into the components that it was joined from. -/
theorem componentsOf_flatName {components : List String} (hne : components ≠ [])
    (h : ∀ c ∈ components, isComponent c = true) :
    componentsOf (flatName components) = components := by
  obtain ⟨front, last, rfl⟩ := (List.eq_nil_or_concat' components).resolve_left hne
  have hl := (uncut_of_isComponent (h last (by simp))).noPair
  exact componentsOf_flatName_append (fun c hc => h c (List.mem_append_left _ hc)) hl

/-- Different lists of components have different flat names. -/
theorem flatName_inj {cs ds : List String} (hc : cs ≠ []) (hd : ds ≠ [])
    (hcs : ∀ c ∈ cs, isComponent c = true) (hds : ∀ d ∈ ds, isComponent d = true)
    (h : flatName cs = flatName ds) : cs = ds := by
  rw [← componentsOf_flatName hc hcs, h, componentsOf_flatName hd hds]

/-- The flat name of more components is joined from the shorter one. -/
theorem flatName_append_singleton {cs : List String} (h : cs ≠ []) (last : String) :
    flatName (cs ++ [last]) = flatName [flatName cs, last] := by
  simp only [flatName, List.map_append, List.map_cons, List.map_nil, String.toList_ofList]
  rw [joinWith_append_singleton (by simpa using h)]
  rfl

/-- No three underscores stand side by side in a flat name. -/
theorem flatName_ne_append_triple {components : List String}
    (h : ∀ c ∈ components, isComponent c = true) (a b : List Char) :
    (flatName components).toList ≠ a ++ '_' :: '_' :: '_' :: b := by
  simp only [flatName, separator, String.toList_ofList]
  induction components generalizing a with
  | nil => simp [joinWith]
  | cons c cs ih =>
    have uncut := uncut_of_isComponent (h c List.mem_cons_self)
    have ih := ih fun d hd => h d (List.mem_cons_of_mem _ hd)
    cases cs with
    | nil =>
      intro e
      rw [List.map_singleton, joinWith] at e
      exact absurd uncut.noPair (by rw [e]; simp [hasPair_append_pair])
    | cons d ds =>
      rw [List.map_cons, joinWith_cons_of_ne_nil _ _ (by simp)]
      generalize hg : joinWith "__".toList ((d :: ds).map String.toList) = g at ih ⊢
      have head : ∀ gs, g ≠ '_' :: gs := by
        rintro gs rfl
        obtain ⟨first, rest, e, alpha, -⟩ := isComponent_iff.1 (h d (by simp))
        have : first = '_' := by
          cases ds with
          | nil => simpa [joinWith, e] using congrArg List.head? hg
          | cons _ _ =>
            rw [List.map_cons, joinWith_cons_of_ne_nil _ _ (by simp), e] at hg
            simpa using congrArg List.head? hg
        subst this
        revert alpha
        decide
      intro e
      replace e : c.toList ++ '_' :: '_' :: g = a ++ '_' :: '_' :: '_' :: b := by simpa using e
      -- the three marks begin after `c`, or in it
      rcases List.append_eq_append_iff.1 e with ⟨a', -, e⟩ | ⟨c', ec, e⟩
      · cases a' with
        | nil => exact head b (by simpa using e)
        | cons _ a' =>
          have e := (List.cons.inj e).2
          cases a' with
          | nil => exact head ('_' :: b) (by simpa using e)
          | cons _ a' => exact ih a' (List.cons.inj e).2
      · cases c' with
        | nil => exact head b (by simpa using e.symm)
        | cons x c' =>
          obtain ⟨rfl, rest⟩ := List.cons.inj e
          cases c' with
          | nil => exact uncut.noEnd (by simp [ec])
          | cons y c' =>
            obtain ⟨rfl, -⟩ := List.cons.inj rest
            exact absurd uncut.noPair (by rw [ec, hasPair_append_pair]; decide)

/-- No flat name ends like an alias module. -/
theorem flatName_ne_append_aliases {components : List String}
    (h : ∀ c ∈ components, isComponent c = true) (text : String) :
    flatName components ≠ text ++ aliasesSuffix := fun e =>
  flatName_ne_append_triple h text.toList "aliases".toList (by
    rw [e, String.toList_append]
    rfl)

/-- The characters of a flat name are those of components. -/
theorem isComponentChar_of_mem_flatName {cs : List String}
    (h : ∀ c ∈ cs, isComponent c = true) {x : Char} (hx : x ∈ (flatName cs).toList) :
    isComponentChar x = true := by
  simp only [flatName, String.toList_ofList] at hx
  induction cs with
  | nil => simp [joinWith] at hx
  | cons c cs ih =>
    have here : ∀ x ∈ c.toList, isComponentChar x = true := fun _ =>
      isComponentChar_of_isComponent (h c List.mem_cons_self)
    cases cs with
    | nil => exact here x (by simpa [joinWith] using hx)
    | cons d cs =>
      rw [List.map_cons, joinWith_cons_of_ne_nil _ _ (by simp)] at hx
      simp only [List.mem_append] at hx
      rcases hx with (hx | hx) | hx
      · exact here x hx
      · revert hx; simp only [separator]; intro hx
        have : x = '_' := by simpa using hx
        subst this; decide
      · exact ih (fun e he => h e (List.mem_cons_of_mem _ he)) hx

theorem dot_notMem_flatName {cs : List String} (h : ∀ c ∈ cs, isComponent c = true) :
    '.' ∉ (flatName cs).toList := fun hx => by
  exact absurd (isComponentChar_of_mem_flatName h hx) (by decide)

theorem slash_notMem_flatName {cs : List String} (h : ∀ c ∈ cs, isComponent c = true) :
    '/' ∉ (flatName cs).toList := fun hx => by
  exact absurd (isComponentChar_of_mem_flatName h hx) (by decide)

theorem flatName_ne_empty {cs : List String} (hne : cs ≠ [])
    (h : ∀ c ∈ cs, isComponent c = true) : flatName cs ≠ "" := by
  intro e
  have cut := componentsOf_flatName hne h
  rw [e] at cut
  have bad := h "" (by rw [← cut]; decide)
  revert bad
  decide

end Naming
end FlatModules
