import FlatModules.Disk.Basic
import FlatModules.Proofs.Path.Below

/-!
# Paths — the names on the way

The names that a path goes through, `..` among them (`Path.names`).  Names depend on the parts of a
path alone, and those of a path below another one follow those of the other (`names_div_relative`).
A path that `EndsIn` a name has a path above it whose names are the ones before
(`EndsIn.exists_parent?`).
-/

namespace FlatModules

open Text

namespace Path

/-- The names that segments stand for, and `..`. -/
def namesOf (segments : List (List Char)) : List String :=
  (segments.filter fun s => s ≠ [] ∧ s ≠ ['.']).map String.ofList

/-- The names that a path goes through, and `..`, in order. -/
def names (p : Path) : List String := namesOf p.segments

@[simp] theorem namesOf_nil : namesOf [] = [] := rfl

@[simp] theorem namesOf_append (ss ts : List (List Char)) :
    namesOf (ss ++ ts) = namesOf ss ++ namesOf ts := by
  simp [namesOf]

theorem namesOf_cons_idle {s : List Char} (h : s = [] ∨ s = ['.']) (ss : List (List Char)) :
    namesOf (s :: ss) = namesOf ss := by
  have idle : ¬(s ≠ [] ∧ s ≠ ['.']) := by
    rintro ⟨ne, ne'⟩
    exact h.elim ne ne'
  simp [namesOf, idle]

theorem namesOf_cons {s : List Char} (h : s ≠ [] ∧ s ≠ ['.']) (ss : List (List Char)) :
    namesOf (s :: ss) = String.ofList s :: namesOf ss := by
  simp [namesOf, h]

/-- The name that a part stands for, if it leads on. -/
def Part.step? : Part → Option String
  | .name n => some n
  | .up => some ".."
  | _ => none

theorem filterMap_step? (segments : List (List Char)) :
    (segments.filterMap part?).filterMap Part.step? = namesOf segments := by
  induction segments with
  | nil => rfl
  | cons s ss ih =>
    by_cases idle : s = [] ∨ s = ['.']
    · rw [namesOf_cons_idle idle, ← ih]
      simp [part?, idle]
    · rw [not_or] at idle
      rw [namesOf_cons idle, ← ih]
      by_cases up : s = ['.', '.']
      · subst up
        rfl
      · simp [part?, idle, up, Part.step?]

/-- The names of a path are those among its parts. -/
theorem names_eq_filterMap (p : Path) : p.names = p.parts.filterMap Part.step? := by
  rw [names, parts]
  unfold partsOf
  split
  case h_1 e => simp [e]
  case h_2 e => simp [e, namesOf_cons_idle]
  case h_3 ss ne e =>
    rw [e, namesOf_cons_idle (.inl rfl), List.filterMap_cons_none rfl, filterMap_step?]
  case h_4 ss e =>
    rw [e, namesOf_cons_idle (.inr rfl), List.filterMap_cons_none rfl, filterMap_step?]
  case h_5 s ss _ _ _ e => rw [e, filterMap_step?]

theorem length_names_le (p : Path) : p.names.length ≤ p.segments.length := by
  rw [names, namesOf, List.length_map]
  exact List.length_filter_le _ _

theorem names_congr {p q : Path} (h : p.parts = q.parts) : p.names = q.names := by
  rw [names_eq_filterMap, names_eq_filterMap, h]

theorem names_of_parts {p q : Path} {rest : List String}
    (h : p.parts = q.parts ++ rest.map Part.name) : p.names = q.names ++ rest := by
  rw [names_eq_filterMap, h, List.filterMap_append, ← names_eq_filterMap]
  simp [Part.step?, Function.comp_def]

theorem names_of_parts_singleton {p q : Path} {name : String}
    (h : p.parts = q.parts ++ [.name name]) : p.names = q.names ++ [name] :=
  names_of_parts (by simpa using h)

theorem names_div {p : Path} {name : String} (h : IsName name) :
    (p / ⟨name⟩).names = p.names ++ [name] :=
  names_of_parts_singleton (parts_div h)

theorem names_below {p : Path} {rest : List String} (h : ∀ n ∈ rest, IsName n) :
    (p.below rest).names = p.names ++ rest :=
  names_of_parts (parts_below h)

theorem names_front (p : Path) (text : String) :
    (⟨p.front ++ text⟩ : Path).names = p.names ++ (⟨text⟩ : Path).names := by
  have cut (cs ds : List Char) : cutAt (· == '/') (cs ++ '/' :: ds) =
      cutAt (· == '/') cs ++ cutAt (· == '/') ds := cutAt_append_cons (by simp) cs ds
  simp only [names, segments, String.toList_append]
  unfold front
  split
  case isTrue h =>
    rcases h with empty | slash
    · have empty : p.text = "" := by simpa [String.isEmpty] using empty
      simp [empty, cutAt, namesOf_cons_idle]
    · obtain ⟨cs, e⟩ : ∃ cs, p.text.toList = cs ++ ['/'] := by
        obtain ⟨cs, c, e⟩ := (List.eq_nil_or_concat' p.text.toList).resolve_left
          (by rintro e; simp [e] at slash)
        obtain rfl : c = '/' := by simpa [e] using slash
        exact ⟨cs, e⟩
      have last : cutAt (· == '/') ([] : List Char) = [[]] := rfl
      rw [e, List.append_assoc, List.singleton_append, cut, cut, last]
      simp [namesOf_cons_idle]
  case isFalse => simp [cut]

/-- The names of a relative path follow those of the path that it is below. -/
theorem names_div_relative {p q : Path} (h : q.isAbsolute = false) :
    (p / q).names = p.names ++ q.names := by
  rw [div_eq_front h, names_front]

/-- A path whose last segment leads on. -/
def EndsIn (p : Path) (last : String) : Prop :=
  ∃ front, p.segments = front ++ [last.toList] ∧ last ≠ "" ∧ last ≠ "."

theorem endsIn_div {p : Path} {name : String} (h : IsName name) : (p / ⟨name⟩).EndsIn name :=
  ⟨p.lead, segments_div h, h.ne_empty, h.ne_here⟩

namespace EndsIn

variable {p : Path} {last : String}

theorem toList_ne (h : p.EndsIn last) : last.toList ≠ [] ∧ last.toList ≠ ['.'] := by
  obtain ⟨-, -, ne, ne'⟩ := h
  exact ⟨fun e => ne (String.toList_inj.1 e), fun e => ne' (String.toList_inj.1 e)⟩

theorem exists_names (h : p.EndsIn last) : ∃ front, p.names = front ++ [last] := by
  obtain ⟨front, e, -⟩ := id h
  refine ⟨namesOf front, ?_⟩
  rw [names, e, namesOf_append, namesOf_cons h.toList_ne]
  simp

theorem isName (h : p.EndsIn last) (ne : last ≠ "..") : IsName last := by
  obtain ⟨front, e, ne', ne''⟩ := h
  refine ⟨ne', fun slash => ?_, ne'', ne⟩
  have mem : last.toList ∈ p.segments := by simp [e]
  simpa using mark_eq_false_of_mem_cutAt (m := (· == '/')) mem '/' slash

/-- The steps that an operation on a path takes, for a path that ends in a name. -/
theorem exists_steps (h : p.EndsIn last) : ∃ front,
    (p.segments.filter (· ≠ [])).map String.ofList = front ++ [last] ∧
      Disk.steps p.text = front ++ [last] := by
  obtain ⟨front, e, -⟩ := id h
  have ne := h.toList_ne.1
  refine ⟨(front.filter (· ≠ [])).map String.ofList, ?_, ?_⟩
  · rw [e]
    simp [ne]
  · have e : cutAt (· == '/') p.text.toList = front ++ [last.toList] := e
    simp [Disk.steps, e, ne]

end EndsIn

theorem namesOf_reverse (segments : List (List Char)) :
    namesOf segments.reverse = (namesOf segments).reverse := by
  simp [namesOf, List.filter_reverse]

/-- Dropping idle segments drops no name, and leaves a name in front if there is one. -/
theorem dropIdle_spec (segments : List (List Char)) :
    namesOf (dropIdle segments) = namesOf segments ∧ dropIdle segments <:+ segments ∧
      (namesOf segments ≠ [] → ∃ s rest, dropIdle segments = s :: rest ∧ s ≠ [] ∧ s ≠ ['.']) := by
  induction segments with
  | nil => simp [dropIdle]
  | cons s ss ih =>
    obtain ⟨same, suffix, first⟩ := ih
    by_cases idle : s = [] ∨ s = ['.']
    · rw [namesOf_cons_idle idle]
      cases ss with
      | nil => rcases idle with rfl | rfl <;> simp [dropIdle, namesOf]
      | cons t ts =>
        rw [dropIdle_cons (by simp), if_pos idle]
        exact ⟨same, suffix.trans (List.suffix_cons _ _), first⟩
    · have proper : s ≠ [] ∧ s ≠ ['.'] := not_or.1 idle
      have keep : dropIdle (s :: ss) = s :: ss := by
        cases ss with
        | nil => simp [dropIdle, proper.1]
        | cons t ts => rw [dropIdle_cons (by simp), if_neg idle]
      rw [keep]
      exact ⟨rfl, List.suffix_refl _, fun _ => ⟨s, ss, rfl, proper⟩⟩

theorem joinWith_prefix (separator : List Char) {ss ts : List (List Char)} (h : ss <+: ts) :
    joinWith separator ss <+: joinWith separator ts := by
  induction ss generalizing ts with
  | nil => exact List.nil_prefix
  | cons s ss ih =>
    obtain ⟨rest, rfl⟩ := h
    cases ss with
    | nil =>
      cases rest with
      | nil => exact List.prefix_refl _
      | cons t ts =>
        change s <+: s ++ separator ++ joinWith separator (t :: ts)
        rw [List.append_assoc]
        exact List.prefix_append _ _
    | cons s' ss =>
      obtain ⟨more, e⟩ := ih (List.prefix_append (s' :: ss) rest)
      refine ⟨more, ?_⟩
      change s ++ separator ++ joinWith separator (s' :: ss) ++ more =
        s ++ separator ++ joinWith separator (s' :: ss ++ rest)
      simp only [← e, List.append_assoc]

theorem segments_ofSegments {absolute : Bool} {segments : List (List Char)} (ne : segments ≠ [])
    (noSlash : ∀ s ∈ segments, '/' ∉ s) : (ofSegments absolute segments).segments = segments.reverse := by
  rw [ofSegments, if_neg ne, Path.segments, String.toList_ofList]
  exact cutAt_joinWith (by simpa using ne) fun s hs => noSlash s (List.mem_reverse.1 hs)

/-- The names of the path above begin the names before the last one of a path. -/
theorem names_parent?_dropLast {p above : Path} (h : p.parent? = some above) :
    above.names <+: p.names.dropLast := by
  unfold parent? at h
  split at h
  · simp at h
  case h_2 last rest e =>
    obtain rfl := Option.some.inj h
    obtain ⟨same, suffix, first⟩ := dropIdle_spec p.segments.reverse
    have noSlash : ∀ s ∈ dropIdle rest, '/' ∉ s := by
      intro s hs slash
      have mem : s ∈ p.segments := List.mem_reverse.1
        (suffix.subset (e ▸ List.mem_cons_of_mem _ (mem_of_mem_dropIdle hs)))
      simpa using mark_eq_false_of_mem_cutAt (m := (· == '/')) mem '/' slash
    have above : (ofSegments p.isAbsolute (dropIdle rest)).names = namesOf rest.reverse := by
      by_cases nothing : dropIdle rest = []
      · have none_ : namesOf rest = [] := by
          rw [← (dropIdle_spec rest).1, nothing]
          rfl
        rw [nothing, namesOf_reverse, none_]
        cases p.isAbsolute <;> rfl
      · rw [names, segments_ofSegments nothing noSlash, namesOf_reverse, (dropIdle_spec rest).1,
          namesOf_reverse]
    have whole : p.names = namesOf rest.reverse ++ namesOf [last] := by
      rw [e, namesOf_reverse] at same
      rw [names, ← List.reverse_reverse (namesOf p.segments), ← same, ← namesOf_reverse,
        List.reverse_cons, namesOf_append]
    rw [above]
    by_cases nothing : p.names = []
    · rw [nothing] at whole
      rw [(List.append_eq_nil_iff.1 whole.symm).1]
      exact List.nil_prefix
    · obtain ⟨s, ss, e', proper⟩ := first (by rwa [namesOf_reverse, ne_eq, List.reverse_eq_nil_iff])
      obtain ⟨rfl, rfl⟩ := List.cons.inj (e.symm.trans e')
      rw [whole, namesOf_cons proper, namesOf_nil, List.dropLast_concat]

/-- The names of the path above begin the names of a path. -/
theorem names_parent? {p above : Path} (h : p.parent? = some above) : above.names <+: p.names :=
  (names_parent?_dropLast h).trans (List.dropLast_prefix _)

/-- The path above one that ends in a name. -/
theorem EndsIn.exists_parent? {p : Path} {last : String} (h : p.EndsIn last) :
    ∃ above, p.parent? = some above ∧ p.names = above.names ++ [last] ∧
      (∀ front last', above.names = front ++ [last'] → above.EndsIn last') ∧
        above.text.toList <+: p.text.toList := by
  obtain ⟨front, e, -⟩ := id h
  have rev : dropIdle p.segments.reverse = last.toList :: front.reverse := by
    rw [e, List.reverse_append, List.reverse_singleton, List.singleton_append]
    cases front.reverse <;> simp [dropIdle, h.toList_ne]
  have parent : p.parent? = some (ofSegments p.isAbsolute (dropIdle front.reverse)) := by
    rw [parent?, rev]
  obtain ⟨same, ⟨idle, suffix⟩, first⟩ := dropIdle_spec front.reverse
  rw [namesOf_reverse] at same first
  have whole : p.text.toList = joinWith ['/'] (front ++ [last.toList]) := by
    rw [← e, segments, joinWith_cutAt]
  have names : p.names = namesOf front ++ [last] := by
    rw [names, e, namesOf_append, namesOf_cons h.toList_ne]
    simp
  by_cases nothing : dropIdle front.reverse = []
  · -- nothing is above but the root or the empty path
    have none_ : namesOf front = [] := by
      rw [nothing] at same
      simpa using same.symm
    have above : (ofSegments p.isAbsolute (dropIdle front.reverse)).names = [] := by
      rw [nothing]
      cases p.isAbsolute <;> rfl
    refine ⟨_, parent, by rw [names, none_, above], fun front' last' e' => ?_, ?_⟩
    · rw [above] at e'
      simp at e'
    · rw [nothing]
      cases abs : p.isAbsolute with
      | false => exact List.nil_prefix
      | true =>
        have head : p.text.toList.head? = some '/' := by simpa [isAbsolute] using abs
        obtain ⟨rest, e'⟩ := List.head?_eq_some_iff.1 head
        rw [e']
        exact ⟨rest, rfl⟩
  · have segments : (ofSegments p.isAbsolute (dropIdle front.reverse)).segments =
        (dropIdle front.reverse).reverse := by
      refine segments_ofSegments nothing fun s hs slash => ?_
      have mem : s ∈ p.segments := by
        rw [e]
        exact List.mem_append_left _ (List.mem_reverse.1 (mem_of_mem_dropIdle hs))
      simpa using mark_eq_false_of_mem_cutAt (m := (· == '/')) mem '/' slash
    have above : (ofSegments p.isAbsolute (dropIdle front.reverse)).names = namesOf front := by
      rw [Path.names, segments, namesOf_reverse, same, List.reverse_reverse]
    refine ⟨_, parent, by rw [names, above], fun front' last' e' => ?_, ?_⟩
    · rw [above] at e'
      obtain ⟨s, rest, e'', proper⟩ := first (by simp [e'])
      have last_ : last' = String.ofList s := by
        have reversed := congrArg List.reverse same
        rw [List.reverse_reverse, e'', namesOf_cons proper, e', List.reverse_cons] at reversed
        exact (List.append_inj_right' reversed rfl |> List.singleton_inj.1).symm
      subst last_
      refine ⟨rest.reverse, by rw [segments, e'']; simp, ?_, ?_⟩
      · exact fun e => proper.1 (by simpa using congrArg String.toList e)
      · exact fun e => proper.2 (by simpa using congrArg String.toList e)
    · rw [whole, ofSegments, if_neg nothing, String.toList_ofList]
      refine joinWith_prefix _ (List.IsPrefix.trans ⟨idle.reverse, ?_⟩ (List.prefix_append front _))
      rw [← List.reverse_append, suffix, List.reverse_reverse]

end Path
end FlatModules
