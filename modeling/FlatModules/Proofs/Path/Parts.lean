import Mathlib.Data.List.Induction
import Mathlib.Data.List.Infix
import FlatModules.Proofs.Naming.FlatName

/-!
# Paths — the parts of a path with one more name

A name written below a path is one more part (`parts_div`), and the path above it has the parts
of the path that it was written below (`parent?_div`).  So the generated paths, which are all made
by writing names below one another and extensions after names, can be told apart by their parts.
-/

namespace FlatModules

open Text

namespace Text

theorem cutAt_of_notMem {mark : Char → Bool} {cs : List Char} (h : ∀ c ∈ cs, mark c = false) :
    cutAt mark cs = [cs] := by
  induction cs with
  | nil => rfl
  | cons c cs ih =>
    rw [cutAt, if_neg (by simp [h c]), ih fun d hd => h d (List.mem_cons_of_mem _ hd)]

/-- A marked character separates the pieces before it from those after it. -/
theorem cutAt_append_cons {mark : Char → Bool} {c : Char} (hc : mark c = true) (cs ds : List Char) :
    cutAt mark (cs ++ c :: ds) = cutAt mark cs ++ cutAt mark ds := by
  induction cs with
  | nil => simp [cutAt, hc]
  | cons d cs ih =>
    by_cases hd : mark d = true
    · simp only [List.cons_append, cutAt, hd, ↓reduceIte, ih]
    · simp only [List.cons_append, cutAt, hd, ih]
      obtain ⟨p, ps, e⟩ := List.exists_cons_of_ne_nil (cutAt_ne_nil mark cs)
      simp [e]

/-- No piece holds a marked character. -/
theorem mark_eq_false_of_mem_cutAt {m : Char → Bool} {cs piece : List Char}
    (h : piece ∈ cutAt m cs) : ∀ c ∈ piece, m c = false := by
  induction cs generalizing piece with
  | nil => simp_all [cutAt]
  | cons d cs ih =>
    by_cases hd : m d = true
    · simp only [cutAt, hd, ↓reduceIte, List.mem_cons] at h
      rcases h with rfl | h
      · simp
      · exact ih h
    · obtain ⟨p, ps, e⟩ := List.exists_cons_of_ne_nil (cutAt_ne_nil m cs)
      rw [e] at ih
      simp only [cutAt, hd, Bool.false_eq_true, ↓reduceIte, e, List.mem_cons] at h
      rcases h with rfl | h
      · intro c hc
        rcases List.mem_cons.1 hc with rfl | hc
        · simpa using hd
        · exact ih List.mem_cons_self c hc
      · exact ih (List.mem_cons_of_mem _ h)

/-- Pieces without the separator are cut back after joining. -/
theorem cutAt_joinWith {c : Char} {pieces : List (List Char)} (hne : pieces ≠ [])
    (h : ∀ p ∈ pieces, c ∉ p) : cutAt (· == c) (joinWith [c] pieces) = pieces := by
  have whole : ∀ p ∈ pieces, cutAt (· == c) p = [p] := fun p hp =>
    cutAt_of_notMem fun d hd => beq_false_of_ne fun e => h p hp (e ▸ hd)
  induction pieces with
  | nil => exact absurd rfl hne
  | cons p pieces ih =>
    cases pieces with
    | nil => exact whole p List.mem_cons_self
    | cons q pieces =>
      rw [joinWith_cons_of_ne_nil _ _ (by simp), List.append_assoc, List.singleton_append,
        cutAt_append_cons (by simp), whole p List.mem_cons_self,
        ih (by simp) (fun r hr => h r (List.mem_cons_of_mem _ hr))
          fun r hr => whole r (List.mem_cons_of_mem _ hr)]
      rfl

theorem cutOnce_eq_none {mark : Char} {cs : List Char} (h : mark ∉ cs) : cutOnce mark cs = none := by
  induction cs with
  | nil => rfl
  | cons c cs ih =>
    rw [List.mem_cons, not_or] at h
    rw [cutOnce, if_neg (Ne.symm h.1), ih h.2]
    rfl

theorem cutOnce_append {mark : Char} {cs : List Char} (h : mark ∉ cs) (ds : List Char) :
    cutOnce mark (cs ++ mark :: ds) = some (cs, ds) := by
  induction cs with
  | nil => simp [cutOnce]
  | cons c cs ih =>
    rw [List.mem_cons, not_or] at h
    rw [List.cons_append, cutOnce, if_neg (Ne.symm h.1), ih h.2]
    rfl

end Text

namespace Path

/-- A text that can name an entry of a directory. -/
structure IsName (name : String) : Prop where
  ne_empty : name ≠ ""
  noSlash : '/' ∉ name.toList
  ne_here : name ≠ "."
  ne_up : name ≠ ".."

instance (name : String) : Decidable (IsName name) :=
  decidable_of_iff (name ≠ "" ∧ '/' ∉ name.toList ∧ name ≠ "." ∧ name ≠ "..")
    ⟨fun ⟨a, b, c, e⟩ => ⟨a, b, c, e⟩, fun ⟨a, b, c, e⟩ => ⟨a, b, c, e⟩⟩

theorem isName_of_isComponent {name : String} (h : Naming.isComponent name = true) :
    IsName name where
  ne_empty := by rintro rfl; revert h; decide
  noSlash hs := absurd (Naming.isComponentChar_of_isComponent h hs) (by decide)
  ne_here := by rintro rfl; revert h; decide
  ne_up := by rintro rfl; revert h; decide

theorem IsName.append {name suffix : String} (h : IsName name) (hs : '/' ∉ suffix.toList)
    (hd : ∀ c ∈ name.toList, c ≠ '.') : IsName (name ++ suffix) := by
  obtain ⟨c, cs, e⟩ := List.exists_cons_of_ne_nil (fun e => h.ne_empty (String.toList_inj.1 e))
  have dot : c ≠ '.' := hd c (by simp [e])
  have first : ∀ other : String, other.toList.head? = some '.' → name ++ suffix ≠ other := by
    rintro other ho rfl
    simp [e] at ho
    exact dot ho
  refine ⟨fun h' => ?_, ?_, first _ rfl, first _ rfl⟩
  · have := congrArg String.toList h'
    simp [e] at this
  · simp only [String.toList_append, List.mem_append, not_or]
    exact ⟨h.noSlash, hs⟩

theorem IsName.not_isAbsolute {name : String} (h : IsName name) :
    (⟨name⟩ : Path).isAbsolute = false := by
  simp only [isAbsolute, beq_eq_false_iff_ne]
  intro e
  exact h.noSlash (List.mem_of_head? e)

theorem IsName.part? {name : String} (h : IsName name) :
    part? name.toList = some (.name name) := by
  have ne : name.toList ≠ [] := fun e => h.ne_empty (String.toList_inj.1 e)
  have here : name.toList ≠ ['.'] := fun e => h.ne_here (String.toList_inj.1 e)
  have up : name.toList ≠ ['.', '.'] := fun e => h.ne_up (String.toList_inj.1 e)
  simp [Path.part?, ne, here, up]

/-- The spelling of a path up to where a name below it begins. -/
def front (p : Path) : String :=
  if p.text.isEmpty ∨ p.text.toList.getLast? = some '/' then p.text else p.text ++ "/"

theorem div_eq {p : Path} {name : String} (h : IsName name) : p / ⟨name⟩ = ⟨p.front ++ name⟩ := by
  change p.join ⟨name⟩ = _
  simp only [join, front, h.not_isAbsolute, Bool.false_eq_true, ↓reduceIte]
  split <;> rfl

theorem append_div {p : Path} {name suffix : String} (h : IsName name) (h' : IsName (name ++ suffix)) :
    (p / ⟨name⟩).append suffix = p / ⟨name ++ suffix⟩ := by
  rw [div_eq h, div_eq h', append, String.append_assoc]

/-- The segments before those of a name written below a path. -/
def lead (p : Path) : List (List Char) :=
  if p.text.isEmpty then []
  else if p.text.toList.getLast? = some '/' then p.segments.dropLast
  else p.segments

theorem segments_div {p : Path} {name : String} (h : IsName name) :
    (p / ⟨name⟩).segments = p.lead ++ [name.toList] := by
  have whole : cutAt (· == '/') name.toList = [name.toList] :=
    cutAt_of_notMem fun c hc => beq_false_of_ne fun e => h.noSlash (e ▸ hc)
  rw [div_eq h, segments, String.toList_append, lead, front]
  by_cases empty : p.text.isEmpty
  · have : p.text = "" := by simpa [String.isEmpty] using empty
    simp [this, whole]
  · by_cases slash : p.text.toList.getLast? = some '/'
    · simp only [empty, slash, or_true, ↓reduceIte, Bool.false_eq_true, segments]
      obtain ⟨cs, e⟩ := List.getLast?_eq_some_iff.1 slash
      rw [e, List.append_assoc, List.singleton_append, cutAt_append_cons (by simp), whole,
        cutAt_append_cons (by simp)]
      simp [cutAt]
    · simp only [empty, slash, or_self, ↓reduceIte, Bool.false_eq_true, segments,
        String.toList_append]
      rw [show ("/" : String).toList = ['/'] from rfl, List.append_assoc, List.singleton_append,
        cutAt_append_cons (by simp), whole]

/-- What the first segment of a path stands for. -/
def firstPart? (segment : List Char) : Option Part :=
  if segment = [] then some .root
  else if segment = ['.'] then some .here
  else part? segment

/-- The parts that segments stand for that more segments follow. -/
def leadParts : List (List Char) → List Part
  | [] => []
  | first :: rest => (firstPart? first).toList ++ rest.filterMap part?

theorem partsOf_eq_leadParts {segments : List (List Char)} (h : segments ≠ [[]]) :
    partsOf segments = leadParts segments := by
  unfold partsOf leadParts
  split
  case h_1 => rfl
  case h_2 => exact absurd rfl h
  case h_3 => simp [firstPart?]
  case h_4 => simp [firstPart?]
  case h_5 first rest _ ne here =>
    simp only [firstPart?]
    rw [if_neg ne, if_neg here, List.filterMap_cons]
    cases part? first <;> rfl

theorem parts_eq_leadParts (p : Path) : p.parts = leadParts p.lead := by
  unfold parts lead
  by_cases empty : p.text.isEmpty
  · have : p.text = "" := by simpa [String.isEmpty] using empty
    simp [segments, this, cutAt, partsOf, leadParts]
  · have ne : p.text.toList ≠ [] := by simpa [String.isEmpty] using empty
    have ne' : p.segments ≠ [[]] := fun e => ne <| by
      rw [← joinWith_cutAt '/' p.text.toList, show cutAt _ _ = _ from e]
      rfl
    rw [partsOf_eq_leadParts ne']
    by_cases slash : p.text.toList.getLast? = some '/'
    · simp only [empty, slash, ↓reduceIte, Bool.false_eq_true, segments]
      obtain ⟨cs, e⟩ := List.getLast?_eq_some_iff.1 slash
      rw [e, cutAt_append_cons (by simp)]
      simp only [cutAt, List.dropLast_concat]
      obtain ⟨q, qs, e'⟩ := List.exists_cons_of_ne_nil (cutAt_ne_nil (· == '/') cs)
      simp [e', leadParts, part?]
    · simp [empty, slash]

theorem leadParts_append {segments : List (List Char)} {name : String} (h : IsName name) :
    leadParts (segments ++ [name.toList]) = leadParts segments ++ [.name name] := by
  cases segments with
  | nil =>
    have ne : name.toList ≠ [] := fun e => h.ne_empty (String.toList_inj.1 e)
    have here : name.toList ≠ ['.'] := fun e => h.ne_here (String.toList_inj.1 e)
    simp [leadParts, firstPart?, ne, here, h.part?]
  | cons first rest => simp [leadParts, h.part?]

/-- A name written below a path is one more part. -/
theorem parts_div {p : Path} {name : String} (h : IsName name) :
    (p / ⟨name⟩).parts = p.parts ++ [.name name] := by
  have ne : p.lead ++ [name.toList] ≠ [[]] := by
    intro e
    have := congrArg List.getLast? e
    simp at this
    exact h.ne_empty this
  rw [parts, segments_div h, partsOf_eq_leadParts ne, leadParts_append h, parts_eq_leadParts]

theorem fileName?_of_parts {p : Path} {front : List Part} {name : String}
    (h : p.parts = front ++ [.name name]) : p.fileName? = some name := by
  simp [fileName?, h]

theorem fileName?_div {p : Path} {name : String} (h : IsName name) :
    (p / ⟨name⟩).fileName? = some name :=
  fileName?_of_parts (parts_div h)

theorem dropIdle_cons {segment : List Char} {rest : List (List Char)} (h : rest ≠ []) :
    dropIdle (segment :: rest) =
      if segment = [] ∨ segment = ['.'] then dropIdle rest else segment :: rest := by
  obtain ⟨r, rs, rfl⟩ := List.exists_cons_of_ne_nil h
  rfl

/-- Idle segments at the end stand for no part; nothing is left without them only of no segments
and of the root. -/
theorem leadParts_dropIdle (segments : List (List Char)) :
    (dropIdle segments.reverse = [] ∧
        (segments = [] ∨ leadParts segments = [.root] ∧ segments.head? = some [])) ∨
      (dropIdle segments.reverse ≠ [] ∧
        leadParts segments = leadParts (dropIdle segments.reverse).reverse) := by
  induction segments using List.reverseRecOn with
  | nil => exact .inl ⟨rfl, .inl rfl⟩
  | append_singleton front last ih =>
    rw [List.reverse_append, List.reverse_singleton, List.singleton_append]
    rcases front with _ | ⟨first, rest⟩
    · by_cases e : last = []
      · exact .inl ⟨by simp [dropIdle, e], .inr ⟨by simp [e, leadParts, firstPart?], by simp [e]⟩⟩
      · exact .inr (by simp [dropIdle, e])
    · rw [dropIdle_cons (by simp)]
      by_cases idle : last = [] ∨ last = ['.']
      · have none_ : part? last = none := by simp [part?, idle]
        have same : leadParts (first :: rest ++ [last]) = leadParts (first :: rest) := by
          simp [leadParts, none_]
        rw [if_pos idle, same]
        rcases ih with ⟨empty, h | h⟩ | h
        · exact absurd h (by simp)
        · exact .inl ⟨empty, .inr (by simpa using h)⟩
        · exact .inr h
      · rw [if_neg idle]
        exact .inr (by simp)

theorem noSlash_of_mem_lead {p : Path} {segment : List Char} (h : segment ∈ p.lead) :
    '/' ∉ segment := by
  have mem : segment ∈ p.segments := by
    unfold lead at h
    split at h
    · simp at h
    · split at h
      · exact List.mem_of_mem_dropLast h
      · exact h
  intro hs
  simpa using mark_eq_false_of_mem_cutAt mem '/' hs

theorem mem_of_mem_dropIdle {segment : List Char} {segments : List (List Char)}
    (h : segment ∈ dropIdle segments) : segment ∈ segments := by
  induction segments with
  | nil => exact h
  | cons s segments ih =>
    rcases segments with _ | ⟨t, ts⟩
    · by_cases e : s = [] <;> simp_all [dropIdle]
    · rw [dropIdle_cons (by simp)] at h
      split at h
      · exact List.mem_cons_of_mem _ (ih h)
      · exact h

theorem dropIdle_ne_singleton_nil (segments : List (List Char)) : dropIdle segments ≠ [[]] := by
  induction segments with
  | nil => simp [dropIdle]
  | cons s segments ih =>
    unfold dropIdle
    split <;> (try split) <;> simp_all

theorem dropIdle_cons_of_isName {name : String} (h : IsName name) (segments : List (List Char)) :
    dropIdle (name.toList :: segments) = name.toList :: segments := by
  have ne : name.toList ≠ [] := fun e => h.ne_empty (String.toList_inj.1 e)
  have here : name.toList ≠ ['.'] := fun e => h.ne_here (String.toList_inj.1 e)
  cases segments <;> simp [dropIdle, ne, here]

/-- The path above a last name has the parts of the segments before it. -/
theorem parent?_of_segments {p : Path} {front : List (List Char)} {last : List Char}
    (h : p.segments = front ++ [last]) (proper : last ≠ [] ∧ last ≠ ['.']) :
    ∃ above, p.parent? = some above ∧ above.parts = leadParts front := by
  have noSlash : ∀ s ∈ front ++ [last], '/' ∉ s := by
    intro s hs slash
    have mem : s ∈ p.segments := h.symm ▸ hs
    simpa using mark_eq_false_of_mem_cutAt mem '/' slash
  have text : p.text.toList = joinWith ['/'] (front ++ [last]) := by
    rw [← h, segments, joinWith_cutAt]
  have rev : dropIdle p.segments.reverse = last :: front.reverse := by
    rw [h, List.reverse_append, List.reverse_singleton, List.singleton_append]
    cases front.reverse <;> simp [dropIdle, proper]
  refine ⟨ofSegments p.isAbsolute (dropIdle front.reverse), by rw [parent?, rev], ?_⟩
  rcases leadParts_dropIdle front with ⟨empty, rfl | ⟨e, head⟩⟩ | ⟨ne, e⟩
  · have relative : p.isAbsolute = false := by
      rw [isAbsolute, text, beq_eq_false_iff_ne]
      exact fun head => noSlash last (by simp) (List.mem_of_head? head)
    rw [empty, ofSegments, if_pos rfl, relative]
    rfl
  · obtain ⟨rest, rfl⟩ := List.head?_eq_some_iff.1 head
    have absolute : p.isAbsolute = true := by
      rw [isAbsolute, text, List.cons_append, joinWith_cons_of_ne_nil _ _ (by simp)]
      rfl
    rw [empty, ofSegments, if_pos rfl, absolute, e]
    rfl
  · have cut : (ofSegments p.isAbsolute (dropIdle front.reverse)).segments =
        (dropIdle front.reverse).reverse := by
      rw [ofSegments, if_neg ne, segments, String.toList_ofList]
      exact cutAt_joinWith (by simpa using ne) fun s hs => noSlash s <| List.mem_append_left _ <|
        List.mem_reverse.1 (mem_of_mem_dropIdle (List.mem_reverse.1 hs))
    rw [parts, cut, e, partsOf_eq_leadParts]
    exact fun e' => dropIdle_ne_singleton_nil _ (List.reverse_eq_iff.1 e')

/-- The path above a name has the parts of the path that the name was written below. -/
theorem parent?_div {p : Path} {name : String} (h : IsName name) :
    ∃ above, (p / ⟨name⟩).parent? = some above ∧ above.parts = p.parts := by
  have ne : name.toList ≠ [] := fun e => h.ne_empty (String.toList_inj.1 e)
  have here : name.toList ≠ ['.'] := fun e => h.ne_here (String.toList_inj.1 e)
  obtain ⟨above, parent, parts⟩ := parent?_of_segments (segments_div h) ⟨ne, here⟩
  exact ⟨above, parent, parts.trans (parts_eq_leadParts p).symm⟩

theorem isName_of_mem_parts {p : Path} {name : String} (h : Part.name name ∈ p.parts) :
    IsName name := by
  rw [parts_eq_leadParts] at h
  obtain ⟨s, mem, stands⟩ : ∃ s ∈ p.lead, part? s = some (.name name) := by
    cases e : p.lead with
    | nil => simp [e, leadParts] at h
    | cons first rest =>
      rw [e, leadParts, List.mem_append, Option.mem_toList, List.mem_filterMap] at h
      rcases h with stands | ⟨s, mem, stands⟩
      · unfold firstPart? at stands
        split at stands
        · simp at stands
        · split at stands
          · simp at stands
          · exact ⟨first, List.mem_cons_self, stands⟩
      · exact ⟨s, List.mem_cons_of_mem _ mem, stands⟩
  have noSlash := noSlash_of_mem_lead mem
  unfold part? at stands
  split at stands
  · simp at stands
  case isFalse proper =>
    split at stands
    · simp at stands
    case isFalse ne_up =>
      obtain rfl := Part.name.inj (Option.some.inj stands)
      rw [not_or] at proper
      refine ⟨fun e => proper.1 ?_, by simpa using noSlash, fun e => proper.2 ?_, fun e => ne_up ?_⟩ <;>
        simpa using congrArg String.toList e

theorem isName_of_fileName? {p : Path} {name : String} (h : p.fileName? = some name) :
    IsName name := by
  unfold fileName? at h
  split at h
  case h_1 last =>
    obtain rfl := Option.some.inj h
    exact isName_of_mem_parts (List.mem_of_getLast? last)
  case h_2 => simp at h

/-- The kind of a part, in order, and its name. -/
def Part.key : Part → Nat × String
  | .root => (0, "")
  | .here => (1, "")
  | .up => (2, "")
  | .name n => (3, n)

theorem Part.compare_eq (a b : Part) :
    compare a b = compareLex (compareOn Prod.fst) (compareOn Prod.snd) a.key b.key := by
  cases a <;> cases b
  case name.name x y =>
    change (compare x y).then .eq = _
    simp [compareLex, compareOn, Part.key]
  all_goals rfl

instance : Std.TransOrd Part where
  eq_swap {a b} := by
    rw [Part.compare_eq, Part.compare_eq b]
    exact Std.OrientedCmp.eq_swap
  isLE_trans {a b c} := by
    simp only [Part.compare_eq]
    exact Std.TransCmp.isLE_trans

instance : Std.LawfulEqOrd Part where
  compare_self {a} := Std.ReflCmp.compare_self
  eq_of_compare {a b} h := by
    rw [Part.compare_eq, compareLex_eq_eq] at h
    have kind : a.key.1 = b.key.1 := Std.LawfulEqOrd.eq_of_compare h.1
    have name : a.key.2 = b.key.2 := Std.LawfulEqOrd.eq_of_compare h.2
    cases a <;> cases b <;> simp_all [Part.key]

instance : Std.TransCmp order :=
  inferInstanceAs (Std.TransCmp (compareOn parts))

theorem order_eq_iff {p q : Path} : p.order q = .eq ↔ p.parts = q.parts :=
  show compare p.parts q.parts = .eq ↔ _ from Std.LawfulEqCmp.compare_eq_iff_eq

theorem same_iff {p q : Path} : p.same q = true ↔ p.parts = q.parts := by
  simp [same]

@[simp] theorem same_self (p : Path) : p.same p = true := by
  simp [same]

end Path
end FlatModules
