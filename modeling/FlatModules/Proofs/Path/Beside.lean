import FlatModules.Proofs.Path.Spelling

/-!
# Paths — spellings side by side

Two spellings of one path that are the same from their last slash on (`Path.Beside`).  What is made
of them by changing the text after that slash, by writing them below a path or after other text are
again two such spellings of one path; and if they end in a name, so are the paths above them
(`Beside.parent?`).
-/

namespace FlatModules

open Text

/-- The pieces of a text with more before it: the last of those before goes on with the first one. -/
theorem Text.exists_cutAt_append (c : Char) (cs : List Char) : ∃ front last, ∀ ds piece rest,
    cutAt (· == c) ds = piece :: rest →
      cutAt (· == c) (cs ++ ds) = front ++ (last ++ piece) :: rest := by
  induction cs with
  | nil => exact ⟨[], [], fun ds piece rest e => e⟩
  | cons d cs ih =>
    obtain ⟨front, last, ih⟩ := ih
    by_cases hit : d = c
    · exact ⟨[] :: front, last, fun ds piece rest e => by simp [cutAt, hit, ih ds piece rest e]⟩
    · have other : (d == c) = false := beq_false_of_ne hit
      cases front with
      | nil => exact ⟨[], d :: last, fun ds piece rest e => by simp [cutAt, other, ih ds piece rest e]⟩
      | cons f front =>
        exact ⟨(d :: f) :: front, last, fun ds piece rest e => by simp [cutAt, other, ih ds piece rest e]⟩

namespace Path

variable {p q : Path} {a b last stem e : String}

/-- A text that ends where a name may begin. -/
def Opens (a : String) : Prop := a = "" ∨ a.toList.getLast? = some '/'

/-- The segments before those that begin at the end of a text. -/
def segmentsOf (a : String) : List (List Char) := (cutAt (· == '/') a.toList).dropLast

theorem Spelled.opens (h : p.Spelled a last) : Opens a := h.above

/-- What ends in a slash has the segments of the text before it, with any text before that. -/
theorem Opens.exists_segmentsOf (h : Opens a) (ne : a ≠ "") : ∃ cs, ∀ c : String,
    Opens (c ++ a) ∧ segmentsOf (c ++ a) = cutAt (· == '/') (c.toList ++ cs) := by
  obtain ⟨cs, e⟩ := List.getLast?_eq_some_iff.1 (h.resolve_left ne)
  have nil : cutAt (· == '/') ([] : List Char) = [[]] := rfl
  refine ⟨cs, fun c => ⟨.inr (by simp [e]), ?_⟩⟩
  rw [segmentsOf, String.toList_append, e, ← List.append_assoc, cutAt_append_cons (by simp), nil,
    List.dropLast_concat]

theorem segmentsOf_eq_nil_iff (h : Opens a) : segmentsOf a = [] ↔ a = "" := by
  refine ⟨fun nil => ?_, fun e => e ▸ rfl⟩
  by_contra ne
  obtain ⟨cs, e⟩ := h.exists_segmentsOf ne
  have whole := (e "").2
  rw [String.empty_append, nil] at whole
  exact cutAt_ne_nil _ _ whole.symm

theorem segments_append (opens : Opens a) (noSlash : '/' ∉ last.toList) :
    (⟨a ++ last⟩ : Path).segments = segmentsOf a ++ [last.toList] := by
  have whole : cutAt (· == '/') last.toList = [last.toList] :=
    cutAt_of_notMem fun c hc => beq_false_of_ne fun e => noSlash (e ▸ hc)
  rcases opens with rfl | slash
  · rw [segments, String.empty_append, whole]
    rfl
  · obtain ⟨cs, e⟩ := List.getLast?_eq_some_iff.1 slash
    have nil : cutAt (· == '/') ([] : List Char) = [[]] := rfl
    rw [segments, segmentsOf, String.toList_append, e, List.append_assoc, List.singleton_append,
      cutAt_append_cons (by simp), cutAt_append_cons (by simp), whole, nil, List.dropLast_concat]

/-- How a part is spelled. -/
def Part.segment : Part → List Char
  | .root => []
  | .here => ['.']
  | .up => ['.', '.']
  | .name n => n.toList

/-- The first segment of a path stands for a part, from which it can be told. -/
theorem exists_firstPart? (segment : List Char) :
    ∃ part, firstPart? segment = some part ∧ part.segment = segment := by
  unfold firstPart? part?
  split
  case isTrue empty => exact ⟨.root, rfl, empty.symm⟩
  case isFalse some_ =>
    split
    case isTrue here => exact ⟨.here, rfl, here.symm⟩
    case isFalse proper =>
      rw [if_neg (by simp [*])]
      split
      case isTrue up => exact ⟨.up, rfl, up.symm⟩
      case isFalse => exact ⟨_, rfl, String.toList_ofList⟩

theorem firstPart?_inj {s t : List Char} (h : firstPart? s = firstPart? t) : s = t := by
  obtain ⟨part, hs, rfl⟩ := exists_firstPart? s
  obtain ⟨part', ht, rfl⟩ := exists_firstPart? t
  rw [hs, ht] at h
  rw [Option.some.inj h]

theorem leadParts_eq_nil_iff {segments : List (List Char)} : leadParts segments = [] ↔ segments = [] := by
  cases segments with
  | nil => simp [leadParts]
  | cons first rest =>
    obtain ⟨part, e, -⟩ := exists_firstPart? first
    simp [leadParts, e]

/-- The part that a last segment adds to those of the segments before it. -/
theorem leadParts_append_singleton (segments : List (List Char)) (last : List Char) :
    leadParts (segments ++ [last]) = leadParts segments ++
      (if segments = [] then firstPart? last else part? last).toList := by
  cases segments with
  | nil => simp [leadParts]
  | cons first rest =>
    cases e : part? last <;> simp [leadParts, e]

theorem partsOf_append_singleton (front : List (List Char)) {last : List Char} (ne : last ≠ []) :
    partsOf (front ++ [last]) = leadParts (front ++ [last]) := by
  refine partsOf_eq_leadParts fun e => ne ?_
  exact List.singleton_inj.1 (List.append_inj' (show _ = [] ++ [[]] from e) rfl).2

/-- The parts of a path with a given last segment depend on no more than the parts before it. -/
theorem parts_congr_of_segments {front front' : List (List Char)} {last : List Char}
    (hp : p.segments = front ++ [last]) (hq : q.segments = front' ++ [last])
    (same : leadParts front = leadParts front') : p.parts = q.parts := by
  have nil : front = [] ↔ front' = [] := by
    rw [← leadParts_eq_nil_iff, same, leadParts_eq_nil_iff]
  have lead : leadParts (front ++ [last]) = leadParts (front' ++ [last]) := by
    simp only [leadParts_append_singleton, same, nil]
  rw [parts, parts, hp, hq]
  by_cases empty : front ++ [last] = [[]]
  · obtain ⟨rfl, -⟩ := List.append_inj' (show _ = [] ++ [[]] from empty) rfl
    rw [nil.1 rfl]
  · have empty' : front' ++ [last] ≠ [[]] := by
      intro e
      obtain ⟨nil', e⟩ := List.append_inj' (show _ = [] ++ [[]] from e) rfl
      exact empty (by rw [nil.2 nil', e]; rfl)
    rw [partsOf_eq_leadParts empty, partsOf_eq_leadParts empty', lead]

/-- The parts of a path that ends in a name are those before the name, and one more. -/
theorem parts_of_segments {front : List (List Char)} (h : p.segments = front ++ [last.toList])
    (proper : ¬ Idle last) : ∃ part, p.parts = leadParts front ++ [part] := by
  have ne : last.toList ≠ [] := fun e => proper (.inl (String.toList_inj.1 e))
  have ne' : last.toList ≠ ['.'] := fun e => proper (.inr (String.toList_inj.1 e))
  have first : firstPart? last.toList = part? last.toList := by simp [firstPart?, ne, ne']
  obtain ⟨part, e, -⟩ := exists_firstPart? last.toList
  refine ⟨part, ?_⟩
  rw [parts, h, partsOf_append_singleton _ ne, leadParts_append_singleton, ← first, ite_self, e]
  rfl

/-! ### Texts before the last slash -/

/-- Two texts that end where a name may begin, up to which they spell the same parts. -/
structure Abreast (a b : String) : Prop where
  left : Opens a
  right : Opens b
  parts : leadParts (segmentsOf a) = leadParts (segmentsOf b)

namespace Abreast

theorem refl (h : Opens a) : Abreast a a := ⟨h, h, rfl⟩

theorem symm (h : Abreast a b) : Abreast b a := ⟨h.right, h.left, h.parts.symm⟩

/-- What is written after both is the same path. -/
theorem parts_eq (h : Abreast a b) (noSlash : '/' ∉ last.toList) :
    (⟨a ++ last⟩ : Path).parts = (⟨b ++ last⟩ : Path).parts :=
  parts_congr_of_segments (segments_append h.left noSlash) (segments_append h.right noSlash) h.parts

/-- Spellings of one path that both end in a name differ before it. -/
theorem of_parts (hp : p.Spelled a last) (hq : q.Spelled b last) (proper : ¬ Idle last)
    (same : p.parts = q.parts) : Abreast a b := by
  refine ⟨hp.opens, hq.opens, ?_⟩
  have hp' := segments_append hp.opens hp.noSlash
  have hq' := segments_append hq.opens hq.noSlash
  rw [← hp.text] at hp'
  rw [← hq.text] at hq'
  obtain ⟨part, e⟩ := parts_of_segments hp' proper
  obtain ⟨part', e'⟩ := parts_of_segments hq' proper
  exact List.append_inj_left' (e.symm.trans (same.trans e')) rfl

theorem eq_empty_iff (h : Abreast a b) : a = "" ↔ b = "" := by
  rw [← segmentsOf_eq_nil_iff h.left, ← segmentsOf_eq_nil_iff h.right, ← leadParts_eq_nil_iff, h.parts,
    leadParts_eq_nil_iff]

/-- More text before both changes the same first segment. -/
theorem prepend (h : Abreast a b) (ne : a ≠ "") (c : String) : Abreast (c ++ a) (c ++ b) := by
  obtain ⟨cs, hc⟩ := h.left.exists_segmentsOf ne
  obtain ⟨ds, hd⟩ := h.right.exists_segmentsOf (mt h.eq_empty_iff.2 ne)
  refine ⟨(hc c).1, (hd c).1, ?_⟩
  have same := h.parts
  rw [← String.empty_append (s := a), ← String.empty_append (s := b), (hc "").2, (hd "").2] at same
  obtain ⟨s, rest, es⟩ := List.exists_cons_of_ne_nil (cutAt_ne_nil (· == '/') cs)
  obtain ⟨t, rest', et⟩ := List.exists_cons_of_ne_nil (cutAt_ne_nil (· == '/') ds)
  obtain ⟨part, first, -⟩ := exists_firstPart? s
  obtain ⟨part', first', -⟩ := exists_firstPart? t
  simp only [String.toList_empty, List.nil_append, es, et, leadParts, first, first',
    Option.toList_some, List.singleton_append, List.cons.injEq] at same
  obtain rfl := firstPart?_inj (first.trans (same.1 ▸ first'.symm))
  obtain ⟨front, last, join⟩ := Text.exists_cutAt_append '/' c.toList
  rw [(hc c).2, (hd c).2, join _ _ _ es, join _ _ _ et]
  cases front <;> simp [leadParts, List.filterMap_cons, same.2]

end Abreast

theorem EndsIn.eq_of_spelled {x : String} (h : p.EndsIn last) (hx : p.Spelled a x) : x = last := by
  obtain ⟨front, e, -⟩ := h
  obtain ⟨front', e'⟩ := hx.segments_eq
  obtain ⟨-, one⟩ := List.append_inj' (e'.symm.trans e) rfl
  exact String.toList_inj.1 (List.singleton_inj.1 one)

theorem EndsIn.under (h : p.EndsIn last) (base : Path) : (base / p).EndsIn last := by
  cases absolute : p.isAbsolute with
  | true => rwa [show base / p = p from if_pos absolute]
  | false => exact h.div absolute base

theorem EndsIn.append (h : p.EndsIn last) (noSlash : '/' ∉ e.toList) :
    (p.append e).EndsIn (last ++ e) := by
  obtain ⟨a, x, hx⟩ := p.exists_spelled
  obtain rfl := h.eq_of_spelled hx
  have noSlash' : '/' ∉ (x ++ e).toList := by
    rw [String.toList_append, List.mem_append, not_or]
    exact ⟨hx.noSlash, noSlash⟩
  have segments := segments_append hx.opens noSlash'
  rw [← String.append_assoc, ← hx.text] at segments
  obtain ⟨-, -, ne, ne'⟩ := h
  obtain ⟨c, cs, text⟩ := List.exists_cons_of_ne_nil fun nil => ne (String.toList_inj.1 nil)
  refine ⟨_, segments, fun nil => ?_, fun dot => ?_⟩
  · simpa [text] using congrArg String.toList nil
  · have dot := congrArg String.toList dot
    simp only [String.toList_append, text, List.cons_append] at dot
    obtain ⟨rfl, rest⟩ := List.cons.inj dot
    obtain ⟨rfl, -⟩ := List.append_eq_nil_iff.1 rest
    exact ne' (String.toList_inj.1 text)

/-! ### The same from the last slash on -/

/-- Spellings of one path that are the same from the last slash on. -/
def Beside (p q : Path) : Prop :=
  ∃ a b last, Abreast a b ∧ p.Spelled a last ∧ q.Spelled b last

namespace Beside

theorem refl (p : Path) : Beside p p := by
  obtain ⟨a, last, h⟩ := p.exists_spelled
  exact ⟨a, a, last, .refl h.opens, h, h⟩

theorem symm : Beside p q → Beside q p := by
  rintro ⟨a, b, last, abreast, hp, hq⟩
  exact ⟨b, a, last, abreast.symm, hq, hp⟩

/-- Spellings of one path that both end in a name. -/
theorem of_parts {last' : String} (same : p.parts = q.parts) (hp : p.Spelled a last)
    (hq : q.Spelled b last') (proper : ¬ Idle last) (proper' : ¬ Idle last') : Beside p q := by
  obtain ⟨front, e⟩ := hp.names_eq proper
  obtain ⟨front', e'⟩ := hq.names_eq proper'
  obtain ⟨-, one⟩ := List.append_inj' (e.symm.trans ((names_congr same).trans e')) rfl
  obtain rfl := List.singleton_inj.1 one
  exact ⟨a, b, last, .of_parts hp hq proper same, hp, hq⟩

theorem of_endsIn {last' : String} (same : p.parts = q.parts) (hp : p.EndsIn last)
    (hq : q.EndsIn last') : Beside p q := by
  obtain ⟨a, x, hx⟩ := p.exists_spelled
  obtain ⟨b, y, hy⟩ := q.exists_spelled
  obtain rfl := hp.eq_of_spelled hx
  obtain rfl := hq.eq_of_spelled hy
  exact .of_parts same hx hy (not_or.2 hp.choose_spec.2) (not_or.2 hq.choose_spec.2)

theorem parts (h : Beside p q) : p.parts = q.parts := by
  obtain ⟨a, b, last, abreast, hp, hq⟩ := h
  have same := abreast.parts_eq hp.noSlash
  rwa [← hp.text, ← hq.text] at same

theorem endsIn (h : Beside p q) (ends : p.EndsIn last) : q.EndsIn last := by
  obtain ⟨a, b, x, -, hp, hq⟩ := h
  obtain rfl := ends.eq_of_spelled hp
  obtain ⟨front, e⟩ := hq.segments_eq
  exact ⟨front, e, ends.choose_spec.2⟩

theorem text_eq_empty_iff (h : Beside p q) : p.text = "" ↔ q.text = "" := by
  obtain ⟨a, b, last, abreast, hp, hq⟩ := h
  have split (a : String) : a ++ last = "" ↔ a = "" ∧ last = "" := by
    rw [← String.toList_inj, String.toList_append, String.toList_empty, List.append_eq_nil_iff,
      String.toList_eq_nil_iff, String.toList_eq_nil_iff]
  rw [hp.text, hq.text, split, split, abreast.eq_empty_iff]

theorem same (h : Beside p q) : p.same q = true := same_iff.2 h.parts

/-- Before a common ending without a slash there are two such spellings. -/
theorem cut (h : Beside p q) (noSlash : '/' ∉ e.toList) (text : p.text = stem ++ e) :
    ∃ stem', q.text = stem' ++ e ∧ Beside ⟨stem⟩ ⟨stem'⟩ := by
  obtain ⟨a, b, last, abreast, hp, hq⟩ := h
  obtain ⟨x, rfl, rfl⟩ := hp.exists_of_text noSlash text
  have noSlash' : '/' ∉ x.toList := fun slash => hp.noSlash (by simp [slash])
  refine ⟨b ++ x, by rw [hq.text, String.append_assoc], a, b, x, abreast, ?_, ?_⟩
  · exact ⟨rfl, noSlash', hp.above⟩
  · exact ⟨rfl, noSlash', hq.above⟩

theorem dropSuffix?_rel (h : Beside p q) (noSlash : '/' ∉ e.toList) :
    Option.Rel Beside (p.dropSuffix? e) (q.dropSuffix? e) := by
  have text (p : Path) (s : List Char) :
      dropTail? e.toList p.text.toList = some s ↔ p.text = String.ofList s ++ e := by
    rw [dropTail?_eq_some_iff, ← String.toList_inj, String.toList_append, String.toList_ofList]
  unfold Path.dropSuffix?
  cases hp : dropTail? e.toList p.text.toList with
  | some s =>
    obtain ⟨stem, hq, beside⟩ := h.cut noSlash ((text p s).1 hp)
    rw [(text q stem.toList).2 (by simpa using hq)]
    exact .some (by simpa using beside)
  | none =>
    cases hq : dropTail? e.toList q.text.toList with
    | none => exact .none
    | some s =>
      obtain ⟨stem, hp', -⟩ := h.symm.cut noSlash ((text q s).1 hq)
      cases hp.symm.trans ((text p stem.toList).2 (by simpa using hp'))

theorem append (h : Beside p q) (noSlash : '/' ∉ e.toList) : Beside (p.append e) (q.append e) := by
  obtain ⟨a, b, last, abreast, hp, hq⟩ := h
  have noSlash' : '/' ∉ (last ++ e).toList := by
    rw [String.toList_append, List.mem_append, not_or]
    exact ⟨hp.noSlash, noSlash⟩
  refine ⟨a, b, last ++ e, abreast, ⟨?_, noSlash', hp.above⟩, ⟨?_, noSlash', hq.above⟩⟩
  · rw [Path.append, hp.text, String.append_assoc]
  · rw [Path.append, hq.text, String.append_assoc]

theorem prepend (h : Beside p q) (c : String) : Beside ⟨c ++ p.text⟩ ⟨c ++ q.text⟩ := by
  obtain ⟨a, b, last, abreast, hp, hq⟩ := h
  by_cases nil : a = ""
  · rw [hp.text, hq.text, nil, abreast.eq_empty_iff.1 nil]
    exact .refl _
  · have both := abreast.prepend nil c
    refine ⟨c ++ a, c ++ b, last, both, ⟨?_, hp.noSlash, both.left⟩, ⟨?_, hp.noSlash, both.right⟩⟩
    · rw [hp.text, String.append_assoc]
    · rw [hq.text, String.append_assoc]

theorem div (h : Beside p q) (base : Path) : Beside (base / p) (base / q) := by
  have start := isAbsolute_congr h.parts
  cases absolute : p.isAbsolute with
  | true =>
    have itself {p : Path} (h : p.isAbsolute = true) : base / p = p := if_pos h
    rwa [itself absolute, itself (start.symm.trans absolute)]
  | false =>
    rw [div_eq_front absolute, div_eq_front (start.symm.trans absolute)]
    exact h.prepend _

theorem signalKey (h : Beside p q) {message : String} (noSlash : '/' ∉ message.toList) :
    Beside ⟨signalKey p message⟩ ⟨signalKey q message⟩ := by
  rw [signalKey_eq, signalKey_eq]
  exact (h.prepend signalOpen).append (slash_notMem_signalTail noSlash)

end Beside

/-- What is in a text beside slashes and dots is in a name. -/
theorem mem_text_iff {c : Char} (slash : c ≠ '/') (dot : c ≠ '.') :
    c ∈ p.text.toList ↔ ∃ n ∈ p.names, c ∈ n.toList := by
  have pieces (cs : List Char) : c ∈ cs ↔ ∃ s ∈ cutAt (· == '/') cs, c ∈ s := by
    induction cs with
    | nil => simp [cutAt]
    | cons x cs ih =>
      obtain ⟨piece, rest, e⟩ := List.exists_cons_of_ne_nil (cutAt_ne_nil (· == '/') cs)
      rw [e] at ih
      by_cases hit : x = '/'
      · simp [cutAt, hit, slash, e, ih]
      · simp [cutAt, hit, e, ih, or_assoc]
  rw [pieces, names, namesOf]
  constructor
  · rintro ⟨s, mem, hs⟩
    have proper : s ≠ [] ∧ s ≠ ['.'] := by
      refine ⟨List.ne_nil_of_mem hs, ?_⟩
      rintro rfl
      exact dot (List.mem_singleton.1 hs)
    have kept : s ∈ p.segments.filter fun s => s ≠ [] ∧ s ≠ ['.'] :=
      List.mem_filter.2 ⟨mem, by simpa using proper⟩
    exact ⟨String.ofList s, List.mem_map_of_mem kept, by simpa using hs⟩
  · rintro ⟨n, mem, hn⟩
    obtain ⟨s, kept, rfl⟩ := List.mem_map.1 mem
    exact ⟨s, (List.mem_filter.1 kept).1, by simpa using hn⟩

/-! ### The paths above -/

theorem dropIdle_of_namesOf_nil {segments : List (List Char)} (h : namesOf segments = []) :
    dropIdle segments = [] ∨ dropIdle segments = [['.']] := by
  induction segments with
  | nil => exact .inl rfl
  | cons s ss ih =>
    have idle : s = [] ∨ s = ['.'] := by
      by_contra proper
      rw [namesOf_cons (not_or.1 proper)] at h
      simp at h
    rw [namesOf_cons_idle idle] at h
    cases ss with
    | nil => rcases idle with rfl | rfl <;> simp [dropIdle]
    | cons t ts =>
      rw [dropIdle_cons (by simp), if_pos idle]
      exact ih h

/-- A path above another one that passes no name. -/
theorem text_of_parent? {above : Path} (h : p.parent? = some above) (nil : above.names = []) :
    above.text = "" ∨ above.text = "/" ∨ above.text = "." := by
  unfold parent? at h
  split at h
  · simp at h
  case h_2 last rest e =>
    obtain rfl := Option.some.inj h
    have noSlash : ∀ s ∈ dropIdle rest, '/' ∉ s := by
      intro s hs slash
      have mem : s ∈ p.segments := List.mem_reverse.1 <|
        mem_of_mem_dropIdle (e ▸ List.mem_cons_of_mem _ (mem_of_mem_dropIdle hs))
      simpa using mark_eq_false_of_mem_cutAt mem '/' slash
    have nil : namesOf rest = [] := by
      by_cases nothing : dropIdle rest = []
      · rw [← (dropIdle_spec rest).1, nothing]
        rfl
      · rw [names, segments_ofSegments nothing noSlash, namesOf_reverse, (dropIdle_spec rest).1] at nil
        simpa using nil
    rcases dropIdle_of_namesOf_nil nil with e | e
    · rw [e, ofSegments, if_pos rfl]
      cases p.isAbsolute <;> simp
    · rw [e]
      exact .inr (.inr rfl)

/-- The paths above spellings of one path that end in a name are such spellings too, or one path
that passes no name. -/
theorem Beside.parent? (h : Beside p q) (hp : p.EndsIn last) (hq : q.EndsIn last) :
    ∃ x y, p.parent? = some x ∧ q.parent? = some y ∧
      x.text.toList <+: p.text.toList ∧ y.text.toList <+: q.text.toList ∧
      p.names = x.names ++ [last] ∧
      (x = y ∧ (x.text = "" ∨ x.text = "/" ∨ x.text = ".") ∨
        Beside x y ∧ ∃ last', x.EndsIn last' ∧ y.EndsIn last') := by
  obtain ⟨x, hx, names, ends, text⟩ := hp.exists_parent?
  obtain ⟨y, hy, names', ends', text'⟩ := hq.exists_parent?
  refine ⟨x, y, hx, hy, text, text', names, ?_⟩
  have parts : x.parts = y.parts := by
    obtain ⟨front, e, ne, ne'⟩ := id hp
    obtain ⟨front', e', -⟩ := id hq
    have proper : ¬ Idle last := not_or.2 ⟨ne, ne'⟩
    obtain ⟨x', hx', parts⟩ := parent?_of_segments e hp.toList_ne
    obtain ⟨y', hy', parts'⟩ := parent?_of_segments e' hp.toList_ne
    obtain rfl := Option.some.inj (hx.symm.trans hx')
    obtain rfl := Option.some.inj (hy.symm.trans hy')
    obtain ⟨part, all⟩ := parts_of_segments e proper
    obtain ⟨part', all'⟩ := parts_of_segments e' proper
    rw [parts, parts']
    exact List.append_inj_left' (all.symm.trans (h.parts.trans all')) rfl
  have same := names_congr parts
  rcases List.eq_nil_or_concat' x.names with nil | ⟨front, last', some_⟩
  · refine .inl ⟨?_, text_of_parent? hx nil⟩
    have hx := text_of_parent? hx nil
    have hy := text_of_parent? hy (same ▸ nil)
    obtain ⟨x⟩ := x
    obtain ⟨y⟩ := y
    dsimp only at hx hy
    rcases hx with rfl | rfl | rfl <;> rcases hy with rfl | rfl | rfl <;> first | rfl | exact absurd parts (by decide)
  · have ex := ends _ _ some_
    have ey := ends' _ _ (same ▸ some_)
    exact .inr ⟨.of_endsIn parts ex ey, last', ex, ey⟩

/-! ### File names and extensions -/

theorem joinWith_append_last (separator x y : List Char) (front : List (List Char)) :
    joinWith separator (front ++ [x ++ y]) = joinWith separator (front ++ [x]) ++ y := by
  induction front with
  | nil => rfl
  | cons s ss ih =>
    rw [List.cons_append, List.cons_append, joinWith_cons_of_ne_nil _ _ (by simp),
      joinWith_cons_of_ne_nil _ _ (by simp), ih]
    simp only [List.append_assoc]

/-- A path with a file name, without what stands idle after the name. -/
theorem exists_trimmed {n : String} (h : p.fileName? = some n) : ∃ (r : Path) (front : _),
    r.segments = front ++ [n.toList] ∧ r.parts = p.parts ∧ r.text.toList <+: p.text.toList ∧
      dropIdle p.segments.reverse = n.toList :: front.reverse := by
  have last : p.parts.getLast? = some (.name n) := by
    unfold fileName? at h
    split at h
    · rw [← Option.some.inj h]
      assumption
    · simp at h
  have named : namesOf p.segments ≠ [] := by
    intro nil
    have mem : n ∈ p.names := by
      rw [names_eq_filterMap, List.mem_filterMap]
      exact ⟨_, List.mem_of_getLast? last, rfl⟩
    simp [names, nil] at mem
  obtain ⟨-, suffix, first⟩ := dropIdle_spec p.segments.reverse
  obtain ⟨s, rest, e, proper⟩ := first (by rw [namesOf_reverse]; simpa using named)
  have noSlash : ∀ x ∈ rest.reverse ++ [s], '/' ∉ x := by
    intro x hx slash
    have mem : x ∈ p.segments := List.mem_reverse.1 (suffix.subset (e ▸ by simpa [or_comm] using hx))
    simpa using mark_eq_false_of_mem_cutAt mem '/' slash
  have segments : (ofSegments p.isAbsolute (s :: rest)).segments = rest.reverse ++ [s] := by
    rw [segments_ofSegments (by simp) (fun x hx => noSlash x (by simpa [or_comm] using hx)),
      List.reverse_cons]
  have ne : p.segments ≠ [[]] := fun e => named (by rw [e]; rfl)
  have lead : leadParts p.segments = leadParts (rest.reverse ++ [s]) := by
    rcases leadParts_dropIdle p.segments with ⟨nil, -⟩ | ⟨-, same⟩
    · simp [e] at nil
    · rw [same, e, List.reverse_cons]
  have parts : (ofSegments p.isAbsolute (s :: rest)).parts = p.parts := by
    rw [Path.parts, Path.parts, segments, partsOf_eq_leadParts ne, lead,
      partsOf_append_singleton _ proper.1]
  have name : s = n.toList := by
    have firstPart : firstPart? s = part? s := by simp [firstPart?, proper]
    obtain ⟨part, e, spelled⟩ := exists_firstPart? s
    rw [← parts, Path.parts, segments, partsOf_append_singleton _ proper.1,
      leadParts_append_singleton, ← firstPart, ite_self, e, Option.toList_some,
      List.getLast?_concat] at last
    rw [← spelled, Option.some.inj last]
    rfl
  subst name
  refine ⟨_, rest.reverse, segments, parts, ?_, by simpa using e⟩
  have whole : p.text.toList = joinWith ['/'] p.segments := by rw [Path.segments, joinWith_cutAt]
  have kept : rest.reverse ++ [n.toList] <+: p.segments := by
    have := List.reverse_prefix.2 (e ▸ suffix)
    simpa using this
  rw [whole, ofSegments, if_neg (by simp), String.toList_ofList, List.reverse_cons]
  exact joinWith_prefix _ kept

/-- The path above a file name has the parts before it. -/
theorem exists_parent?_of_fileName? {n : String} (h : p.fileName? = some n) :
    ∃ above, p.parent? = some above ∧ p.parts = above.parts ++ [.name n] := by
  obtain ⟨r, front, segments, parts, -, trimmed⟩ := exists_trimmed h
  have name := isName_of_fileName? h
  have ne : n.toList ≠ [] := fun e => name.ne_empty (String.toList_inj.1 e)
  have here : n.toList ≠ ['.'] := fun e => name.ne_here (String.toList_inj.1 e)
  obtain ⟨above, parent, lead⟩ := parent?_of_segments segments ⟨ne, here⟩
  have same : p.parent? = r.parent? := by
    have rev : dropIdle r.segments.reverse = n.toList :: front.reverse := by
      rw [segments, List.reverse_append, List.reverse_singleton, List.singleton_append,
        dropIdle_cons_of_isName name]
    rw [Path.parent?, Path.parent?, trimmed, rev, isAbsolute_congr parts]
  refine ⟨above, same.trans parent, ?_⟩
  rw [← parts, lead, Path.parts, segments, partsOf_append_singleton _ ne, leadParts_append name]

/-- An extension is written after a file name that has none. -/
theorem exists_withExtension {n : String} (h : p.fileName? = some n) (noDot : '.' ∉ n.toList) :
    ∃ r : Path, r.parts = p.parts ∧ r.EndsIn n ∧ r.text.toList <+: p.text.toList ∧
      ∀ extension ≠ "", p.withExtension extension = r.append ("." ++ extension) := by
  obtain ⟨r, front, segments, parts, text, trimmed⟩ := exists_trimmed h
  have name := isName_of_fileName? h
  refine ⟨r, parts, ⟨front, segments, name.ne_empty, name.ne_here⟩, text, fun extension ne => ?_⟩
  have split : splitExtension n.toList = (n.toList, none) := by
    rw [splitExtension, cutOnce_eq_none (by simpa using noDot)]
  have none_ : p.extension? = none := by simp [extension?, h, split]
  have some_ : extension.isEmpty = false := by simpa using ne
  have whole : r.text.toList = joinWith ['/'] (front ++ [n.toList]) := by
    rw [← segments, Path.segments, joinWith_cutAt]
  rw [withExtension, none_]
  simp only [endStem, h, split, some_, trimmed, ofSegments]
  rw [if_neg (by simp), Path.append, Path.mk.injEq, ← String.toList_inj]
  simp [whole, joinWith_append_last]

/-- What is before the last dot of a name, beside what is after it. -/
theorem exists_splitExtension (name : List Char) : ∃ stem,
    splitExtension name = (stem, none) ∧ stem = name ∨
      ∃ extension, splitExtension name = (stem, some extension) ∧ stem ≠ [] ∧
        name = stem ++ '.' :: extension := by
  rcases both : splitExtension name with ⟨stem, extension⟩
  refine ⟨stem, ?_⟩
  have split := both
  unfold splitExtension at both
  split at both
  · obtain ⟨rfl, rfl⟩ := Prod.mk.inj both
    exact .inl ⟨rfl, rfl⟩
  · obtain ⟨rfl, rfl⟩ := Prod.mk.inj both
    exact .inl ⟨rfl, rfl⟩
  case h_3 after before ne e =>
    obtain ⟨rfl, rfl⟩ := Prod.mk.inj both
    refine .inr ⟨_, rfl, fun nil => ?_, eq_of_splitExtension split⟩
    exact ne (List.reverse_eq_nil_iff.1 nil)

theorem fileName?_of_opens (opens : Opens a) (name : IsName last) :
    (⟨a ++ last⟩ : Path).fileName? = some last := by
  have parts : (⟨a ++ last⟩ : Path).parts = leadParts (segmentsOf a) ++ [.name last] := by
    rw [Path.parts, segments_append opens name.noSlash,
      partsOf_append_singleton _ (fun e => name.ne_empty (String.toList_inj.1 e)), leadParts_append name]
  exact fileName?_of_parts parts

theorem fileName?_up (opens : Opens a) : (⟨a ++ ".."⟩ : Path).fileName? = none := by
  have part : (if segmentsOf a = [] then firstPart? "..".toList else part? "..".toList) = some .up := by
    rw [show firstPart? "..".toList = some .up from rfl, show part? "..".toList = some .up from rfl, ite_self]
  rw [fileName?, Path.parts, segments_append opens (by decide), partsOf_append_singleton _ (by simp),
    leadParts_append_singleton, part, Option.toList_some, List.getLast?_concat]

/-- Ended in its stem, a path has the segments before its file name, and the stem. -/
theorem segments_endStem (opens : Opens a) (name : IsName last) :
    ((⟨a ++ last⟩ : Path).endStem "").segments = segmentsOf a ++ [(splitExtension last.toList).1] := by
  have all := segments_append opens name.noSlash
  have part : ∀ c ∈ (splitExtension last.toList).1, c ∈ last.toList := by
    obtain ⟨stem, ⟨split, rfl⟩ | ⟨extension, split, -, e⟩⟩ := exists_splitExtension last.toList
    · rw [split]
      exact fun c hc => hc
    · rw [split]
      exact fun c hc => by simp [e, hc]
  have rev : dropIdle (⟨a ++ last⟩ : Path).segments.reverse = last.toList :: (segmentsOf a).reverse := by
    rw [all, List.reverse_append, List.reverse_singleton, List.singleton_append,
      dropIdle_cons_of_isName name]
  have noSlash : ∀ x ∈ (splitExtension last.toList).1 :: (segmentsOf a).reverse, '/' ∉ x := by
    intro x hx slash
    rcases List.mem_cons.1 hx with rfl | hx
    · exact name.noSlash (part _ slash)
    · have mem : x ∈ (⟨a ++ last⟩ : Path).segments := by
        rw [all]
        exact List.mem_append_left _ (List.mem_reverse.1 hx)
      simpa using mark_eq_false_of_mem_cutAt mem '/' slash
  have empty : ("" : String).isEmpty = true := rfl
  rw [Path.endStem, fileName?_of_opens opens name]
  simp only [rev, empty, ↓reduceIte, List.append_nil, List.tail_cons]
  rw [segments_ofSegments (by simp) noSlash, List.reverse_cons, List.reverse_reverse]

theorem Abreast.endStem (h : Abreast a b) (noSlash : '/' ∉ last.toList) (proper : ¬ Idle last) :
    ((⟨a ++ last⟩ : Path).endStem "").parts = ((⟨b ++ last⟩ : Path).endStem "").parts := by
  by_cases up : last = ".."
  · subst up
    rw [Path.endStem, Path.endStem, fileName?_up h.left, fileName?_up h.right]
    exact h.parts_eq noSlash
  · have name : IsName last :=
      ⟨fun e => proper (.inl e), noSlash, fun e => proper (.inr e), up⟩
    exact parts_congr_of_segments (segments_endStem h.left name) (segments_endStem h.right name) h.parts

/-- As the extension is taken off, its dot is left; then the path is ended in its stem. -/
theorem withExtension_of_split {name : String} {stem extension : List Char} (hp : p.Spelled a name)
    (named : p.fileName? = some name) (split : splitExtension name.toList = (stem, some extension)) :
    p.withExtension "" = (⟨a ++ String.ofList (stem ++ ['.'])⟩ : Path).endStem "" := by
  have known : p.extension? = some (String.ofList extension) := by
    rw [extension?, named, Option.bind_some, split]
    rfl
  have text : p.text.toList = (a.toList ++ (stem ++ ['.'])) ++ extension := by
    simp [hp.text, eq_of_splitExtension split]
  have length : p.text.length - (String.ofList extension).length =
      (a.toList ++ (stem ++ ['.'])).length := by
    rw [← String.length_toList, text]
    simp
    omega
  rw [withExtension, known]
  dsimp only
  rw [length, text, List.take_left]
  simp

/-- Without its extension, a path is the same however it is spelled before its last slash. -/
theorem Beside.withoutExtension (h : Beside p q) (hp : p.EndsIn last) :
    (p.withExtension "").parts = (q.withExtension "").parts := by
  obtain ⟨a, b, x, abreast, hp', hq'⟩ := id h
  obtain rfl : x = last := hp.eq_of_spelled hp'
  have proper : ¬ Idle x := not_or.2 hp.choose_spec.2
  have named_eq : q.fileName? = p.fileName? := by rw [fileName?, fileName?, h.parts]
  have plain (none_ : p.extension? = none) : (p.withExtension "").parts = (q.withExtension "").parts := by
    have none' : q.extension? = none := by rwa [extension?, named_eq]
    rw [withExtension, withExtension, none_, none']
    have same := abreast.endStem hp'.noSlash proper
    rwa [← hp'.text, ← hq'.text] at same
  cases named : p.fileName? with
  | none => exact plain (by simp [extension?, named])
  | some name =>
    obtain rfl : name = x := by
      obtain ⟨above, -, parts⟩ := exists_parent?_of_fileName? named
      obtain ⟨front, e⟩ := hp.exists_names
      have e' : p.names = above.names ++ [name] := names_of_parts_singleton parts
      exact List.singleton_inj.1 (List.append_inj' (e'.symm.trans e) rfl).2
    obtain ⟨stem, ⟨split, -⟩ | ⟨extension, split, ne, e⟩⟩ := exists_splitExtension name.toList
    · exact plain (by simp [extension?, named, split])
    · rw [withExtension_of_split hp' named split, withExtension_of_split hq' (named_eq.trans named) split]
      refine abreast.endStem (fun slash => hp'.noSlash ?_) ?_
      · simp only [String.toList_ofList, List.mem_append, List.mem_singleton] at slash
        rw [e]
        exact List.mem_append_left _ (slash.resolve_right (by decide))
      · intro idle
        obtain ⟨c, cs, rfl⟩ := List.exists_cons_of_ne_nil ne
        rcases idle with idle | idle
        · simpa using congrArg String.toList idle
        · simpa using congrArg String.toList idle

section Extension

variable {x extension : String} (some_ : extension ≠ "") (noDot : '.' ∉ extension.toList)
  (noSlash : '/' ∉ extension.toList)

include some_ noDot noSlash

theorem isName_append_extension (noSlash' : '/' ∉ x.toList) : IsName (x ++ "." ++ extension) := by
  obtain ⟨cs, c, e⟩ := extension.toList.eq_nil_or_concat'.resolve_left fun nil =>
    some_ (String.toList_eq_nil_iff.1 nil)
  have whole : (x ++ "." ++ extension).toList = (x.toList ++ '.' :: cs) ++ [c] := by simp [e]
  have apart {other : String} (h : other.toList.getLast? ≠ some c) : x ++ "." ++ extension ≠ other := by
    rintro rfl
    exact h (by rw [whole, List.getLast?_concat])
  have dot : c ≠ '.' := fun same => noDot (by simp [e, same])
  refine ⟨apart (by simp), ?_, apart (by simpa using dot.symm), apart (by simpa using dot.symm)⟩
  simp only [String.toList_append, List.mem_append, not_or]
  exact ⟨⟨noSlash', by decide⟩, noSlash⟩

/-- What is taken for an extension after a name is one, and leaves the name. -/
theorem parts_withExtension_append (h : p.Spelled a x) (proper : ¬ Idle x) :
    ((p.append ("." ++ extension)).withExtension "").parts = p.parts := by
  have name := isName_append_extension some_ noDot noSlash h.noSlash
  have ne : x.toList ≠ [] := fun nil => proper (.inl (String.toList_eq_nil_iff.1 nil))
  have text : (p.append ("." ++ extension)) = ⟨a ++ (x ++ "." ++ extension)⟩ := by
    rw [append, h.text]
    simp only [String.append_assoc]
  have spelled : (p.append ("." ++ extension)).Spelled a (x ++ "." ++ extension) :=
    ⟨congrArg Path.text text, name.noSlash, h.above⟩
  have dotted : IsName (x ++ ".") := by
    refine ⟨fun e => ?_, ?_, fun e => ?_, fun e => ?_⟩
    · simpa using congrArg String.toList e
    · simpa using h.noSlash
    · exact proper (.inl ((String.append_left_inj _).1 (e : x ++ "." = "" ++ ".")))
    · exact proper (.inr ((String.append_left_inj _).1 (e : x ++ "." = "." ++ ".")))
  have split : splitExtension (x ++ "." ++ extension).toList = (x.toList, some extension.toList) := by
    simpa using splitExtension_append ne noDot
  have split' : splitExtension (x ++ ".").toList = (x.toList, some []) := by
    simpa using @splitExtension_append x.toList [] ne (by simp)
  have rest : (⟨a ++ String.ofList (x.toList ++ ['.'])⟩ : Path) = ⟨a ++ (x ++ ".")⟩ := by
    rw [Path.mk.injEq, ← String.toList_inj]
    simp
  have segments := segments_append h.opens h.noSlash
  rw [← h.text] at segments
  rw [withExtension_of_split spelled (text ▸ fileName?_of_opens h.opens name) split, rest, parts, parts,
    segments_endStem h.opens dotted, split', segments]

/-- What is taken for an extension after a dot leaves a `..`. -/
theorem withExtension_append_of_here (h : p.Spelled a ".") :
    (p.append ("." ++ extension)).withExtension "" = p.append "." := by
  have name := isName_append_extension some_ noDot noSlash h.noSlash
  have text : (p.append ("." ++ extension)) = ⟨a ++ ("." ++ "." ++ extension)⟩ := by
    rw [append, h.text]
    simp only [String.append_assoc]
  have spelled : (p.append ("." ++ extension)).Spelled a ("." ++ "." ++ extension) :=
    ⟨congrArg Path.text text, name.noSlash, h.above⟩
  have split : splitExtension ("." ++ "." ++ extension).toList = (['.'], some extension.toList) := by
    simpa using @splitExtension_append ['.'] _ (by simp) noDot
  have rest : (⟨a ++ String.ofList (['.'] ++ ['.'])⟩ : Path) = ⟨a ++ ".."⟩ := rfl
  rw [withExtension_of_split spelled (text ▸ fileName?_of_opens h.opens name) split, rest, endStem,
    fileName?_up h.opens, append, h.text, String.append_assoc]
  rfl

/-- After a slash or nothing there is a file name, and no extension. -/
theorem parts_withExtension_append_of_empty (h : p.Spelled a "") :
    ((p.append ("." ++ extension)).withExtension "").parts = (p.append ("." ++ extension)).parts := by
  have name := isName_append_extension (x := "") some_ noDot noSlash (by simp)
  have text : p.append ("." ++ extension) = ⟨a ++ ("" ++ "." ++ extension)⟩ := by
    rw [append, h.text]
    simp
  have split : splitExtension ("" ++ "." ++ extension).toList = (("" ++ "." ++ extension).toList, none) := by
    have reversed : ("" ++ "." ++ extension).toList.reverse = extension.toList.reverse ++ '.' :: [] := by
      simp
    rw [splitExtension, reversed, cutOnce_append (by simpa using noDot)]
  rw [text, withExtension, extension?, fileName?_of_opens h.opens name, Option.bind_some, split,
    parts, parts]
  change partsOf (endStem _ "").segments = _
  rw [segments_endStem h.opens name, split, segments_append h.opens name.noSlash]

end Extension

end Path
end FlatModules
