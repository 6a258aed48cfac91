import FlatModules.Build.Failure
import FlatModules.Proofs.Path.Straight

/-!
# Build — the targets of signals

The target that stands for "the rule does not apply" is a path too, and a project may have a file
there.  It tells the target and, white space and colons apart, the message (`signalKey_eq_iff`).
Its names begin with the opening of the signal written before the target's own
(`signalKey_names`).  It keeps `Aside` from a source if it neither is on the way to the source nor
leads to a name in it without a `<`.
-/

namespace FlatModules

open Text

/-- Whether a path leads straight down, but neither to a source or what is above one nor to
anything in a source by a name without `<`. -/
structure Aside (sources : List Path) (p : Path) : Prop where
  straight : ∃ front last, p.Straight front last
  not_above : ∀ source ∈ sources, ¬ p.names <+: source.names
  marked : ∀ source ∈ sources, ∀ n, source.names ++ [n] <+: p.names → '<' ∈ n.toList

/-- Whether no source begins with a name that opens a signal. -/
def Unmarked (sources : List Path) : Prop :=
  ∀ source ∈ sources, ∀ n ∈ source.names.head?, ¬ signalOpen.toList <+: n.toList

theorem slash_notMem_signalOpen : '/' ∉ signalOpen.toList := by decide

theorem lt_mem_signalOpen_append (name : String) : '<' ∈ (signalOpen ++ name).toList := by
  rw [String.toList_append]
  exact List.mem_append_left _ (by decide)

/-- What a signal writes after the target. -/
def signalTail (message : String) : String :=
  ":" ++ String.ofList (message.toList.map signalChar) ++ signalClose

theorem signalKey_eq (target : Path) (message : String) :
    signalKey target message = signalOpen ++ target.text ++ signalTail message := by
  simp [signalKey, signalTail, String.append_assoc]

theorem slash_notMem_signalTail {message : String} (h : '/' ∉ message.toList) :
    '/' ∉ (signalTail message).toList := by
  have chars : '/' ∉ message.toList.map signalChar := by
    intro mem
    obtain ⟨c, hc, e⟩ := List.mem_map.1 mem
    unfold signalChar at e
    split at e
    · simp at e
    · exact h (e ▸ hc)
  simpa [signalTail, signalClose] using chars

theorem getLast?_signalTail (message : String) : (signalTail message).toList.getLast? = some '>' := by
  rw [signalTail, String.toList_append, List.getLast?_append]
  rfl

/-! ### What it tells -/

theorem colon_notMem_map_signalChar (cs : List Char) : ':' ∉ cs.map signalChar := by
  intro mem
  obtain ⟨c, -, e⟩ := List.mem_map.1 mem
  unfold signalChar at e
  split at e
  · simp at e
  case isFalse other => simp [e] at other

/-- Two texts with a mark between their parts are the same when the parts are, if the mark is in
neither last part. -/
theorem Text.append_mark_inj {mark : Char} {cs cs' ds ds' : List Char} (h : mark ∉ ds)
    (h' : mark ∉ ds') : cs ++ mark :: ds = cs' ++ mark :: ds' ↔ cs = cs' ∧ ds = ds' := by
  constructor
  · intro same
    -- from the end, the mark is the first of its kind
    have backward := congrArg (cutOnce mark) (congrArg List.reverse same)
    simp only [List.reverse_append, List.reverse_cons, List.append_assoc, List.singleton_append]
      at backward
    rw [cutOnce_append (by simpa using h), cutOnce_append (by simpa using h')] at backward
    simpa [and_comm] using backward
  · rintro ⟨rfl, rfl⟩
    rfl

/-- The targets of two signals are the same just when the signals are for targets of one spelling and
their messages differ in white space and colons only. -/
theorem signalKey_eq_iff {t t' : Path} {m m' : String} :
    signalKey t m = signalKey t' m' ↔
      t.text = t'.text ∧
        m.toList.map (fun c => if isBlank c ∨ c = ':' then '_' else c) =
          m'.toList.map (fun c => if isBlank c ∨ c = ':' then '_' else c) := by
  have char : (fun c => if isBlank c ∨ c = ':' then '_' else c) = signalChar := by
    funext c
    simp [signalChar]
  have spelled (t : Path) (m : String) : (signalKey t m).toList =
      signalOpen.toList ++ ((t.text.toList ++ ':' :: m.toList.map signalChar) ++ signalClose.toList) := by
    simp [signalKey]
  rw [char, ← String.toList_inj, spelled, spelled, List.append_cancel_left_eq,
    List.append_cancel_right_eq, ← String.toList_inj]
  exact Text.append_mark_inj (colon_notMem_map_signalChar _) (colon_notMem_map_signalChar _)

example : signalKey ⟨"a:b"⟩ "c d" = signalKey ⟨"a:b"⟩ "c:d" ∧
    signalKey ⟨"a:b"⟩ "c" ≠ signalKey ⟨"a"⟩ "b:c" := by decide

/-! ### Its segments and names -/

/-- The segments of a text with more before it. -/
theorem Text.cutAt_append_left {c : Char} {cs : List Char} (h : c ∉ cs) (ds : List Char) :
    ∃ piece rest, cutAt (· == c) ds = piece :: rest ∧
      cutAt (· == c) (cs ++ ds) = (cs ++ piece) :: rest := by
  induction cs with
  | nil =>
    obtain ⟨piece, rest, e⟩ := List.exists_cons_of_ne_nil (cutAt_ne_nil (· == c) ds)
    exact ⟨piece, rest, e, e⟩
  | cons d cs ih =>
    rw [List.mem_cons, not_or] at h
    obtain ⟨piece, rest, e, e'⟩ := ih h.2
    have other : (d == c) = false := beq_false_of_ne (Ne.symm h.1)
    exact ⟨piece, rest, e, by simp [cutAt, other, e']⟩

/-- The segments of a text with more after it. -/
theorem Text.cutAt_append_right {c : Char} {ds : List Char} (h : c ∉ ds) (cs : List Char) :
    ∃ front last, cutAt (· == c) cs = front ++ [last] ∧
      cutAt (· == c) (cs ++ ds) = front ++ [last ++ ds] := by
  induction cs with
  | nil =>
    have whole : cutAt (· == c) ds = [ds] :=
      cutAt_of_notMem fun d hd => beq_false_of_ne fun e => h (e ▸ hd)
    exact ⟨[], [], rfl, by simpa using whole⟩
  | cons d cs ih =>
    obtain ⟨front, last, e, e'⟩ := ih
    by_cases hit : d = c
    · exact ⟨[] :: front, last, by simp [cutAt, hit, e], by simp [cutAt, hit, e']⟩
    · have other : (d == c) = false := beq_false_of_ne hit
      cases front with
      | nil => exact ⟨[], d :: last, by simp [cutAt, other, e], by simp [cutAt, other, e']⟩
      | cons piece front =>
        exact ⟨(d :: piece) :: front, last, by simp [cutAt, other, e], by simp [cutAt, other, e']⟩

section Key

variable {p : Path} {front : List String} {file message : String}

/-- The segments of a signal's target, by those of the target that it is for. -/
theorem signalKey_segments (h : p.EndsIn file) (hm : '/' ∉ message.toList) :
    (p.segments = [file.toList] ∧ (⟨signalKey p message⟩ : Path).segments =
      [(signalOpen ++ (file ++ signalTail message)).toList]) ∨
    ∃ s ss, p.segments = s :: ss ++ [file.toList] ∧ (⟨signalKey p message⟩ : Path).segments =
      (signalOpen.toList ++ s) :: ss ++ [(file ++ signalTail message).toList] := by
  obtain ⟨init, e, -⟩ := h
  obtain ⟨init', last, e', tail⟩ :=
    Text.cutAt_append_right (slash_notMem_signalTail hm) p.text.toList
  obtain ⟨rfl, same⟩ := List.append_inj' (e.symm.trans e') rfl
  obtain rfl := List.singleton_inj.1 same
  obtain ⟨piece, rest, first, whole⟩ := Text.cutAt_append_left slash_notMem_signalOpen
    (p.text.toList ++ (signalTail message).toList)
  have key : (⟨signalKey p message⟩ : Path).segments = (signalOpen.toList ++ piece) :: rest := by
    rw [Path.segments, signalKey_eq, String.toList_append, String.toList_append, List.append_assoc,
      whole]
  rw [tail] at first
  cases init with
  | nil =>
    obtain ⟨rfl, rfl⟩ := List.cons.inj first
    exact .inl ⟨e, by rw [key]; simp⟩
  | cons s ss =>
    obtain ⟨rfl, rfl⟩ := List.cons.inj first
    exact .inr ⟨_, ss, e, by rw [key]; simp⟩

/-- The names of a signal's target: the opening stands before the first segment, which counts even
if it was a `.`, and the tail after the last name. -/
theorem signalKey_names (h : p.EndsIn file) (hm : '/' ∉ message.toList) :
    ∃ first rest, (⟨signalKey p message⟩ : Path).names = (signalOpen ++ first) :: rest ∧
      ((p.names = [file] ∧ rest = []) ∨
        ∃ mid, rest = mid ++ [file ++ signalTail message] ∧
          (p.names = mid ++ [file] ∧ (first = "" ∨ first = ".") ∨ p.names = first :: mid ++ [file])) := by
  have proper := h.toList_ne
  have open_ (cs : List Char) : signalOpen.toList ++ cs ≠ [] ∧ signalOpen.toList ++ cs ≠ ['.'] := by
    simp [signalOpen]
  have end_ : (file ++ signalTail message).toList ≠ [] ∧
      (file ++ signalTail message).toList ≠ ['.'] := by
    have last : (file ++ signalTail message).toList.getLast? = some '>' := by
      rw [String.toList_append, List.getLast?_append, getLast?_signalTail]
      rfl
    constructor <;> intro e <;> simp [e] at last
  have named : Path.namesOf [file.toList] = [file] := by
    rw [Path.namesOf_cons proper]
    simp
  rcases signalKey_segments h hm with ⟨e, key⟩ | ⟨s, ss, e, key⟩
  · refine ⟨file ++ signalTail message, [], ?_, .inl ⟨by rw [Path.names, e, named], rfl⟩⟩
    rw [Path.names, key, String.toList_append, Path.namesOf_cons (open_ _)]
    simp
  · refine ⟨String.ofList s, Path.namesOf ss ++ [file ++ signalTail message], ?_,
      .inr ⟨Path.namesOf ss, rfl, ?_⟩⟩
    · rw [Path.names, key, List.cons_append, Path.namesOf_cons (open_ _), Path.namesOf_append,
        Path.namesOf_cons end_]
      simp
    · rw [Path.names, e, List.cons_append]
      by_cases idle : s = [] ∨ s = ['.']
      · rw [Path.namesOf_cons_idle idle, Path.namesOf_append, named]
        exact .inl ⟨rfl, by rcases idle with rfl | rfl <;> simp⟩
      · rw [Path.namesOf_cons (not_or.1 idle), Path.namesOf_append, named]
        exact .inr rfl

/-- The target of a signal leads straight down where the target that it is for does. -/
theorem straight_signalKey (h : p.Straight front file) (hm : '/' ∉ message.toList) :
    ∃ front' last, (⟨signalKey p message⟩ : Path).Straight front' last := by
  obtain ⟨first, rest, names, from_⟩ := signalKey_names h.ends hm
  have last_ : (signalTail message).toList.getLast? = some '>' := getLast?_signalTail message
  have noUp : ".." ∉ (⟨signalKey p message⟩ : Path).names := by
    have before : ".." ∉ p.names := h.names ▸ h.noUp
    have head : ".." ≠ signalOpen ++ first := by
      intro e
      have := congrArg (fun s => s.toList.head?) e
      simp [signalOpen] at this
    have final : ".." ≠ file ++ signalTail message := by
      intro e
      have := congrArg (fun s => s.toList.getLast?) e
      rw [String.toList_append, List.getLast?_append, last_] at this
      simp at this
    rw [names, List.mem_cons, not_or]
    refine ⟨head, ?_⟩
    rcases from_ with ⟨-, rfl⟩ | ⟨mid, rfl, ⟨e, -⟩ | e⟩
    · simp
    · rw [e] at before
      simp only [List.mem_append, List.mem_singleton, not_or] at before ⊢
      exact ⟨before.1, final⟩
    · rw [e] at before
      simp only [List.mem_append, List.mem_cons, not_or] at before ⊢
      exact ⟨before.1.2, final, by simp⟩
  have relative : (⟨signalKey p message⟩ : Path).isAbsolute = false := by
    simp [Path.isAbsolute, signalKey_eq, signalOpen]
  -- the last segment is the one with the tail
  obtain ⟨last, ends⟩ : ∃ last, (⟨signalKey p message⟩ : Path).EndsIn last := by
    have proper (cs : List Char) :
        String.ofList (cs ++ (signalTail message).toList) ≠ "" ∧
          String.ofList (cs ++ (signalTail message).toList) ≠ "." := by
      constructor <;> intro e <;>
      · have := congrArg (fun s => s.toList.getLast?) e
        simp [last_] at this
    rcases signalKey_segments h.ends hm with ⟨-, key⟩ | ⟨s, ss, -, key⟩
    · refine ⟨_, [], ?_, proper (signalOpen ++ file).toList⟩
      rw [key]
      simp [List.append_assoc]
    · refine ⟨_, (signalOpen.toList ++ s) :: ss, ?_, proper file.toList⟩
      rw [key]
      simp
  obtain ⟨front', e⟩ := ends.exists_names
  exact ⟨front', last, relative, ends, e, e ▸ noUp⟩

/-- With no source marked, the target of a signal keeps aside from all. -/
theorem aside_of_unmarked {sources : List Path} (unmarked : Unmarked sources)
    (h : p.Straight front file) (hm : '/' ∉ message.toList) :
    Aside sources ⟨signalKey p message⟩ := by
  obtain ⟨first, rest, names, -⟩ := signalKey_names h.ends hm
  refine ⟨straight_signalKey h hm, fun source hs above => ?_, fun source hs n below => ?_⟩
  · rw [names] at above
    obtain ⟨more, e⟩ := above
    refine unmarked source hs (signalOpen ++ first) (by simp [← e]) ?_
    rw [String.toList_append]
    exact List.prefix_append _ _
  · rw [names] at below
    cases e : source.names with
    | nil =>
      rw [e, List.nil_append, List.cons_prefix_cons] at below
      rw [below.1]
      exact lt_mem_signalOpen_append first
    | cons m ms =>
      rw [e, List.cons_append, List.cons_prefix_cons] at below
      refine absurd ?_ (unmarked source hs m (by simp [e]))
      rw [below.1, String.toList_append]
      exact List.prefix_append _ _

/-- A list that continues itself one later is of one element. -/
theorem eq_of_append_singleton_isPrefix {x n : String} {l rest : List String}
    (h : l ++ [n] <+: x :: (l ++ rest)) : n = x := by
  induction l with
  | nil => simpa using h
  | cons a l ih =>
    rw [List.cons_append, List.cons_prefix_cons] at h
    obtain ⟨rfl, h⟩ := h
    exact ih (by simpa using h)

/-- The target of a signal keeps aside from the source of the target that it is for, however that
is named. -/
theorem aside_own {source : Path} (h : p.Straight front file) (hm : '/' ∉ message.toList)
    (hs : source.names <+: front) : Aside [source] ⟨signalKey p message⟩ := by
  obtain ⟨first, rest, names, from_⟩ := signalKey_names h.ends hm
  obtain ⟨more, rfl⟩ := hs
  rw [h.names] at from_
  have longer (n : String) : n ≠ signalOpen ++ n := by
    intro e
    have := congrArg String.length e
    simp [signalOpen] at this
  refine ⟨straight_signalKey h hm, ?_, ?_⟩
  · rintro s hs above
    obtain rfl := List.mem_singleton.1 hs
    rw [names] at above
    rcases from_ with ⟨e, rfl⟩ | ⟨mid, rfl, ⟨e, -⟩ | e⟩
    · have := above.length_le
      have := congrArg List.length e
      simp at *
      omega
    · have := above.length_le
      have := congrArg List.length e
      simp at *
      omega
    · have := above.length_le
      have := congrArg List.length e
      obtain ⟨m, ms, e'⟩ := List.exists_cons_of_ne_nil (l := s.names) (by rintro e'; simp [e'] at above)
      rw [e', List.cons_append, List.cons_append, List.cons_append] at e
      rw [e', List.cons_prefix_cons] at above
      exact longer first (((List.cons.inj e).1.symm.trans above.1.symm))
  · rintro s hs n below
    obtain rfl := List.mem_singleton.1 hs
    rw [names] at below
    by_cases nil : s.names = []
    · rw [nil, List.nil_append, List.cons_prefix_cons] at below
      rw [below.1]
      exact lt_mem_signalOpen_append first
    · obtain ⟨m, ms, e'⟩ := List.exists_cons_of_ne_nil nil
      rcases from_ with ⟨e, rfl⟩ | ⟨mid, rfl, ⟨e, -⟩ | e⟩
      · have := below.length_le
        simp [e'] at this
      · obtain rfl : mid = s.names ++ more := (List.append_inj_left' e rfl).symm
        rw [List.append_assoc] at below
        rw [eq_of_append_singleton_isPrefix below]
        exact lt_mem_signalOpen_append first
      · rw [e', List.cons_append, List.cons_append, List.cons_append] at e
        rw [e', List.cons_append, List.cons_prefix_cons] at below
        exact absurd ((List.cons.inj e).1.symm.trans below.1) (longer first)

end Key

end FlatModules
