import Mathlib.Data.List.Basic
import FlatModules.BuildLog.Invocation

/-!
# Build log — reading by words

A line is read from its end in one pass, which marks its white space with what is found after it
(`markBlanks_eq`).  The same is found by reading the words of the line one after the other
(`parse?_eq_ofWords`), as what is looked for at white space is told by the words after it
(`lastRead_spaced`).
-/

namespace FlatModules

/-! ### Words -/

namespace Text

/-- A text that begins where a word may end, and its words. -/
inductive Spaced : List Char → List (List Char) → Prop where
  | nil : Spaced [] []
  | blank {c : Char} {rest : List Char} {ws : List (List Char)} (hc : isBlank c = true)
      (h : Spaced rest ws) : Spaced (c :: rest) ws
  | word {c : Char} {w rest : List Char} {ws : List (List Char)} (hc : isBlank c = true)
      (ne : w ≠ []) (hw : ∀ d ∈ w, isBlank d = false) (h : Spaced rest ws) :
      Spaced (c :: (w ++ rest)) (w :: ws)

/-- A text is the rest of a word, and what comes after it. -/
theorem exists_spaced (cs : List Char) :
    ∃ w rest ws, cs = w ++ rest ∧ (∀ c ∈ w, isBlank c = false) ∧ Spaced rest ws := by
  induction cs with
  | nil => exact ⟨[], [], [], rfl, by simp, .nil⟩
  | cons c cs ih =>
    obtain ⟨w, rest, ws, rfl, hw, spaced⟩ := ih
    cases hc : isBlank c with
    | false => exact ⟨c :: w, rest, ws, rfl, by simpa [hc] using hw, spaced⟩
    | true =>
      by_cases ne : w = []
      · subst ne
        exact ⟨[], c :: rest, ws, rfl, by simp, .blank hc spaced⟩
      · exact ⟨[], c :: (w ++ rest), w :: ws, rfl, by simp, .word hc ne hw spaced⟩

theorem words_cons_of_blank {c : Char} (hc : isBlank c = true) (cs : List Char) :
    words (c :: cs) = words cs := by
  simp [words, cutAt, hc]

/-- What comes after the rest of a word is cut off from it. -/
theorem Spaced.cutAt_append {rest : List Char} {ws : List (List Char)} (h : Spaced rest ws)
    {w : List Char} (hw : ∀ c ∈ w, isBlank c = false) :
    cutAt isBlank (w ++ rest) = w :: (cutAt isBlank rest).tail := by
  induction w with
  | nil =>
    cases h with
    | nil => rfl
    | blank hc => simp [cutAt, hc]
    | word hc => simp [cutAt, hc]
  | cons c w ih =>
    rw [List.cons_append, cutAt, if_neg (by simp [hw c]),
      ih fun d hd => hw d (List.mem_cons_of_mem _ hd)]

theorem Spaced.words_append {rest : List Char} {ws : List (List Char)} (h : Spaced rest ws)
    {w : List Char} (ne : w ≠ []) (hw : ∀ c ∈ w, isBlank c = false) :
    words (w ++ rest) = w :: words rest := by
  have first := h.cutAt_append (w := []) (by simp)
  rw [List.nil_append] at first
  rw [words, h.cutAt_append hw, List.filter_cons_of_pos (by simpa using ne), words, first]
  simp

theorem Spaced.words_eq {rest : List Char} {ws : List (List Char)} (h : Spaced rest ws) :
    words rest = ws := by
  induction h with
  | nil => rfl
  | blank hc _ ih => rw [words_cons_of_blank hc, ih]
  | word hc ne hw h ih => rw [words_cons_of_blank hc, h.words_append ne hw, ih]

end Text

namespace BuildLog

open Text

variable {α β : Type} {compilers : List String}

/-! ### Reading without marks -/

/-- What `read` finds last after white space. -/
def lastRead (char : α → Char) (read : List α → Option β) : List α → Option β
  | [] => none
  | a :: rest =>
    if isBlank (char a) then (lastRead char read rest).or (read rest) else lastRead char read rest

/-- The characters of a line, each white space with what `read` finds last after it. -/
def marks (char : α → Char) (read : List α → Option β) : List α → List (Char × Option β)
  | [] => []
  | a :: rest =>
    (char a, if isBlank (char a) then lastRead char read (a :: rest) else none) :: marks char read rest

/-- What `read` finds last after a word that starts here. -/
def readAfter (read : List Char → Option β) : (word rest : List Char) → Option β
  | [], c :: rest => if isBlank c then lastRead id read (c :: rest) else none
  | d :: word, c :: rest => if d = c then readAfter read word rest else none
  | _, [] => none

/-- The flag of a compiler that it is to compile only. -/
def flag : List Char := ['-', 'c']

/-- One pass over a line without line feeds marks all its white space. -/
theorem markBlanks_eq (char : α → Char) (read : List α → Option β) {line : List α}
    (single : ∀ a ∈ line, char a ≠ '\n') : markBlanks char read line = marks char read line := by
  suffices line.foldr (Ahead.extend char read) {} =
      ⟨line, marks char read line, lastRead char read line⟩ by rw [markBlanks, this]
  induction line with
  | nil => rfl
  | cons a line ih =>
    rw [List.foldr_cons, ih fun b hb => single b (List.mem_cons_of_mem _ hb), Ahead.extend]
    by_cases blank : isBlank (char a) = true
    · simp [blank, marks, lastRead, single a]
    · simp [blank, marks, lastRead]

theorem sourceAfterFlag?_marks (line : List Char) :
    sourceAfterFlag? (marks id source? line) = readAfter source? flag line := by
  unfold sourceAfterFlag?
  split
  case h_1 found _ e =>
    match line, e with
    | a :: b :: c :: rest, e =>
      simp only [marks, List.cons.injEq, Prod.mk.injEq, id_eq] at e
      obtain ⟨⟨rfl, -⟩, ⟨rfl, -⟩, ⟨-, rfl⟩, -⟩ := e
      rfl
  case h_2 other =>
    match line with
    | [] | [_] | [_, _] => simp [readAfter, flag]
    | a :: b :: c :: rest =>
      have : ¬ ('-' = a ∧ 'c' = b) := by
        rintro ⟨rfl, rfl⟩
        exact other _ _ _ _ _ rfl
      by_cases ha : '-' = a
      · have hb : 'c' ≠ b := fun hb => this ⟨ha, hb⟩
        simp only [readAfter, flag, if_pos ha, if_neg hb]
      · simp only [readAfter, flag, if_neg ha]

theorem lastRead_marks (line : List Char) :
    lastRead (·.1) sourceAfterFlag? (marks id source? line) = lastRead id (readAfter source? flag) line := by
  induction line with
  | nil => rfl
  | cons c line ih => simp only [marks, lastRead, ih, sourceAfterFlag?_marks, id_eq]

theorem markFlags_eq {line : List Char} (single : '\n' ∉ line) :
    markFlags line = marks id (readAfter source? flag) line := by
  have once : markBlanks id source? line = marks id source? line :=
    markBlanks_eq id source? fun c hc e => single (e ▸ hc)
  have chars : (marks id source? line).map (·.1) = line := by
    clear once single
    induction line with
    | nil => rfl
    | cons c line ih => simp [marks, ih]
  rw [markFlags, once, markBlanks_eq]
  · clear once chars single
    induction line with
    | nil => rfl
    | cons c line ih =>
      have here := lastRead_marks (c :: line)
      simp only [marks, id_eq] at here ih ⊢
      simp only [here, ih]
  · exact fun x hx e => single (chars ▸ e ▸ List.mem_map_of_mem hx)

theorem sourceAfterCompiler?_marks (read : List Char → Option (List Char)) (name line : List Char) :
    sourceAfterCompiler? name (marks id read line) = readAfter read name line := by
  induction name generalizing line with
  | nil => cases line <;> rfl
  | cons c name ih =>
    cases line with
    | nil => rfl
    | cons d line => simp only [marks, sourceAfterCompiler?, readAfter, ih, id_eq]

theorem afterEach_marks (mark : Char → Bool) (read : List Char → Option β) (line : List Char) :
    afterEach (mark ·.1) (marks id read line) = (afterEach mark line).map (marks id read) := by
  induction line with
  | nil => rfl
  | cons c line ih =>
    by_cases hc : mark c = true
    · simp [afterEach, marks, hc, ih]
    · simp [afterEach, marks, hc, ih]

/-! ### Reading by words -/

/-- What `read` finds last in a list of words, each with those after it. -/
def lastOf (read : List (List Char) → Option β) : List (List Char) → Option β
  | [] => none
  | w :: ws => (lastOf read ws).or (read (w :: ws))

/-- The part of a word before its first quote. -/
def beforeQuote (word : List Char) : List Char :=
  word.takeWhile fun c => c != '\'' && c != '"'

/-- The source file that a word names. -/
def sourceOf? : List (List Char) → Option (List Char)
  | [] => none
  | w :: _ =>
    match dropTail? sourceEnding (beforeQuote w) with
    | some (_ :: _) => some (beforeQuote w)
    | _ => none

/-- The last source file after a flag among words. -/
def sourceAfterFlagWord? : List (List Char) → Option (List Char)
  | [] => none
  | w :: ws => if w = flag then lastOf sourceOf? ws else none

/-- The longest name of a compiler that a word ends in, after a slash or as a whole. -/
def nameIn? (compilers : List String) (word : List Char) : Option String :=
  (word :: afterEach (· == '/') word).findSome? fun name =>
    if String.ofList name ∈ compilers then some (String.ofList name) else none

/-- The compilation that words record. -/
def ofWords? (compilers : List String) : List (List Char) → Option Invocation
  | [] => none
  | w :: ws =>
    ((nameIn? compilers w).bind fun compiler =>
      (lastOf sourceAfterFlagWord? ws).map fun source => ⟨compiler, ⟨String.ofList source⟩⟩).or
    (ofWords? compilers ws)

/-- What reads a text by its words: one that begins with a word as its words say, and nothing else. -/
def ReadsWords (read : List Char → Option β) (byWords : List (List Char) → Option β) : Prop :=
  ∀ w rest ws, (∀ c ∈ w, isBlank c = false) → Spaced rest ws →
    read (w ++ rest) = if w = [] then none else byWords (w :: ws)

theorem lastRead_append {read : List Char → Option β} {w : List Char}
    (hw : ∀ c ∈ w, isBlank c = false) (rest : List Char) :
    lastRead id read (w ++ rest) = lastRead id read rest := by
  induction w with
  | nil => rfl
  | cons c w ih =>
    rw [List.cons_append, lastRead, id, if_neg (by simp [hw c]),
      ih fun d hd => hw d (List.mem_cons_of_mem _ hd)]

/-- White space by white space, words are read from the last to the first. -/
theorem lastRead_spaced {read : List Char → Option β} {byWords : List (List Char) → Option β}
    (reads : ReadsWords read byWords) {rest : List Char} {ws : List (List Char)} (h : Spaced rest ws) :
    lastRead id read rest = lastOf byWords ws := by
  induction h with
  | nil => rfl
  | blank hc h ih =>
    have := reads [] _ _ (by simp) h
    simp_all [lastRead]
  | word hc ne hw h ih =>
    rw [lastRead, id, if_pos hc, lastRead_append hw, ih, reads _ _ _ hw h, if_neg ne, lastOf]

theorem readsWords_source : ReadsWords source? sourceOf? := by
  intro w rest ws hw h
  have name : (w ++ rest).takeWhile (!endsName ·) = beforeQuote w := by
    induction w with
    | nil =>
      cases h with
      | nil => rfl
      | blank hc => simp [endsName, hc, beforeQuote]
      | word hc => simp [endsName, hc, beforeQuote]
    | cons c w ih =>
      have own : endsName c = (c == '\'' || c == '"') := by simp [endsName, hw c]
      have rest := ih fun d hd => hw d (List.mem_cons_of_mem _ hd)
      simp only [beforeQuote] at rest ⊢
      simp only [List.cons_append, List.takeWhile_cons, own, rest, Bool.not_or, bne]
  rw [source?, name]
  by_cases nil : w = []
  · subst nil
    rfl
  · rw [if_neg nil]
    rfl

/-- A word that is looked for is found if it is the first. -/
theorem readAfter_append {read : List Char → Option β} {byWords : List (List Char) → Option β}
    (reads : ReadsWords read byWords) {word w : List Char} (hword : ∀ c ∈ word, isBlank c = false)
    (hw : ∀ c ∈ w, isBlank c = false) {rest : List Char} {ws : List (List Char)} (h : Spaced rest ws) :
    readAfter read word (w ++ rest) = if w = word then lastOf byWords ws else none := by
  induction word generalizing w with
  | nil =>
    cases w with
    | nil =>
      rw [if_pos rfl, List.nil_append, ← lastRead_spaced reads h]
      cases h with
      | nil => rfl
      | blank hc => exact if_pos hc
      | word hc => exact if_pos hc
    | cons c w => simp [readAfter, hw c]
  | cons d word ih =>
    have ih {w : List Char} := @ih w (fun c hc => hword c (List.mem_cons_of_mem _ hc))
    cases w with
    | nil =>
      have other {c : Char} (hc : isBlank c = true) : d ≠ c := by
        rintro rfl
        simp [hword d] at hc
      cases h with
      | nil => rfl
      | blank hc => simp [readAfter, other hc]
      | word hc => simp [readAfter, other hc]
    | cons c w =>
      rw [List.cons_append, readAfter, ih fun e he => hw e (List.mem_cons_of_mem _ he)]
      by_cases e : d = c <;> simp [e, eq_comm]

theorem readsWords_flag : ReadsWords (readAfter source? flag) sourceAfterFlagWord? := by
  intro w rest ws hw h
  have plain : ∀ c ∈ flag, isBlank c = false := by simpa [flag] using (by decide)
  rw [readAfter_append readsWords_source plain hw h]
  by_cases nil : w = []
  · simp [nil, flag]
  · rw [if_neg nil]
    rfl

theorem findSome?_of_eq {names : List String} (name : String) (value? : Option β)
    {f : String → Option β} (hf : ∀ n ∈ names, f n = if n = name then value? else none) :
    names.findSome? f = if name ∈ names then value? else none := by
  induction names with
  | nil => rfl
  | cons n names ih =>
    rw [List.findSome?_cons, hf n List.mem_cons_self, ih fun m hm => hf m (List.mem_cons_of_mem _ hm)]
    by_cases e : n = name
    · cases value? <;> simp [e]
    · simp [e, Ne.symm e]

/-- The compilation by a compiler whose name starts here. -/
def recordAt? (compilers : List String) (start : List Char) : Option Invocation :=
  compilers.findSome? fun compiler =>
    (readAfter (readAfter source? flag) compiler.toList start).map fun source =>
      ⟨compiler, ⟨String.ofList source⟩⟩

/-- Names of compilers are words. -/
def AreWords (compilers : List String) : Prop :=
  ∀ name ∈ compilers, name ≠ "" ∧ ∀ c ∈ name.toList, isBlank c = false

instance (compilers : List String) : Decidable (AreWords compilers) :=
  decidable_of_iff (compilers.all fun name => name ≠ "" ∧ name.toList.all (!isBlank ·))
    (by simp [AreWords])

theorem parse?_eq_findSome? (known : compilers ≠ []) {line : String}
    (single : '\n' ∉ line.toList) :
    Invocation.parse? compilers line =
      (line.toList :: afterEach isBoundary line.toList).findSome? (recordAt? compilers) := by
  simp only [Invocation.parse?, if_neg known, markFlags_eq single, afterEach_marks,
    ← List.map_cons, List.findSome?_map, Function.comp_def, sourceAfterCompiler?_marks]
  rfl

theorem recordAt?_append (names : AreWords compilers) {w rest : List Char}
    {ws : List (List Char)} (hw : ∀ c ∈ w, isBlank c = false) (h : Spaced rest ws) :
    recordAt? compilers (w ++ rest) =
      (if String.ofList w ∈ compilers then some (String.ofList w) else none).bind fun compiler =>
        (lastOf sourceAfterFlagWord? ws).map fun source => ⟨compiler, ⟨String.ofList source⟩⟩ := by
  rw [recordAt?, findSome?_of_eq (String.ofList w)
    ((lastOf sourceAfterFlagWord? ws).map fun source => ⟨String.ofList w, ⟨String.ofList source⟩⟩)]
  · split <;> rfl
  · intro name mem
    rw [readAfter_append readsWords_flag (names name mem).2 hw h]
    by_cases e : name = String.ofList w
    · simp [e]
    · have : w ≠ name.toList := fun e' => e (String.toList_inj.1 (by simp [e']))
      simp [e, this]

theorem mem_afterEach {mark : α → Bool} {xs rest : List α} :
    rest ∈ afterEach mark xs ↔ ∃ front a, mark a = true ∧ xs = front ++ a :: rest := by
  induction xs with
  | nil => simp [afterEach]
  | cons b xs ih =>
    have step : (∃ front a, mark a = true ∧ b :: xs = front ++ a :: rest) ↔
        (mark b = true ∧ rest = xs) ∨ ∃ front a, mark a = true ∧ xs = front ++ a :: rest := by
      constructor
      · rintro ⟨front, a, ha, e⟩
        cases front with
        | nil =>
          obtain ⟨rfl, rfl⟩ := List.cons.inj e
          exact .inl ⟨ha, rfl⟩
        | cons c front => exact .inr ⟨front, a, ha, (List.cons.inj e).2⟩
      · rintro (⟨hb, rfl⟩ | ⟨front, a, ha, rfl⟩)
        exacts [⟨[], b, hb, rfl⟩, ⟨b :: front, a, ha, rfl⟩]
    rw [step, ← ih, afterEach]
    split
    case isTrue hb => simp [hb]
    case isFalse hb => simp [hb]

theorem afterEach_boundary_append {w : List Char} (hw : ∀ c ∈ w, isBlank c = false)
    (rest : List Char) :
    afterEach isBoundary (w ++ rest) =
      (afterEach (· == '/') w).map (· ++ rest) ++ afterEach isBoundary rest := by
  induction w with
  | nil => rfl
  | cons c w ih =>
    have own : isBoundary c = (c == '/') := by simp [isBoundary, hw c]
    have ih := ih fun d hd => hw d (List.mem_cons_of_mem _ hd)
    rw [List.cons_append, afterEach, afterEach, own, ih]
    split <;> rfl

/-- The starts in a word find the compiler that it names. -/
theorem findSome?_recordAt?_word (names : AreWords compilers) {w rest : List Char}
    {ws : List (List Char)} (hw : ∀ c ∈ w, isBlank c = false) (h : Spaced rest ws) :
    ((w :: afterEach (· == '/') w).map (· ++ rest)).findSome? (recordAt? compilers) =
      (nameIn? compilers w).bind fun compiler =>
        (lastOf sourceAfterFlagWord? ws).map fun source => ⟨compiler, ⟨String.ofList source⟩⟩ := by
  have inside : ∀ u ∈ w :: afterEach (· == '/') w, ∀ c ∈ u, isBlank c = false := by
    intro u hu
    rcases List.mem_cons.1 hu with rfl | hu
    · exact hw
    · obtain ⟨front, a, -, rfl⟩ := mem_afterEach.1 hu
      exact fun c hc => hw c (by simp [hc])
  rw [List.findSome?_map, nameIn?]
  generalize w :: afterEach (· == '/') w = us at inside
  induction us with
  | nil => rfl
  | cons u us ih =>
    rw [List.findSome?_cons, List.findSome?_cons, ih fun v hv => inside v (List.mem_cons_of_mem _ hv),
      Function.comp, recordAt?_append names (inside u List.mem_cons_self) h]
    by_cases mem : String.ofList u ∈ compilers
    · cases lastOf sourceAfterFlagWord? ws <;> simp [mem]
    · simp [mem]

/-- Boundary by boundary, compilers are looked for word by word. -/
theorem findSome?_recordAt?_spaced (names : AreWords compilers) {rest : List Char}
    {ws : List (List Char)} (h : Spaced rest ws) :
    (afterEach isBoundary rest).findSome? (recordAt? compilers) = ofWords? compilers ws := by
  have noName : String.ofList [] ∉ compilers := fun mem => (names _ mem).1 rfl
  induction h with
  | nil => rfl
  | blank hc h ih =>
    have here := recordAt?_append names (w := []) (by simp) h
    rw [List.nil_append, if_neg noName] at here
    simp [afterEach, isBoundary, hc, here, ih]
  | @word c w rest ws hc ne hw h ih =>
    have boundary : isBoundary c = true := by simp [isBoundary, hc]
    have starts : afterEach isBoundary (c :: (w ++ rest)) =
        (w :: afterEach (· == '/') w).map (· ++ rest) ++ afterEach isBoundary rest := by
      rw [afterEach, if_pos boundary, afterEach_boundary_append hw]
      rfl
    rw [starts, List.findSome?_append, findSome?_recordAt?_word names hw h, ih, ofWords?]

/-- A line records what its words record. -/
theorem parse?_eq_ofWords (known : compilers ≠ []) (names : AreWords compilers) {line : String}
    (single : '\n' ∉ line.toList) :
    Invocation.parse? compilers line = ofWords? compilers (words line.toList) := by
  obtain ⟨w, rest, ws, whole, hw, h⟩ := exists_spaced line.toList
  have starts : (line.toList :: afterEach isBoundary line.toList) =
      (w :: afterEach (· == '/') w).map (· ++ rest) ++ afterEach isBoundary rest := by
    rw [whole, afterEach_boundary_append hw]
    rfl
  rw [parse?_eq_findSome? known single, starts, List.findSome?_append,
    findSome?_recordAt?_word names hw h, findSome?_recordAt?_spaced names h, whole]
  by_cases ne : w = []
  · have noName : String.ofList [] ∉ compilers := fun mem => (names _ mem).1 rfl
    subst ne
    simp [nameIn?, afterEach, noName, h.words_eq]
  · rw [h.words_append ne hw, h.words_eq, ofWords?]

end BuildLog
end FlatModules
