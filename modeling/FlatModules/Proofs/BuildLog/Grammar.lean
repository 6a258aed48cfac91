import FlatModules.Proofs.BuildLog.Words

/-!
# Build log — the grammar of a line

A line records a compilation if a compiler, the flag `-c` and a source file are among its words, in
this order, and the compilation is told by the first such compiler and the last such source file
(`parse?_grammar`).  Without any names of compilers this does not hold, as then the place before any
white space will do for one (`recorded_without_compilers`).
-/

namespace FlatModules

namespace BuildLog

open Text

variable {compilers : List String}

/-- A word that ends in a name, after a slash or as a whole. -/
def EndsInName (word : List Char) (name : String) : Prop :=
  word = name.toList ∨ ∃ path, word = path ++ '/' :: name.toList

/-- A word that names a compiler. -/
def NamesCompiler (compilers : List String) (word : List Char) : Prop :=
  ∃ name ∈ compilers, EndsInName word name

/-- A word that names a source file, before its first quote. -/
def NamesSource (word : List Char) : Prop :=
  ∃ stem, stem ≠ [] ∧ beforeQuote word = stem ++ sourceEnding

/-- What words tell of the compilation that they record. -/
structure Recorded (compilers : List String) (words : List (List Char)) (i : Invocation) : Prop where
  /-- The first word that names a compiler names this one, by the longest of the names that it ends
  in. -/
  compiler : ∃ front word back, words = front ++ word :: back ∧
    (∀ w ∈ front, ¬ NamesCompiler compilers w) ∧ i.compiler ∈ compilers ∧
    EndsInName word i.compiler ∧
    ∀ name ∈ compilers, EndsInName word name → name.length ≤ i.compiler.length
  /-- The last word that names a source file names this one. -/
  source : ∃ front word back, words = front ++ word :: back ∧ NamesSource word ∧
    (∀ w ∈ back, ¬ NamesSource w) ∧ i.source.text.toList = beforeQuote word

theorem sourceOf?_eq_some_iff {w source : List Char} {ws : List (List Char)} :
    sourceOf? (w :: ws) = some source ↔ NamesSource w ∧ source = beforeQuote w := by
  simp only [sourceOf?, NamesSource]
  constructor
  · intro h
    split at h
    case h_1 c stem e =>
      exact ⟨⟨c :: stem, by simp, dropTail?_eq_some_iff.1 e⟩, (Option.some.inj h).symm⟩
    case h_2 => simp at h
  · rintro ⟨⟨stem, ne, e⟩, rfl⟩
    obtain ⟨c, stem, rfl⟩ := List.exists_cons_of_ne_nil ne
    rw [dropTail?_eq_some_iff.2 e]

theorem sourceOf?_isSome_iff {w : List Char} {ws : List (List Char)} :
    (sourceOf? (w :: ws)).isSome ↔ NamesSource w := by
  simp [Option.isSome_iff_exists, sourceOf?_eq_some_iff]

theorem mem_starts_iff {word name : List Char} :
    name ∈ word :: afterEach (· == '/') word ↔ EndsInName word (String.ofList name) := by
  rw [List.mem_cons, mem_afterEach, EndsInName, String.toList_ofList, eq_comm]
  refine or_congr_right ⟨?_, fun ⟨path, e⟩ => ⟨path, '/', rfl, e⟩⟩
  rintro ⟨path, c, slash, e⟩
  exact ⟨path, beq_iff_eq.1 slash ▸ e⟩

/-- Later starts are shorter. -/
theorem pairwise_length_starts (mark : Char → Bool) (word : List Char) :
    (word :: afterEach mark word).Pairwise fun u v => v.length < u.length := by
  induction word with
  | nil => simp [afterEach]
  | cons c word ih =>
    have shorter : ∀ v ∈ word :: afterEach mark word, v.length < (c :: word).length := by
      intro v hv
      rcases List.mem_cons.1 hv with rfl | hv
      · simp
      · exact Nat.lt_trans ((List.pairwise_cons.1 ih).1 v hv) (by simp)
    rw [afterEach]
    split
    · exact List.pairwise_cons.2 ⟨shorter, ih⟩
    · exact List.pairwise_cons.2 ⟨fun v hv => shorter v (List.mem_cons_of_mem _ hv), ih.of_cons⟩

theorem nameIn?_eq_some {word : List Char} {name : String} (h : nameIn? compilers word = some name) :
    name ∈ compilers ∧ EndsInName word name ∧
      ∀ other ∈ compilers, EndsInName word other → other.length ≤ name.length := by
  obtain ⟨before, start, after, whole, here, first⟩ := List.findSome?_eq_some_iff.1 h
  obtain ⟨mem, same⟩ := Option.ite_none_right_eq_some.1 here
  obtain rfl := Option.some.inj same
  have own : start ∈ word :: afterEach (· == '/') word := by simp [whole]
  refine ⟨mem, mem_starts_iff.1 own, fun other known ends => ?_⟩
  have there : other.toList ∈ word :: afterEach (· == '/') word := by
    rwa [mem_starts_iff, String.ofList_toList]
  have sorted := pairwise_length_starts (· == '/') word
  rw [whole] at there sorted
  rcases List.mem_append.1 there with there | there
  · simpa [known] using first _ there
  · rcases List.mem_cons.1 there with e | there
    · simp [← e]
    · have := (List.pairwise_cons.1 (List.pairwise_append.1 sorted).2.1).1 _ there
      simp only [← String.length_toList, String.toList_ofList]
      omega

theorem nameIn?_isSome_iff {word : List Char} :
    (nameIn? compilers word).isSome ↔ NamesCompiler compilers word := by
  simp only [nameIn?, List.findSome?_isSome_iff, mem_starts_iff, NamesCompiler]
  constructor
  · rintro ⟨start, ends, known⟩
    refine ⟨String.ofList start, ?_, ends⟩
    by_contra unknown
    simp [unknown] at known
  · rintro ⟨name, known, ends⟩
    exact ⟨name.toList, by simpa using ends, by simp [known]⟩

theorem exists_of_lastSource {ws : List (List Char)} {source : List Char}
    (h : lastOf sourceOf? ws = some source) :
    ∃ front word back, ws = front ++ word :: back ∧ NamesSource word ∧
      (∀ w ∈ back, ¬ NamesSource w) ∧ source = beforeQuote word := by
  induction ws with
  | nil => simp [lastOf] at h
  | cons w ws ih =>
    rw [lastOf] at h
    cases later : lastOf sourceOf? ws with
    | some s =>
      rw [later, Option.some_or] at h
      obtain ⟨front, word, back, rfl, rest⟩ := ih (later.trans h)
      exact ⟨w :: front, word, back, rfl, rest⟩
    | none =>
      rw [later, Option.none_or] at h
      obtain ⟨here, rfl⟩ := sourceOf?_eq_some_iff.1 h
      refine ⟨[], w, ws, rfl, here, fun v hv names => ?_, rfl⟩
      clear h ih here
      induction ws with
      | nil => simp at hv
      | cons v' ws ih =>
        rw [lastOf, Option.or_eq_none_iff] at later
        rcases List.mem_cons.1 hv with rfl | hv
        · simpa [later.2] using (@sourceOf?_isSome_iff v ws).2 names
        · exact ih later.1 hv

theorem lastSource_isSome_iff {ws : List (List Char)} :
    (lastOf sourceOf? ws).isSome ↔ ∃ source, [source].Sublist ws ∧ NamesSource source := by
  induction ws with
  | nil => simp [lastOf]
  | cons w ws ih =>
    simp only [lastOf, Option.isSome_or, Bool.or_eq_true, ih, sourceOf?_isSome_iff,
      List.cons_sublist_cons', List.nil_sublist, and_true]
    constructor
    · rintro (⟨s, sub, names⟩ | names)
      exacts [⟨s, .inl sub, names⟩, ⟨w, .inr rfl, names⟩]
    · rintro ⟨s, sub | rfl, names⟩
      exacts [.inl ⟨s, sub, names⟩, .inr names]

theorem sourceAfterFlagWord?_isSome_iff {ws : List (List Char)} :
    (lastOf sourceAfterFlagWord? ws).isSome ↔
      ∃ source, [flag, source].Sublist ws ∧ NamesSource source := by
  induction ws with
  | nil => simp [lastOf]
  | cons w ws ih =>
    have here : (sourceAfterFlagWord? (w :: ws)).isSome ↔
        flag = w ∧ ∃ source, [source].Sublist ws ∧ NamesSource source := by
      rw [sourceAfterFlagWord?, ← lastSource_isSome_iff, @eq_comm _ flag]
      by_cases e : w = flag <;> simp [e]
    simp only [lastOf, Option.isSome_or, Bool.or_eq_true, ih, here, List.cons_sublist_cons']
    constructor
    · rintro (⟨s, sub, names⟩ | ⟨rfl, s, sub, names⟩)
      exacts [⟨s, .inl sub, names⟩, ⟨s, .inr ⟨rfl, sub⟩, names⟩]
    · rintro ⟨s, sub | ⟨rfl, sub⟩, names⟩
      exacts [.inl ⟨s, sub, names⟩, .inr ⟨rfl, s, sub, names⟩]

/-- The last source file after a flag is the last of all. -/
theorem lastSource_of_flag {ws : List (List Char)} {source : List Char}
    (h : lastOf sourceAfterFlagWord? ws = some source) : lastOf sourceOf? ws = some source := by
  induction ws with
  | nil => simp [lastOf] at h
  | cons w ws ih =>
    suffices lastOf sourceOf? ws = some source by rw [lastOf, this, Option.some_or]
    rcases Option.or_eq_some_iff.1 h with later | ⟨-, here⟩
    · exact ih later
    · exact (Option.ite_none_right_eq_some.1 here).2

theorem ofWords?_isSome_iff {ws : List (List Char)} :
    (ofWords? compilers ws).isSome ↔ ∃ compiler source,
      [compiler, flag, source].Sublist ws ∧ NamesCompiler compilers compiler ∧ NamesSource source := by
  induction ws with
  | nil => simp [ofWords?]
  | cons w ws ih =>
    have here : ((nameIn? compilers w).bind fun compiler =>
        (lastOf sourceAfterFlagWord? ws).map fun source =>
          (⟨compiler, ⟨String.ofList source⟩⟩ : Invocation)).isSome ↔
        NamesCompiler compilers w ∧ ∃ source, [flag, source].Sublist ws ∧ NamesSource source := by
      rw [← nameIn?_isSome_iff, ← sourceAfterFlagWord?_isSome_iff]
      cases nameIn? compilers w <;> simp
    simp only [ofWords?, Option.isSome_or, Bool.or_eq_true, ih, here, List.cons_sublist_cons' (b := w)]
    constructor
    · rintro (⟨known, s, sub, names⟩ | ⟨c, s, sub, known, names⟩)
      exacts [⟨w, s, .inr ⟨rfl, sub⟩, known, names⟩, ⟨c, s, .inl sub, known, names⟩]
    · rintro ⟨c, s, sub | ⟨rfl, sub⟩, known, names⟩
      exacts [.inr ⟨c, s, sub, known, names⟩, .inl ⟨known, s, sub, names⟩]

theorem recorded_of_ofWords? {ws : List (List Char)} {i : Invocation}
    (h : ofWords? compilers ws = some i) : Recorded compilers ws i := by
  induction ws with
  | nil => simp [ofWords?] at h
  | cons w ws ih =>
    rw [ofWords?] at h
    cases named : nameIn? compilers w with
    | none =>
      rw [named, Option.bind_none, Option.none_or] at h
      obtain ⟨⟨front, word, back, rfl, first, known⟩, front', word', back', e, source⟩ := ih h
      refine ⟨⟨w :: front, word, back, rfl, fun v hv names => ?_, known⟩,
        w :: front', word', back', by rw [e, List.cons_append], source⟩
      rcases List.mem_cons.1 hv with rfl | hv
      · simpa [named] using nameIn?_isSome_iff.2 names
      · exact first v hv names
    | some compiler =>
      rw [named, Option.bind_some] at h
      cases found : lastOf sourceAfterFlagWord? ws with
      | none =>
        -- no flag comes after this compiler, so that none comes after a later one
        rw [found, Option.map_none, Option.none_or] at h
        obtain ⟨c, s, sub, -, names⟩ := ofWords?_isSome_iff.1 (Option.isSome_of_eq_some h)
        have := sourceAfterFlagWord?_isSome_iff.2 ⟨s, (List.sublist_cons_self _ _).trans sub, names⟩
        simp [found] at this
      | some source =>
        rw [found, Option.map_some, Option.some_or, Option.some.injEq] at h
        obtain ⟨known, ends, longest⟩ := nameIn?_eq_some named
        obtain ⟨front, word, back, rfl, names, last, rfl⟩ :=
          exists_of_lastSource (lastSource_of_flag found)
        subst h
        exact ⟨⟨[], w, _, rfl, by simp, known, ends, longest⟩,
          w :: front, word, back, rfl, names, last, String.toList_ofList⟩

theorem ofWords?_congr {others : List String} (h : ∀ name, name ∈ others ↔ name ∈ compilers)
    (ws : List (List Char)) : ofWords? others ws = ofWords? compilers ws := by
  induction ws with
  | nil => rfl
  | cons w ws ih => simp only [ofWords?, nameIn?, h, ih]

/-- A line records a compilation exactly if a compiler, the flag and a source file are among its words
in this order; which one, the first compiler and the last source file tell; and how the names of
compilers are listed does not matter. -/
theorem parse?_grammar (known : compilers ≠ []) (names : AreWords compilers) {line : String}
    (single : '\n' ∉ line.toList) :
    ((Invocation.parse? compilers line).isSome ↔ ∃ compiler source,
      [compiler, flag, source].Sublist (words line.toList) ∧
        NamesCompiler compilers compiler ∧ NamesSource source) ∧
    (∀ i, Invocation.parse? compilers line = some i → Recorded compilers (words line.toList) i) ∧
    ∀ others, (∀ name, name ∈ others ↔ name ∈ compilers) →
      Invocation.parse? others line = Invocation.parse? compilers line := by
  have plain := parse?_eq_ofWords known names single
  refine ⟨plain ▸ ofWords?_isSome_iff, fun i h => recorded_of_ofWords? (plain ▸ h), fun others h => ?_⟩
  have known' : others ≠ [] := by
    obtain ⟨name, mem⟩ := List.exists_mem_of_ne_nil _ known
    exact List.ne_nil_of_mem ((h name).2 mem)
  rw [parse?_eq_ofWords known' (fun name mem => names name ((h name).1 mem)) single, plain,
    ofWords?_congr h]

/-- A line with two compilers, two flags and two source files. -/
theorem parse?_grammar_twoSources :
    ["opt", "bin/opt"] ≠ [] ∧ AreWords ["opt", "bin/opt"] ∧
    '\n' ∉ "time /bin/opt -c a.ml opt -c 'b' c.ml\"".toList ∧
    Recorded ["opt", "bin/opt"] (words "time /bin/opt -c a.ml opt -c 'b' c.ml\"".toList)
      ⟨"bin/opt", ⟨"c.ml"⟩⟩ ∧
    Invocation.parse? ["bin/opt", "opt", "bin/opt"] "time /bin/opt -c a.ml opt -c 'b' c.ml\"" =
      some ⟨"bin/opt", ⟨"c.ml"⟩⟩ := by
  have known : ["opt", "bin/opt"] ≠ [] := by decide
  have names : AreWords ["opt", "bin/opt"] := by decide
  have single : '\n' ∉ "time /bin/opt -c a.ml opt -c 'b' c.ml\"".toList := by decide
  obtain ⟨-, recorded, alike⟩ := parse?_grammar known names single
  have found : Invocation.parse? ["opt", "bin/opt"] "time /bin/opt -c a.ml opt -c 'b' c.ml\"" =
      some ⟨"bin/opt", ⟨"c.ml"⟩⟩ := by decide +kernel
  exact ⟨known, names, single, recorded _ found, (alike _ (by simp)).trans found⟩

/-- Without names of compilers, a line records a compilation that has no compiler among its words. -/
theorem recorded_without_compilers :
    ¬ ∀ (compilers : List String) (line : String), AreWords compilers → '\n' ∉ line.toList →
      ((Invocation.parse? compilers line).isSome ↔ ∃ compiler source,
        [compiler, flag, source].Sublist (words line.toList) ∧
          NamesCompiler compilers compiler ∧ NamesSource source) := by
  intro claim
  have found : (Invocation.parse? [] " -c a.ml").isSome := by decide +kernel
  obtain ⟨compiler, source, -, ⟨name, mem, -⟩, -⟩ :=
    (claim [] " -c a.ml" (by simp [AreWords]) (by decide)).1 found
  simp at mem

end BuildLog
end FlatModules
