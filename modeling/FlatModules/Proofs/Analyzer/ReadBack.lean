import FlatModules.Proofs.BuildLog.Words
import FlatModules.Proofs.BuildLog.Growing
import FlatModules.Proofs.Tree.Scoping

/-!
# Analyzer — reading a record of dependencies back

A record is one line, which the reader of an analyzer's output reads like any other.  It finds the
target up to the first colon and the dependencies after it, if the target holds no colon and the
dependencies are words (`RawLine.parse?_printLine`).  What an analyzer reports are words, and so is
what a tree makes of them (`Tree.isWord_of_resolve?`).
-/

namespace FlatModules

open Text

/-- A text that is read as one word. -/
def IsWord (name : String) : Prop :=
  name ≠ "" ∧ ∀ c ∈ name.toList, isBlank c = false

/-! ### Lines and words of what is printed -/

namespace Text

theorem dropReturn_eq_self {line : List Char} (h : line.getLast? ≠ some '\r') :
    dropReturn line = line := by
  unfold dropReturn
  cases found : dropTail? ['\r'] line with
  | none => rfl
  | some front =>
    obtain rfl := dropTail?_eq_some_iff.1 found
    simp at h

/-- A text without line feeds is one line, once there is a line feed after it. -/
theorem lines_line_feed {line : List Char} (single : '\n' ∉ line) (kept : line.getLast? ≠ some '\r') :
    lines (line ++ ['\n']) = [line] := by
  have whole : cutAt (· == '\n') line = [line] :=
    cutAt_of_notMem fun c hc => beq_false_of_ne fun e => single (e ▸ hc)
  rw [lines, cutAt_append_cons (by rfl), whole]
  simp [lines.go, cutAt, dropReturn_eq_self kept]

theorem trim_ne_nil {cs : List Char} {c : Char} (hc : c ∈ cs) (dark : isBlank c = false) :
    trim cs ≠ [] := by
  simp only [trim, ne_eq, List.reverse_eq_nil_iff, List.dropWhile_eq_nil_iff, List.mem_reverse]
  -- what is dropped in front is white space, so that `c` stays
  have split := List.takeWhile_append_dropWhile (p := isBlank) (l := cs)
  rw [← split, List.mem_append] at hc
  rcases hc with front | rest
  · exact absurd (List.mem_takeWhile_imp front) (by simp [dark])
  · exact fun all => by simpa [dark] using all c rest

/-- What follows a colon in a record: each word with a space before it. -/
theorem spaced_intercalate {w : List Char} {ws : List (List Char)}
    (h : ∀ v ∈ w :: ws, v ≠ [] ∧ ∀ c ∈ v, isBlank c = false) :
    Spaced (' ' :: [' '].intercalate (w :: ws)) (w :: ws) := by
  induction ws generalizing w with
  | nil =>
    obtain ⟨ne, dark⟩ := h w List.mem_cons_self
    simpa using Spaced.word (by decide) ne dark .nil
  | cons v ws ih =>
    obtain ⟨ne, dark⟩ := h w List.mem_cons_self
    rw [List.intercalate_cons_cons, List.append_assoc]
    exact .word (by decide) ne dark (ih fun u hu => h u (List.mem_cons_of_mem _ hu))

theorem words_intercalate {ws : List (List Char)}
    (h : ∀ v ∈ ws, v ≠ [] ∧ ∀ c ∈ v, isBlank c = false) :
    words (' ' :: [' '].intercalate ws) = ws := by
  cases ws with
  | nil => rfl
  | cons w ws => exact (spaced_intercalate h).words_eq

/-- Words and the spaces between them hold no other white space. -/
theorem notMem_intercalate {b : Char} (blank : isBlank b = true) (space : b ≠ ' ')
    {ws : List (List Char)} (h : ∀ v ∈ ws, v ≠ [] ∧ ∀ c ∈ v, isBlank c = false) :
    b ∉ [' '].intercalate ws := by
  have outside {v : List Char} (hv : v ∈ ws) : b ∉ v := fun hb => by
    simpa [blank] using (h v hv).2 b hb
  induction ws with
  | nil => simp
  | cons w ws ih =>
    cases ws with
    | nil => simpa using outside List.mem_cons_self
    | cons v ws =>
      have rest := ih (fun u hu => h u (List.mem_cons_of_mem _ hu)) fun hu =>
        outside (List.mem_cons_of_mem _ hu)
      rw [List.intercalate_cons_cons]
      simp [outside List.mem_cons_self, space, rest]

end Text

/-! ### What a tree resolves names to -/

namespace Naming

theorem isBlank_of_isComponentChar {c : Char} (h : isComponentChar c = true) :
    isBlank c = false := by
  simp only [isComponentChar, Char.isAlphanum, Char.isAlpha, Char.isUpper, Char.isLower,
    Char.isDigit, Bool.or_eq_true, Bool.and_eq_true, decide_eq_true_eq, beq_iff_eq, ge_iff_le,
    UInt32.le_iff_toNat_le] at h
  change ((((65 ≤ c.toNat ∧ c.toNat ≤ 90) ∨ 97 ≤ c.toNat ∧ c.toNat ≤ 122) ∨
    48 ≤ c.toNat ∧ c.toNat ≤ 57) ∨ c = '_') ∨ c = '\'' at h
  rcases h with (letter_or_digit | rfl) | rfl
  · simp only [isBlank, Bool.or_eq_false_iff, Bool.and_eq_false_iff, decide_eq_false_iff_not,
      beq_eq_false_iff_ne]
    omega
  · decide
  · decide

theorem isWord_moduleName {cs : List String} (ne : cs ≠ [])
    (valid : ∀ c ∈ cs, isComponent c = true) :
    IsWord (moduleName (flatName cs)) := by
  obtain ⟨c, rest, rfl⟩ := List.exists_cons_of_ne_nil ne
  have first := valid c List.mem_cons_self
  have valid' : ∀ x ∈ moduleName c :: rest, isComponent x = true :=
    List.forall_mem_cons.2 ⟨isComponent_moduleName first, (List.forall_mem_cons.1 valid).2⟩
  rw [moduleName_flatName first]
  exact ⟨flatName_ne_empty (by simp) valid', fun x hx =>
    isBlank_of_isComponentChar (isComponentChar_of_mem_flatName valid' hx)⟩

end Naming

namespace Tree

variable {d : Disk} {root : Path} {config : Config} {t : Tree}

/-- The trees of projects resolve names to words. -/
theorem isWord_of_resolve? (sound : d.Sound) (ok : scan d root config = .ok t) {file : NamespacedFile}
    {name target : String} (found : t.resolve? file name = some target) : IsWord target := by
  have long {x : String} (h : Long x) : IsWord x := by
    obtain ⟨cs, many, valid, rfl⟩ := h
    exact Naming.isWord_moduleName (List.ne_nil_of_length_pos (Nat.zero_lt_of_lt many)) valid
  obtain ⟨⟨c, valid, named⟩, rfl | h⟩ := resolveFrom?_cases (After.scan sound ok)
    (fun _ => short_of_mem_topLevel sound ok) found
  · rw [named, ← Naming.flatName_singleton c]
    exact Naming.isWord_moduleName (by simp) (by simpa using valid)
  · exact long h

end Tree

/-! ### The reader of an output -/

namespace RawLine

variable {output : String} {raw : RawLine} {metadata : Metadata} {file : NamespacedFile}

/-- What an analyzer reports are words. -/
theorem isWord_of_parse? (accepted : parse? output = some raw) {name : String}
    (mem : name ∈ raw.dependencies) : IsWord name := by
  obtain ⟨⟨target, rest⟩, -, rfl⟩ := Option.map_eq_some_iff.1 accepted
  obtain ⟨word, hw, rfl⟩ := List.mem_map.1 mem
  refine ⟨fun empty => words_ne_nil hw (by simpa using congrArg String.toList empty), fun c hc => ?_⟩
  rw [String.toList_ofList] at hc
  exact mark_eq_false_of_mem_cutAt (List.mem_filter.1 hw).1 c hc

/-- The line of a text without line feeds that is followed by one is the text. -/
theorem lineOf_line_feed {text : String} (single : '\n' ∉ text.toList)
    (kept : text.toList.getLast? ≠ some '\r') {c : Char} (hc : c ∈ text.toList)
    (dark : isBlank c = false) : lineOf (text ++ "\n") = text.toList := by
  rw [lineOf, String.toList_append, show "\n".toList = ['\n'] from rfl, lines_line_feed single kept]
  simp [trim_ne_nil hc dark]

/-- A record of dependencies is read as it was written: up to white space around the target, and
with the same words in the same order. -/
theorem parse?_printLine {target : Path} {names : List String} (colon : ':' ∉ target.text.toList)
    (feed : '\n' ∉ target.text.toList) (all : ∀ name ∈ names, IsWord name) :
    parse? (printLine target names ++ "\n") =
      some ⟨String.ofList (trim target.text.toList), names⟩ := by
  have texts : ∀ v ∈ names.map String.toList, v ≠ [] ∧ ∀ c ∈ v, isBlank c = false := by
    intro v hv
    obtain ⟨name, mem, rfl⟩ := List.mem_map.1 hv
    exact ⟨by simpa using (all name mem).1, (all name mem).2⟩
  have printed : (printLine target names).toList =
      target.text.toList ++ ':' :: ' ' :: [' '].intercalate (names.map String.toList) := by
    simp [printLine]
  have line : lineOf (printLine target names ++ "\n") = (printLine target names).toList := by
    have absent {b : Char} (blank : isBlank b = true) (space : b ≠ ' ') :
        b ∉ ' ' :: [' '].intercalate (names.map String.toList) := by
      simpa [space] using notMem_intercalate blank space texts
    refine lineOf_line_feed (c := ':') ?_ ?_ (by simp [printed]) (by decide)
    · rw [printed, List.mem_append, List.mem_cons, not_or, not_or]
      exact ⟨feed, by decide, absent (by decide) (by decide)⟩
    · -- after the colon there is a space at least, so that the line does not end in the target
      rw [printed, List.append_cons, List.getLast?_append_of_ne_nil _ (by simp)]
      exact fun ends => absent (b := '\r') (by decide) (by decide) (List.mem_of_getLast? ends)
  rw [parse?, line, printed, cutOnce_append colon]
  simp [words_intercalate texts]

/-- A resolved line is read back from its record, whatever the analyzer printed, if names are
resolved to words. -/
theorem parse?_print_resolve (accepted : parse? output = some raw)
    (resolved : ∀ name target, metadata.resolve? file name = some target → IsWord target)
    (colon : ':' ∉ file.virtualPath.text.toList) (feed : '\n' ∉ file.virtualPath.text.toList) :
    parse? ((raw.resolve metadata file).print ++ "\n") =
      some ⟨String.ofList (trim file.virtualPath.text.toList),
        (raw.resolve metadata file).dependencies⟩ := by
  refine parse?_printLine colon feed fun name mem => ?_
  obtain ⟨reported, hr, rfl⟩ := List.mem_map.1 mem
  cases found : metadata.resolve? file reported with
  | none => exact isWord_of_parse? accepted hr
  | some target => exact resolved reported target found

set_option maxRecDepth 100000 in
/-- The dependencies of a file in a sub-namespace, from an output with a blank line, a tab and a name
with a colon. -/
theorem parse?_print_resolve_roomDisk :
    let t := sampleTree Tree.roomDisk Tree.roomConfig
    ∃ f ∈ t.files, ∃ raw, parse? " \r\n c : Bar  C\tList x:y\r\n" = some raw ∧
      (∀ name target, t.metadata.resolve? f name = some target → IsWord target) ∧
      ':' ∉ f.virtualPath.text.toList ∧ '\n' ∉ f.virtualPath.text.toList ∧
      (raw.resolve t.metadata f).print = "lib/foo/bar/foo__bar__c.ml: Foo__bar Foo__bar__c List x:y" ∧
      parse? ((raw.resolve t.metadata f).print ++ "\n") =
        some ⟨"lib/foo/bar/foo__bar__c.ml", ["Foo__bar", "Foo__bar__c", "List", "x:y"]⟩ := by
  intro t
  obtain ⟨sound, -, accepted⟩ := Tree.accepted_roomDisk
  change Tree.scan Tree.roomDisk ⟨"/p"⟩ Tree.roomConfig = .ok t at accepted
  obtain ⟨f, hf, path, bar, c, list, odd⟩ :
      ∃ f ∈ t.files, f.virtualPath = ⟨"lib/foo/bar/foo__bar__c.ml"⟩ ∧
        t.resolve? f "Bar" = some "Foo__bar" ∧ t.resolve? f "C" = some "Foo__bar__c" ∧
        t.resolve? f "List" = none ∧ t.resolve? f "x:y" = none := by
    decide +kernel
  clear_value t
  have read : parse? " \r\n c : Bar  C\tList x:y\r\n" = some ⟨"c", ["Bar", "C", "List", "x:y"]⟩ := by
    decide +kernel
  have resolved : ∀ name target, t.metadata.resolve? f name = some target → IsWord target :=
    fun _ _ => Tree.isWord_of_resolve? sound accepted
  have colon : ':' ∉ f.virtualPath.text.toList := by rw [path]; decide
  have feed : '\n' ∉ f.virtualPath.text.toList := by rw [path]; decide
  have names : (resolve ⟨"c", ["Bar", "C", "List", "x:y"]⟩ t.metadata f).dependencies =
      ["Foo__bar", "Foo__bar__c", "List", "x:y"] := by
    simp [resolve, Tree.metadata, bar, c, list, odd]
  have printed : (resolve ⟨"c", ["Bar", "C", "List", "x:y"]⟩ t.metadata f).print =
      "lib/foo/bar/foo__bar__c.ml: Foo__bar Foo__bar__c List x:y" := by
    have same : (resolve ⟨"c", ["Bar", "C", "List", "x:y"]⟩ t.metadata f).target = f.virtualPath := rfl
    rw [ResolvedLine.print, names, same, path]
    decide
  have back := parse?_print_resolve read resolved colon feed
  have target : String.ofList (trim f.virtualPath.text.toList) = "lib/foo/bar/foo__bar__c.ml" := by
    rw [path]
    decide
  rw [names, target] at back
  exact ⟨f, hf, _, read, resolved, colon, feed, printed, back⟩

end RawLine

end FlatModules
