import Mathlib
import FlatModules.Proofs.BuildLog.Positions
import FlatModules.Proofs.Path.Parts

/-!
# Build log — growing logs

What is written after whole lines of a log adds lines (`Text.lines_append`), so that the order of
modules only grows at its end (`scan_append_prefix`).  The members of a library that were known stay
as they were, in front of all others (`scan_of_growing`).
-/

namespace FlatModules

/-! ### Lines -/

namespace Text

theorem lines_go_append (pieces : List (List Char)) {rest : List (List Char)} (h : rest ≠ []) :
    lines.go (pieces ++ rest) = pieces.map dropReturn ++ lines.go rest := by
  induction pieces with
  | nil => rfl
  | cons piece pieces ih =>
    have more : pieces ++ rest ≠ [] := by simp [h]
    obtain ⟨next, others, e⟩ := List.exists_cons_of_ne_nil more
    rw [List.cons_append, List.map_cons, List.cons_append, ← ih, e]
    rfl

/-- What comes after a line feed adds lines. -/
theorem lines_append {log : List Char} (ended : log = [] ∨ log.getLast? = some '\n')
    (text : List Char) : lines (log ++ text) = lines log ++ lines text := by
  rcases ended with rfl | ended
  · rfl
  · obtain ⟨front, rfl⟩ := List.getLast?_eq_some_iff.1 ended
    have cut (more : List Char) : lines (front ++ '\n' :: more) =
        (cutAt (· == '\n') front).map dropReturn ++ lines more := by
      rw [lines, cutAt_append_cons (by rfl), lines_go_append _ (cutAt_ne_nil _ _)]
      rfl
    rw [List.append_assoc, List.singleton_append, cut text, cut []]
    simp [lines, lines.go, cutAt]

end Text

namespace BuildLog

open Naming

variable {compilers : List String} {log text : String}

/-! ### The order of modules -/

/-- The modules of a log in the order of the first lines that record compilations of them. -/
structure InOrderOfLines (compilers : List String) (log : String) (modules : List String) : Prop where
  nodup : modules.Nodup
  mem_iff : ∀ name, name ∈ modules ↔
    ∃ line ∈ Text.lines log.toList, moduleIn? compilers line = some name
  order : modules.Pairwise fun a b =>
    ∃ i ∈ firstLine? compilers log a, ∃ j ∈ firstLine? compilers log b, i < j

theorem inOrderOfLines_scan (compilers : List String) (log : String) :
    InOrderOfLines compilers log (scan compilers log) where
  nodup := (pairwise_scan compilers log).imp fun {a b} ⟨i, hi, j, hj, less⟩ same => by
    subst same
    exact less.ne (Option.some.inj (hi.symm.trans hj))
  mem_iff name := by
    rw [mem_scan_iff, firstLine?, List.findIdx?_isSome, List.any_eq_true]
    simp
  order := pairwise_scan compilers log

/-- What is read later adds to what was seen. -/
theorem firstSeen_append (seen names more : List String) :
    ∃ seen', firstSeen seen (names ++ more) = firstSeen seen names ++ firstSeen seen' more := by
  induction names generalizing seen with
  | nil => exact ⟨seen, rfl⟩
  | cons name names ih =>
    by_cases old : name ∈ seen
    · simpa only [List.cons_append, firstSeen, if_pos old] using ih seen
    · obtain ⟨seen', e⟩ := ih (name :: seen)
      exact ⟨seen', by simp only [List.cons_append, firstSeen, if_neg old, e]⟩

theorem scan_append_prefix (compilers : List String)
    (ended : log = "" ∨ log.toList.getLast? = some '\n') (text : String) :
    scan compilers log <+: scan compilers (log ++ text) := by
  have ended : log.toList = [] ∨ log.toList.getLast? = some '\n' := ended.imp_left (by simp [·])
  rw [scan_eq, scan_eq, String.toList_append, Text.lines_append ended, List.filterMap_append]
  obtain ⟨seen, e⟩ := firstSeen_append [] ((Text.lines log.toList).filterMap (moduleIn? compilers))
    ((Text.lines text.toList).filterMap (moduleIn? compilers))
  exact ⟨_, e.symm⟩

/-! ### The order of members -/

/-- Lists in the order of a key that have the same members of each key, in one order, are one. -/
theorem eq_of_pairwise_key {α : Type} {key : α → Nat} {xs ys : List α}
    (hx : xs.Pairwise fun a b => key a ≤ key b) (hy : ys.Pairwise fun a b => key a ≤ key b)
    (levels : ∀ k, xs.filter (key · = k) = ys.filter (key · = k)) : xs = ys := by
  have mem {a : α} : a ∈ xs ↔ a ∈ ys := by
    have := congrArg (a ∈ ·) (levels (key a))
    simpa using this
  induction xs generalizing ys with
  | nil =>
    refine (List.eq_nil_iff_forall_not_mem.2 fun a ha => ?_).symm
    simpa using mem.2 ha
  | cons x xs ih =>
    obtain ⟨y, ys, rfl⟩ := List.exists_cons_of_ne_nil (List.ne_nil_of_mem (mem.1 List.mem_cons_self))
    obtain ⟨firstX, restX⟩ := List.pairwise_cons.1 hx
    obtain ⟨firstY, restY⟩ := List.pairwise_cons.1 hy
    have same : key x = key y := by
      refine le_antisymm ?_ ?_
      · rcases List.mem_cons.1 (mem.2 List.mem_cons_self) with e | later
        exacts [(congrArg key e).ge, firstX y later]
      · rcases List.mem_cons.1 (mem.1 List.mem_cons_self) with e | later
        exacts [(congrArg key e).ge, firstY x later]
    have heads := levels (key x)
    rw [List.filter_cons_of_pos (by simp), List.filter_cons_of_pos (by simp [same])] at heads
    obtain ⟨rfl, -⟩ := List.cons.inj heads
    have rest (k : Nat) : xs.filter (key · = k) = ys.filter (key · = k) := by
      have := levels k
      by_cases own : key x = k
      · rw [List.filter_cons_of_pos (by simp [own]), List.filter_cons_of_pos (by simp [own])] at this
        exact (List.cons.inj this).2
      · rwa [List.filter_cons_of_neg (by simp [own]), List.filter_cons_of_neg (by simp [own])] at this
    rw [ih restX restY rest fun {a} => by simpa using congrArg (a ∈ ·) (rest (key a))]

/-- Known members keep their places when an order grows. -/
theorem position_append {order more : List String} (once : (order ++ more).Nodup) {member : String}
    (known : moduleOfPath ⟨member⟩ ∈ order) :
    position (order ++ more) member = position order member := by
  rw [position_eq, position_eq, lastPlace?_eq_firstPlace? once,
    lastPlace?_eq_firstPlace? (List.nodup_append.1 once).1]
  have found : (firstPlace? order member).isSome := by
    rw [firstPlace?, List.findIdx?_isSome, List.any_eq_true]
    exact ⟨_, known, by simp⟩
  obtain ⟨i, hi⟩ := Option.isSome_iff_exists.1 found
  have : firstPlace? (order ++ more) member = some i := by
    rw [firstPlace?, List.findIdx?_append, ← firstPlace?, hi]
    rfl
  rw [this, hi, Option.getD_some, Option.getD_some]

/-- A member is put among those known at first only if it is one of them. -/
theorem position_append_lt_iff {order more : List String} (once : (order ++ more).Nodup)
    {member : String} :
    position (order ++ more) member < order.length ↔ moduleOfPath ⟨member⟩ ∈ order := by
  constructor
  · intro less
    by_cases known : moduleOfPath ⟨member⟩ ∈ order ++ more
    · have there := getElem?_position known
      rw [List.getElem?_append_left less] at there
      exact List.mem_of_getElem? there
    · rw [position_eq_length known, List.length_append] at less
      omega
  · intro known
    rw [position_append once known]
    exact (List.getElem?_eq_some_iff.1 (getElem?_position known)).1

/-- When an order grows, the members that were known stay as they were, in front of all others. -/
theorem orderMembers_append {order more : List String} (once : (order ++ more).Nodup)
    (members : List String) :
    ∃ compiled others others',
      orderMembers members order = compiled ++ others ∧
      orderMembers members (order ++ more) = compiled ++ others' ∧
      (∀ m ∈ compiled, moduleOfPath ⟨m⟩ ∈ order) ∧
      ∀ m ∈ others ++ others', moduleOfPath ⟨m⟩ ∉ order := by
  let known (m : String) : Bool := moduleOfPath ⟨m⟩ ∈ order
  have once' : (order ++ []).Nodup := by simpa using (List.nodup_append.1 once).1
  -- whatever the order grows to, the known members come first
  have cut {more : List String} (once : (order ++ more).Nodup) :
      orderMembers members (order ++ more) =
        (orderMembers members (order ++ more)).filter known ++
          (orderMembers members (order ++ more)).filter (!known ·) := by
    refine (filter_append_filter_of_pairwise ?_).symm
    refine (mergeSort_by_key (position (order ++ more)) members).1.imp fun {a b} le hb => ?_
    have hb := (position_append_lt_iff once).2 (of_decide_eq_true hb)
    exact decide_eq_true ((position_append_lt_iff once).1 (le.trans_lt hb))
  -- and they are in the order of their places in the old order
  have ordered {more : List String} (once : (order ++ more).Nodup) :
      ((orderMembers members (order ++ more)).filter known).Pairwise fun a b =>
        position order a ≤ position order b := by
    refine ((mergeSort_by_key (position (order ++ more)) members).1.filter known).imp_of_mem
      fun {a b} ha hb le => ?_
    have ha := of_decide_eq_true (List.mem_filter.1 ha).2
    have hb := of_decide_eq_true (List.mem_filter.1 hb).2
    rwa [position_append once ha, position_append once hb] at le
  have level {more : List String} (once : (order ++ more).Nodup) (k : Nat) :
      ((orderMembers members (order ++ more)).filter known).filter (position order · = k) =
        members.filter fun m => decide (position order m = k) && known m := by
    rw [List.filter_filter]
    refine (mergeSort_by_key (position (order ++ more)) members).2 _ fun a _ b _ ha hb => ?_
    simp only [Bool.and_eq_true, decide_eq_true_eq, known] at ha hb
    rw [position_append once ha.2, position_append once hb.2, ha.1, hb.1]
  have same := eq_of_pairwise_key (ordered once') (ordered once) fun k =>
    (level once' k).trans (level once k).symm
  have old := cut once'
  rw [same, List.append_nil] at old
  refine ⟨_, _, _, old, cut once, fun m hm => ?_, fun m hm => ?_⟩
  · exact of_decide_eq_true (List.mem_filter.1 hm).2
  · rcases List.mem_append.1 hm with hm | hm
    all_goals simpa [known] using (List.mem_filter.1 hm).2

/-- A log that grows by whole lines adds to the order of its modules, at the end; and the members of a
library that were compiled before stay as they were, in front of all others. -/
theorem scan_of_growing (compilers : List String)
    (ended : log = "" ∨ log.toList.getLast? = some '\n') (text : String) :
    scan compilers log <+: scan compilers (log ++ text) ∧
    (∀ log, InOrderOfLines compilers log (scan compilers log)) ∧
    ∀ members, ∃ compiled others others',
      orderMembers members (scan compilers log) = compiled ++ others ∧
      orderMembers members (scan compilers (log ++ text)) = compiled ++ others' ∧
      (∀ m ∈ compiled, moduleOfPath ⟨m⟩ ∈ scan compilers log) ∧
      ∀ m ∈ others ++ others', moduleOfPath ⟨m⟩ ∉ scan compilers log := by
  have grown := scan_append_prefix compilers ended text
  refine ⟨grown, inOrderOfLines_scan compilers, fun members => ?_⟩
  obtain ⟨more, whole⟩ := grown
  have once := whole ▸ (inOrderOfLines_scan compilers (log ++ text)).nodup
  simpa only [whole] using orderMembers_append once members

/-- A log in which `b` is compiled, to which a compilation of `a` is added. -/
theorem scan_of_growing_twoLines :
    ("ocamlc -c b.ml\n" = "" ∨ "ocamlc -c b.ml\n".toList.getLast? = some '\n') ∧
    scan defaultCompilers "ocamlc -c b.ml\n" = ["B"] ∧
    scan defaultCompilers ("ocamlc -c b.ml\n" ++ "ocamlc -c a.ml\nocamlc -c b.ml\n") = ["B", "A"] ∧
    ∃ compiled others others',
      orderMembers ["c", "a", "b"] (scan defaultCompilers "ocamlc -c b.ml\n") = compiled ++ others ∧
      orderMembers ["c", "a", "b"] (scan defaultCompilers
        ("ocamlc -c b.ml\n" ++ "ocamlc -c a.ml\nocamlc -c b.ml\n")) = compiled ++ others' ∧
      (∀ m ∈ compiled, moduleOfPath ⟨m⟩ ∈ scan defaultCompilers "ocamlc -c b.ml\n") ∧
      ∀ m ∈ others ++ others', moduleOfPath ⟨m⟩ ∉ scan defaultCompilers "ocamlc -c b.ml\n" := by
  have ended : "ocamlc -c b.ml\n" = "" ∨ "ocamlc -c b.ml\n".toList.getLast? = some '\n' := by decide
  refine ⟨ended, by decide +kernel, by decide +kernel, ?_⟩
  exact (scan_of_growing defaultCompilers ended "ocamlc -c a.ml\nocamlc -c b.ml\n").2.2 _

end BuildLog
end FlatModules
