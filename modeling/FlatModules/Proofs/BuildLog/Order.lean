import Mathlib
import FlatModules.BuildLog.Order

/-!
# Build log — the order of a library's members

The first line that records a compilation of a module (`firstLine?`) is what the order of modules
goes by (`pairwise_scan`), and with it that of the members of a library: those with such a line come
first and in the order of these lines, all others come after them as they were given
(`arranged_orderMembers`).
-/

namespace FlatModules.BuildLog

open Naming

/-- The module that a line records a compilation of. -/
def moduleIn? (compilers : List String) (line : List Char) : Option String :=
  (Invocation.parse? compilers (String.ofList line)).map Invocation.moduleName

/-- The number of the first line that records a compilation of a module. -/
def firstLine? (compilers : List String) (log module : String) : Option Nat :=
  (Text.lines log.toList).findIdx? (moduleIn? compilers · = some module)

/-- How the members of a library are ordered by a log. -/
structure Arranged (compilers : List String) (log : String) (members order : List String) : Prop where
  /-- Each member is there as often as among the members. -/
  perm : order.Perm members
  /-- Those whose modules are compiled come in the order of the first lines that say so, before the
  others, which keep their order. -/
  split : ∃ compiled,
    order = compiled ++
      members.filter (fun m => (firstLine? compilers log (moduleOfPath ⟨m⟩)).isNone) ∧
    (∀ m ∈ compiled, (firstLine? compilers log (moduleOfPath ⟨m⟩)).isSome) ∧
    compiled.Pairwise fun a b =>
      ∃ i ∈ firstLine? compilers log (moduleOfPath ⟨a⟩),
        ∃ j ∈ firstLine? compilers log (moduleOfPath ⟨b⟩), i < j

/-! ### The modules of a log -/

theorem mem_firstSeen {seen names : List String} {name : String} :
    name ∈ firstSeen seen names ↔ name ∈ names ∧ name ∉ seen := by
  induction names generalizing seen with
  | nil => simp [firstSeen]
  | cons n names ih =>
    unfold firstSeen
    split
    case isTrue old =>
      rw [ih, List.mem_cons]
      constructor
      · exact fun ⟨mem, new⟩ => ⟨.inr mem, new⟩
      · rintro ⟨rfl | mem, new⟩
        exacts [absurd old new, ⟨mem, new⟩]
    case isFalse new =>
      simp only [List.mem_cons, ih, not_or]
      by_cases same : name = n
      · simp [same, new]
      · simp [same]

/-- What is first seen comes in the order of where it is first. -/
theorem pairwise_firstSeen {α : Type} (f : α → Option String) (xs : List α) (seen : List String) :
    (firstSeen seen (xs.filterMap f)).Pairwise fun a b =>
      ∃ i ∈ xs.findIdx? (f · = some a), ∃ j ∈ xs.findIdx? (f · = some b), i < j := by
  induction xs generalizing seen with
  | nil => simp [firstSeen]
  | cons x xs ih =>
    -- what does not come first is found one further on
    have later {seen : List String} (other : ∀ a ∈ firstSeen seen (xs.filterMap f), f x ≠ some a) :
        (firstSeen seen (xs.filterMap f)).Pairwise fun a b =>
          ∃ i ∈ (x :: xs).findIdx? (f · = some a), ∃ j ∈ (x :: xs).findIdx? (f · = some b), i < j := by
      refine (ih seen).imp_of_mem fun {a b} ha hb ⟨i, hi, j, hj, less⟩ => ?_
      rw [Option.mem_def] at hi hj
      refine ⟨i + 1, ?_, j + 1, ?_, Nat.succ_lt_succ less⟩
      · simp [List.findIdx?_cons, other a ha, hi]
      · simp [List.findIdx?_cons, other b hb, hj]
    cases here : f x with
    | none =>
      rw [List.filterMap_cons_none here]
      exact later fun a _ => by simp [here]
    | some name =>
      rw [List.filterMap_cons_some here]
      unfold firstSeen
      split
      case isTrue old =>
        refine later fun a ha same => (mem_firstSeen.1 ha).2 ?_
        rwa [← Option.some.inj (here.symm.trans same)]
      case isFalse =>
        have other : ∀ a ∈ firstSeen (name :: seen) (xs.filterMap f), f x ≠ some a := by
          intro a ha same
          refine (mem_firstSeen.1 ha).2 ?_
          rw [← Option.some.inj (here.symm.trans same)]
          exact List.mem_cons_self
        refine List.pairwise_cons.2 ⟨fun b hb => ?_, later other⟩
        have there : ∃ y ∈ xs, f y = some b := List.mem_filterMap.1 (mem_firstSeen.1 hb).1
        obtain ⟨j, hj⟩ : ∃ j, xs.findIdx? (f · = some b) = some j := by
          rw [← Option.isSome_iff_exists, List.findIdx?_isSome, List.any_eq_true]
          simpa using there
        refine ⟨0, ?_, j + 1, ?_, Nat.succ_pos _⟩
        · simp [List.findIdx?_cons, here]
        · simp [List.findIdx?_cons, other b hb, hj]

theorem scan_eq (compilers : List String) (log : String) :
    scan compilers log = firstSeen [] ((Text.lines log.toList).filterMap (moduleIn? compilers)) := by
  rw [scan, List.map_filterMap]
  rfl

theorem pairwise_scan (compilers : List String) (log : String) :
    (scan compilers log).Pairwise fun a b =>
      ∃ i ∈ firstLine? compilers log a, ∃ j ∈ firstLine? compilers log b, i < j := by
  rw [scan_eq]
  exact pairwise_firstSeen _ _ _

theorem mem_scan_iff {compilers : List String} {log name : String} :
    name ∈ scan compilers log ↔ (firstLine? compilers log name).isSome := by
  rw [scan_eq, mem_firstSeen, firstLine?, List.findIdx?_isSome, List.any_eq_true, List.mem_filterMap]
  simp

/-! ### Positions -/

theorem getElem?_of_lastIndex? {name : String} {names : List String} {i : Nat}
    (h : lastIndex? name names = some i) : names[i]? = some name := by
  induction names generalizing i with
  | nil => simp [lastIndex?] at h
  | cons n names ih =>
    unfold lastIndex? at h
    split at h
    case h_1 j found =>
      obtain rfl := Option.some.inj h
      rw [List.getElem?_cons_succ]
      exact ih found
    case h_2 =>
      obtain ⟨rfl, zero⟩ := Option.ite_none_right_eq_some.1 h
      rw [← Option.some.inj zero]
      rfl

theorem lastIndex?_eq_none_iff {name : String} {names : List String} :
    lastIndex? name names = none ↔ name ∉ names := by
  induction names with
  | nil => simp [lastIndex?]
  | cons n names ih =>
    unfold lastIndex?
    split
    case h_1 found =>
      have mem : name ∈ names := by
        by_contra absent
        simp [ih.2 absent] at found
      simp [mem]
    case h_2 absent => simp [ih.1 absent, eq_comm]

section

variable {order : List String} {a b : String}

theorem position_le (order : List String) (a : String) : position order a ≤ order.length := by
  unfold position
  cases found : lastIndex? (moduleOfPath ⟨a⟩) order with
  | none => exact Nat.le_refl _
  | some i => exact (List.getElem?_eq_some_iff.1 (getElem?_of_lastIndex? found)).1.le

theorem getElem?_position (mem : moduleOfPath ⟨a⟩ ∈ order) :
    order[position order a]? = some (moduleOfPath ⟨a⟩) := by
  unfold position
  cases found : lastIndex? (moduleOfPath ⟨a⟩) order with
  | none => exact absurd mem (lastIndex?_eq_none_iff.1 found)
  | some i => exact getElem?_of_lastIndex? found

theorem position_eq_length (absent : moduleOfPath ⟨a⟩ ∉ order) : position order a = order.length := by
  rw [position, lastIndex?_eq_none_iff.2 absent, Option.getD_none]

end

/-- A list in which what has a property comes first is cut by that property. -/
theorem filter_append_filter_of_pairwise {α : Type} {f : α → Bool} {xs : List α}
    (h : xs.Pairwise fun a b => f b = true → f a = true) :
    xs.filter f ++ xs.filter (!f ·) = xs := by
  induction xs with
  | nil => rfl
  | cons x xs ih =>
    obtain ⟨first, rest⟩ := List.pairwise_cons.1 h
    cases here : f x with
    | true => simpa [here] using ih rest
    | false =>
      have none_ : ∀ y ∈ xs, f y = false := fun y hy => by
        rw [Bool.eq_false_iff]
        exact fun hit => absurd (first y hy hit) (by simp [here])
      have nil : xs.filter f = [] := List.filter_eq_nil_iff.2 (by simpa using none_)
      have all : xs.filter (!f ·) = xs := List.filter_eq_self.2 (by simpa using none_)
      simp [here, nil, all]

/-- A sort by a key orders by it, and leaves those of any key as they were. -/
theorem mergeSort_by_key {α : Type} (key : α → Nat) (xs : List α) :
    (xs.mergeSort fun a b => decide (key a ≤ key b)).Pairwise (fun a b => key a ≤ key b) ∧
      ∀ level : α → Bool, (∀ a ∈ xs, ∀ b ∈ xs, level a = true → level b = true → key a ≤ key b) →
        (xs.mergeSort fun a b => decide (key a ≤ key b)).filter level = xs.filter level := by
  have trans (a b c : α) (h : decide (key a ≤ key b)) (h' : decide (key b ≤ key c)) :
      decide (key a ≤ key c) := by
    simp only [decide_eq_true_eq] at h h' ⊢
    exact h.trans h'
  have total (a b : α) : decide (key a ≤ key b) || decide (key b ≤ key a) := by
    simpa using Nat.le_total _ _
  refine ⟨(List.pairwise_mergeSort trans total xs).imp of_decide_eq_true, fun level alike => ?_⟩
  -- those of one key are a sorted part of the list
  have sorted : (xs.filter level).Pairwise fun a b => decide (key a ≤ key b) := by
    refine List.pairwise_of_forall_mem_list fun a ha b hb => decide_eq_true ?_
    exact alike a (List.mem_filter.1 ha).1 b (List.mem_filter.1 hb).1 (List.mem_filter.1 ha).2
      (List.mem_filter.1 hb).2
  have sub := (List.sublist_mergeSort trans total sorted List.filter_sublist).filter level
  rw [List.filter_filter] at sub
  simp only [Bool.and_self] at sub
  exact (sub.eq_of_length ((List.mergeSort_perm _ _).filter _).length_eq.symm).symm

/-- A stable sort leaves what has the greatest key as it was, after the others. -/
theorem mergeSort_eq_append {α : Type} (key : α → Nat) (xs : List α) {n : Nat}
    (bound : ∀ a ∈ xs, key a ≤ n) :
    ∃ front, xs.mergeSort (fun a b => decide (key a ≤ key b)) =
        front ++ xs.filter (fun a => !decide (key a < n)) ∧
      (∀ a ∈ front, key a < n) ∧ front.Pairwise fun a b => key a ≤ key b := by
  obtain ⟨ordered, kept⟩ := mergeSort_by_key key xs
  set sorted := xs.mergeSort fun a b => decide (key a ≤ key b)
  have cut : sorted.filter (fun a => decide (key a < n)) ++ sorted.filter (fun a => !decide (key a < n)) =
      sorted :=
    filter_append_filter_of_pairwise (ordered.imp fun le lt => by simp at lt ⊢; omega)
  have last := kept (fun a => !decide (key a < n)) fun a ha b _ _ hb => by
    have := bound a ha
    have : n ≤ key b := by simpa using hb
    omega
  exact ⟨sorted.filter fun a => decide (key a < n), by rw [← last, cut],
    fun a ha => by simpa using (List.mem_filter.1 ha).2, ordered.filter _⟩

/-- Members of different modules are put in the order of a log. -/
theorem arranged_orderMembers (compilers : List String) (log : String) {members : List String}
    (differ : (members.map fun m => moduleOfPath ⟨m⟩).Nodup) :
    Arranged compilers log members (orderMembers members (scan compilers log)) := by
  have there {m : String} : position (scan compilers log) m < (scan compilers log).length ↔
      moduleOfPath ⟨m⟩ ∈ scan compilers log := by
    constructor
    · intro less
      by_contra absent
      exact absurd (position_eq_length absent) less.ne
    · exact fun mem => (List.getElem?_eq_some_iff.1 (getElem?_position mem)).1
  have perm : (orderMembers members (scan compilers log)).Perm members := List.mergeSort_perm _ _
  obtain ⟨compiled, split, known, sorted⟩ := mergeSort_eq_append (position (scan compilers log)) members
    fun m _ => position_le _ m
  refine ⟨perm, compiled, ?_, fun m hm => mem_scan_iff.1 (there.1 (known m hm)), ?_⟩
  · refine split.trans (congrArg (compiled ++ ·) (List.filter_congr fun m _ => ?_))
    simp only [there, mem_scan_iff, Bool.decide_eq_true, Option.not_isSome]
  · have different : compiled.Pairwise fun a b => moduleOfPath ⟨a⟩ ≠ moduleOfPath ⟨b⟩ := by
      have nodup := List.pairwise_map.1 ((perm.map _).nodup_iff.2 differ)
      rw [orderMembers, split] at nodup
      exact (List.pairwise_append.1 nodup).1
    refine (sorted.and different).imp_of_mem fun {a b} ha hb ⟨le, ne⟩ => ?_
    obtain ⟨boundA, isA⟩ := List.getElem?_eq_some_iff.1 (getElem?_position (there.1 (known a ha)))
    obtain ⟨boundB, isB⟩ := List.getElem?_eq_some_iff.1 (getElem?_position (there.1 (known b hb)))
    have less : position (scan compilers log) a < position (scan compilers log) b := by
      refine lt_of_le_of_ne le fun same => ne ?_
      rw [← isA, ← isB]
      simp only [same]
    rw [← isA, ← isB]
    exact List.pairwise_iff_getElem.1 (pairwise_scan compilers log) _ _ boundA boundB less

end FlatModules.BuildLog
