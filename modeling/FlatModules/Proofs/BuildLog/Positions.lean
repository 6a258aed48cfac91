import Mathlib
import FlatModules.Proofs.BuildLog.Order

/-!
# Build log — positions

Of a name that an order of modules repeats, the last occurrence is where its members are put
(`placed_orderMembers`), so that members of `x` and `y` are not in the order of first occurrences if
the modules are `X`, `Y` and `X` again (`not_first_of_repeated`).  Where no name is repeated, as in
the order that a log gives, the two are one.
-/

namespace FlatModules.BuildLog

open Naming

/-- Where a member's module is first in an order. -/
def firstPlace? (order : List String) (member : String) : Option Nat :=
  order.findIdx? (· = moduleOfPath ⟨member⟩)

/-- Where a member's module is last in an order. -/
def lastPlace? (order : List String) (member : String) : Option Nat :=
  lastIndex? (moduleOfPath ⟨member⟩) order

/-- How members are put in an order by places that some of them have in it. -/
structure Placed (place? : String → Option Nat) (members sorted : List String) : Prop where
  /-- Each member is there as often as it was given. -/
  perm : sorted.Perm members
  /-- Members with a place come before those without one. -/
  known : sorted.Pairwise fun a b => (place? b).isSome → (place? a).isSome
  /-- Members with places come in the order of these. -/
  places : sorted.Pairwise fun a b => ∀ i ∈ place? a, ∀ j ∈ place? b, i ≤ j
  /-- Members of one place, or without one, come as they were given. -/
  stable : ∀ place, sorted.filter (place? · = place) = members.filter (place? · = place)

/-- The last occurrence of a name: none comes after it. -/
theorem lastIndex?_eq_some_iff {name : String} {names : List String} {i : Nat} :
    lastIndex? name names = some i ↔ names[i]? = some name ∧ ∀ j > i, names[j]? ≠ some name := by
  induction names generalizing i with
  | nil => simp [lastIndex?]
  | cons n names ih =>
    unfold lastIndex?
    cases later : lastIndex? name names with
    | some k =>
      obtain ⟨there, none_⟩ := ih.1 later
      constructor
      · rintro ⟨⟩
        refine ⟨there, fun j after => ?_⟩
        obtain ⟨j, rfl⟩ : ∃ j', j = j' + 1 := ⟨j - 1, by omega⟩
        exact none_ j (by omega)
      · rintro ⟨here, last⟩
        cases i with
        | zero => exact absurd there (last (k + 1) (Nat.succ_pos k))
        | succ i =>
          have := ih.2 ⟨here, fun j after => last (j + 1) (Nat.succ_lt_succ after)⟩
          rw [later, Option.some.injEq] at this
          rw [this]
    | none =>
      have absent := lastIndex?_eq_none_iff.1 later
      constructor
      · intro h
        obtain ⟨rfl, rfl⟩ := by simpa using h
        refine ⟨rfl, fun j after here => absent ?_⟩
        obtain ⟨j, rfl⟩ : ∃ j', j = j' + 1 := ⟨j - 1, by omega⟩
        exact List.mem_of_getElem? here
      · rintro ⟨here, -⟩
        cases i with
        | zero => simp [Option.some.inj here]
        | succ i =>
          rw [List.getElem?_cons_succ] at here
          exact absurd (List.mem_of_getElem? here) absent

/-- A name that is not repeated is first where it is last. -/
theorem lastPlace?_eq_firstPlace? {order : List String} (once : order.Nodup) :
    lastPlace? order = firstPlace? order := by
  funext member
  cases first : firstPlace? order member with
  | none =>
    refine lastIndex?_eq_none_iff.2 fun mem => ?_
    simpa using List.findIdx?_eq_none_iff.1 first _ mem
  | some i =>
    obtain ⟨bound, here, -⟩ := List.findIdx?_eq_some_iff_getElem.1 first
    have here : order[i]? = some (moduleOfPath ⟨member⟩) := by simpa [bound] using here
    refine lastIndex?_eq_some_iff.2 ⟨here, fun j after there => ?_⟩
    exact absurd ((List.getElem?_inj bound once).1 (here.trans there.symm)) (by omega)

theorem position_eq (order : List String) (member : String) :
    position order member = (lastPlace? order member).getD order.length := rfl

/-- A place is not the end of the order, where members without one are put. -/
theorem lt_length_of_lastPlace? {order : List String} {member : String} {i : Nat}
    (h : lastPlace? order member = some i) : i < order.length :=
  (List.getElem?_eq_some_iff.1 (getElem?_of_lastIndex? h)).1

/-- Members are put where their modules are last in the order; and this is where they are first, if
the order repeats no name. -/
theorem placed_orderMembers (members order : List String) :
    Placed (lastPlace? order) members (orderMembers members order) ∧
      (order.Nodup → Placed (firstPlace? order) members (orderMembers members order)) := by
  have last : Placed (lastPlace? order) members (orderMembers members order) := by
    obtain ⟨ordered, kept⟩ := mergeSort_by_key (position order) members
    refine ⟨List.mergeSort_perm _ _, ordered.imp fun {a b} le known => ?_,
      ordered.imp fun {a b} le i hi j hj => ?_, fun place => kept _ fun a _ b _ ha hb => ?_⟩
    · obtain ⟨j, hj⟩ := Option.isSome_iff_exists.1 known
      have := lt_length_of_lastPlace? hj
      cases ha : lastPlace? order a with
      | some => rfl
      | none =>
        simp only [position_eq, ha, hj, Option.getD_some, Option.getD_none] at le
        omega
    · simpa only [position_eq, Option.mem_def.1 hi, Option.mem_def.1 hj, Option.getD_some] using le
    · rw [position_eq, position_eq, of_decide_eq_true ha, of_decide_eq_true hb]
  exact ⟨last, fun once => lastPlace?_eq_firstPlace? once ▸ last⟩

/-- With a name repeated, members are not put where their modules are first. -/
theorem not_first_of_repeated :
    ¬ ∀ members order : List String,
      Placed (firstPlace? order) members (orderMembers members order) := by
  intro claim
  have x : position ["X", "Y", "X"] "x" = 2 := by decide
  have y : position ["X", "Y", "X"] "y" = 1 := by decide
  have sorted : orderMembers ["x", "y"] ["X", "Y", "X"] = ["y", "x"] := by
    simp [orderMembers, List.mergeSort, x, y]
  have := (claim ["x", "y"] ["X", "Y", "X"]).places
  rw [sorted] at this
  revert this
  decide

end FlatModules.BuildLog
