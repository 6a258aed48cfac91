import FlatModules.Proofs.Tree.History

/-!
# Trees — libraries and names at the top

A tree keeps two lists beside its namespaces and files: the directories that are marked as libraries,
which are those that the project declares (`Tree.mem_libraries`), and the module names of the namespaces
directly below a source directory (`Tree.mem_topLevel`).
-/

namespace FlatModules

open Naming FlatModules.Path

namespace Tree

variable {d : Disk} {root : Path} {config : Config} {t t' : Tree} {v : Visit}

theorem exists_of_bind_ok {α β ε : Type} {x : Except ε α} {f : α → Except ε β} {b : β}
    (h : (x >>= f) = .ok b) : ∃ a, x = .ok a ∧ f a = .ok b := by
  cases x with
  | error e => simp [bind, Except.bind] at h
  | ok a => exact ⟨a, rfl, h⟩

/-- No visit marks a library, and that of a directory directly below a source directory enters a name
at the top. -/
theorem addVisit_rest (ne : v.names ≠ []) (isName : ∀ n ∈ v.names, IsName n)
    (ok : t.addVisit v = .ok t') :
    t'.libraries = t.libraries ∧ t'.topLevel =
      if v.entry = .dir ∧ v.names.length = 1 then v.ns.moduleName :: t.topLevel else t.topLevel := by
  have claimed {t t' : Tree} {module : String} {kind : MemberKind} {owner : Path}
      (ok : t.claim module kind owner = .ok t') :
      t'.libraries = t.libraries ∧ t'.topLevel = t.topLevel := by
    obtain ⟨claims, rfl, -⟩ := claim_ok ok
    exact ⟨rfl, rfl⟩
  have path : belowRoot v.source v.names = v.path := div_intercalate ne isName
  have entered := addEntry_ok ok
  rw [path] at entered
  rcases entered with ⟨dir, ok⟩ | ⟨other, ⟨kind, hk, ok⟩ | ⟨none_, rfl⟩⟩
  · obtain ⟨names, last, e⟩ := (List.eq_nil_or_concat' v.names).resolve_left ne
    have parent : (namespaceFor v.path v.names).parent =
        if v.names.length > 1 then some v.above else none := by
      rw [← v.parent?_path e isName]
      rfl
    simp only [Tree.addNamespace] at ok
    cases claim : t.claim (namespaceFor v.path v.names).moduleName .subNamespace v.path with
    | error e' => simp [claim, bind, Except.bind] at ok
    | ok t₁ =>
      obtain ⟨libraries, topLevel⟩ := claimed claim
      simp only [claim, bind, Except.bind, pure, Except.pure, Except.ok.injEq] at ok
      by_cases long : v.names.length > 1
      · rw [if_pos long] at parent
        simp only [parent] at ok
        rw [if_neg fun short => by omega, ← ok]
        exact ⟨libraries, topLevel⟩
      · have positive := List.length_pos_of_ne_nil ne
        rw [if_neg long] at parent
        simp only [parent] at ok
        rw [if_pos ⟨dir, by omega⟩, ← ok]
        exact ⟨libraries, congrArg (v.ns.moduleName :: ·) topLevel⟩
  · rw [if_neg fun short => other short.1]
    unfold Tree.addSource at ok
    split at ok
    case h_1 =>
      obtain rfl := Except.ok.inj ok
      exact ⟨rfl, rfl⟩
    case h_2 stem hs =>
      split at ok
      case isTrue =>
        obtain rfl := Except.ok.inj ok
        exact ⟨rfl, rfl⟩
      case isFalse =>
        dsimp only at ok
        split at ok
        case h_1 => exact claimed ok
        case h_2 s found =>
          obtain ⟨t₁, claim, ok⟩ := exists_of_bind_ok ok
          obtain ⟨libraries, topLevel⟩ := claimed claim
          obtain rfl := Except.ok.inj ok
          exact ⟨libraries, topLevel⟩
  · rw [if_neg fun short => other short.1]
    exact ⟨rfl, rfl⟩

/-- Marking libraries puts them before those that are marked. -/
theorem libraries_of_foldlM {libraries : List Path} (ok : libraries.foldlM addLibrary t = .ok t') :
    t'.libraries = libraries.reverse ++ t.libraries := by
  induction libraries generalizing t with
  | nil =>
    obtain rfl := Except.ok.inj ok
    simp
  | cons library libraries ih =>
    rw [List.foldlM_cons] at ok
    obtain ⟨t₁, first, ok⟩ := exists_of_bind_ok ok
    have one : t₁.libraries = library :: t.libraries := by
      unfold addLibrary at first
      split at first
      · obtain rfl := Except.ok.inj first
        rfl
      · simp at first
    rw [ih ok, one]
    simp

/-- The last library that a project declares is the first of the tree. -/
theorem libraries_of_scan (sound : d.Sound) (ok : scan d root config = .ok t) :
    t.libraries = config.libraries.reverse := by
  unfold scan at ok
  rw [foldlM_addSourceDir] at ok
  obtain ⟨t₀, run, marked⟩ := exists_of_bind_ok ok
  have it := itinerary_visits sound root config.sourceDirs
  have none_ : t₀.libraries = [] :=
    foldlM_ok_induction (P := fun t => t.libraries = [])
      (fun t v t' hv none_ ok => (addVisit_rest (it.ne_nil v hv) (it.isName v hv) ok).1.trans none_)
      rfl run
  rw [libraries_of_foldlM marked, none_, List.append_nil]

/-- The libraries of a tree are those that its project declares. -/
theorem mem_libraries (sound : d.Sound) (ok : scan d root config = .ok t) {p : Path} :
    p ∈ t.libraries ↔ p ∈ config.libraries := by
  rw [libraries_of_scan sound ok, List.mem_reverse]

/-- The names at the top are those of the directories visited directly below a source directory. -/
theorem mem_topLevel (sound : d.Sound) (ok : scan d root config = .ok t) {name : String} :
    name ∈ t.topLevel ↔ ∃ v ∈ visits d root config.sourceDirs,
      v.entry = .dir ∧ v.names.length = 1 ∧ v.ns.moduleName = name := by
  obtain ⟨t₀, libraries, rfl, run⟩ := exists_run_of_scan ok
  have it := itinerary_visits sound root config.sourceDirs
  refine foldlM_ok_prefix (P := fun vs t => ∀ name, name ∈ t.topLevel ↔ ∃ v ∈ vs,
    v.entry = .dir ∧ v.names.length = 1 ∧ v.ns.moduleName = name)
    (fun front v back t₁ t₂ split h ok name => ?_) (by simp) run name
  have mem : v ∈ visits d root config.sourceDirs := by
    rw [split]
    simp
  rw [(addVisit_rest (it.ne_nil v mem) (it.isName v mem) ok).2]
  simp only [List.mem_append, List.mem_singleton, or_and_right, exists_or, exists_eq_left, ← h]
  by_cases top : v.entry = .dir ∧ v.names.length = 1
  · rw [if_pos top, List.mem_cons, or_comm, eq_comm]
    simp [top]
  · rw [if_neg top]
    simpa using fun dir short _ => absurd ⟨dir, short⟩ top

end Tree
end FlatModules
