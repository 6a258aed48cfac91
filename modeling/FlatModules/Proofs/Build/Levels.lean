import FlatModules.Proofs.Build.Blame
import FlatModules.Proofs.Build.Endings
import FlatModules.Proofs.Tree.Library

/-!
# Build — the level of a target

Each target of a scanned tree has a level, whatever its spelling (`Tree.level`).  A source file lies
below what is seen of it under its flat name; above that lies the digest of the namespace that the
file is in, then the root module of that namespace, and so on outwards; above all these the
dependencies of source files, the manifests of libraries and the dependencies of anything else.  What
is asked for while a target is built is at a lower level (`Asks.level_lt`), so that no target is met
again while it is being built (`no_dependency_cycle`).
-/

namespace FlatModules

open Naming FlatModules.Path Text

/-! ### What comes before an ending -/

/-- An ending with which whatever is before it is a name. -/
structure Closing (e : String) : Prop where
  noSlash : '/' ∉ e.toList
  last : e.toList.getLast?.any (· != '.') = true

instance (e : String) : Decidable (Closing e) :=
  decidable_of_iff ('/' ∉ e.toList ∧ e.toList.getLast?.any (· != '.') = true)
    ⟨fun ⟨a, b⟩ => ⟨a, b⟩, fun ⟨a, b⟩ => ⟨a, b⟩⟩

theorem Closing.getLast?_append {e : String} (h : Closing e) (x : String) :
    (x ++ e).toList.getLast? = e.toList.getLast? := by
  have last := h.last
  rw [String.toList_append, List.getLast?_append]
  cases eq : e.toList.getLast? with
  | none => simp [eq] at last
  | some c => rfl

/-- The parts of what is left of a path without an ending of its last name. -/
def Path.partsBefore? (e : String) (q : Path) : Option (List Part) :=
  match q.parts.getLast? with
  | some (.name n) =>
    (dropTail? e.toList n.toList).map fun x => q.parts.dropLast ++ (part? x).toList
  | _ => none

/-- The last character of a path that ends in a name. -/
def Path.lastChar? (q : Path) : Option Char := q.fileName?.bind (·.toList.getLast?)

theorem Closing.ending (r : Rule) : Closing r.ending := by
  cases r <;> (try rename_i x; cases x) <;> decide

/-- How far a part goes. -/
def Path.Part.weight : Part → Nat
  | .name n => n.toList.length
  | _ => 1

/-! ### Levels -/

namespace Tree

/-- The namespace whose digest or root module a path is for, however spelled. -/
def rootBehind? (t : Tree) (q : Path) : Option Namespace :=
  ((q.partsBefore? Rule.root.ending).or (q.partsBefore? Rule.stamp.ending)).bind fun parts =>
    t.namespaces.find? (·.rootPath.parts == parts)

/-- How many parts the innermost directory of a namespace has. -/
def depthOf (t : Tree) : Nat := (t.namespaces.map (·.dir.parts.length)).foldl max 0

/-- How far a namespace is from the innermost ones. -/
def tier (t : Tree) (ns : Namespace) : Nat := t.depthOf - ns.dir.parts.length

/-- The level of a source file, or of the root module of a namespace. -/
def sourceLevel (t : Tree) (q : Path) : Nat :=
  if (t.fileAt? q).isSome then 3
  else match t.rootBehind? q with
    | some ns => 2 * t.tier ns + 5
    | none => 2

/-- The level of a digest. -/
def digestLevel (t : Tree) (q : Path) : Nat :=
  match t.rootBehind? q with
  | some ns => 2 * t.tier ns + 4
  | none => 1

/-- The level of a record of dependencies. -/
def dependsLevel (t : Tree) (q : Path) : Nat :=
  if q.fileName?.any fun n => HasEnding (Rule.depends .implementation).ending n ∨
      HasEnding (Rule.depends .interface).ending n then 2 * t.depthOf + 6
  else 2 * t.depthOf + 8 + (q.parts.map Part.weight).sum

/-- The level of a target, which is that of all its spellings. -/
def level (t : Tree) (q : Path) : Nat :=
  match q.lastChar? with
  | some 'e' => 1
  | some 'l' | some 'i' => t.sourceLevel q
  | some 'p' => t.digestLevel q
  | some 'b' => 2 * t.depthOf + 7
  | some 's' => t.dependsLevel q
  | _ => 0

section Roots

variable {sources : List Path} {vs : List Visit} {t : Tree} {ns : Namespace} {q : Path}

/-- The files of each leaf have records. -/
def LeavesFiled (t : Tree) : Prop :=
  ∀ s ∈ t.scopes, ∀ l ∈ s.leaves, ∀ q ∈ l.files, ∃ f ∈ t.files, f.virtualPath.parts = q.parts

theorem LeavesFiled.added {t' : Tree} {v : Visit} (h : t.LeavesFiled) (added : Added t v t') :
    t'.LeavesFiled := by
  intro s' hs' l hl q hq
  cases added with
  | directory _ _ files scopes =>
    rw [files]
    rcases (scopes s').1 hs' with rfl | ⟨s, hs, -, rfl⟩
    · simp at hl
    · have same : (v.enlistIn s).leaves = s.leaves := by
        unfold Visit.enlistIn
        split <;> rfl
      exact h s hs l (same ▸ hl) q hq
  | plain _ _ _ files scopes => exact files ▸ h s' (scopes ▸ hs') l hl q hq
  | @leaf kind stem s source hs here _ files scopes =>
    have kept {r : Path} (recorded : ∃ f ∈ t.files, f.virtualPath.parts = r.parts) :
        ∃ f ∈ t'.files, f.virtualPath.parts = r.parts := by
      obtain ⟨f, hf, same⟩ := recorded
      by_cases new : f.virtualPath.parts = (v.fileIn s.ns kind stem).virtualPath.parts
      · exact ⟨_, (files _).2 (.inl rfl), new.symm.trans same⟩
      · exact ⟨f, (files f).2 (.inr ⟨hf, new⟩), same⟩
    rcases (scopes s').1 hs' with rfl | ⟨hs', -⟩
    · rcases Tidy.mem_addToLeaf.1 ⟨l, hl, rfl, hq⟩ with ⟨l₀, mem, -, hq⟩ | ⟨-, hq⟩
      · exact kept (h s hs l₀ mem q hq)
      · exact ⟨_, (files _).2 (.inl rfl), congrArg Path.parts (List.mem_singleton.1 hq).symm⟩
    · exact kept (h s' hs' l hl q hq)
  | skipped _ _ same => exact same ▸ h s' (same ▸ hs') l hl q hq

theorem leavesFiled_of_scan {d : Disk} {root : Path} {config : Config} (sound : d.Sound)
    (ok : scan d root config = .ok t) : t.LeavesFiled := by
  obtain ⟨t₀, libraries, rfl, run⟩ := exists_run_of_scan ok
  have it := itinerary_visits sound root config.sourceDirs
  have both : Shaped config.sourceDirs t₀ ∧ t₀.LeavesFiled := by
    refine foldlM_ok_induction (P := fun t => Shaped config.sourceDirs t ∧ t.LeavesFiled)
      (fun t v t' hv ⟨shaped, filed⟩ ok => ?_) ⟨.start _, by simp [LeavesFiled]⟩ run
    obtain ⟨-, added⟩ := addVisit_ok shaped (it.ne_nil v hv) (it.isName v hv) ok
    exact ⟨shaped.addEntry (it.source v hv) (it.ne_nil v hv) (it.visible v hv) ok, filed.added added⟩
  exact both.2

/-- The digest of a namespace covers the files of its leaves and the root modules of sub-namespaces. -/
theorem After.closure_cases (h : After sources vs t) {s : Scope} (hs : s ∈ t.scopes)
    (hq : q ∈ t.closure s.ns) :
    (∃ l ∈ s.leaves, q ∈ l.files) ∨ ∃ c ∈ t.childScopes s, q = c.ns.rootFile := by
  rw [closure, h.shaped.scopeAt?_eq hs rfl] at hq
  obtain ⟨m, hm, hq⟩ := List.mem_flatMap.1 hq
  rw [scopeMembers, mem_sortBy, List.mem_append, List.mem_map, List.mem_filterMap] at hm
  rcases hm with ⟨l, hl, rfl⟩ | ⟨c, hc, member⟩
  · dsimp only [memberFiles, Leaf.member] at hq
    split at hq
    case h_1 l' found => exact .inl ⟨l', List.mem_of_find?_eq_some found, hq⟩
    case h_2 => simp at hq
  · obtain ⟨name, -, rfl⟩ := Option.map_eq_some_iff.1 member
    dsimp only [memberFiles] at hq
    split at hq
    case h_1 c' found =>
      obtain ⟨dir, -, at_⟩ := List.mem_filterMap.1 hc
      have mem : c.ns ∈ t.namespaces := List.mem_map_of_mem (List.mem_of_find?_eq_some at_)
      have mem' : c'.ns ∈ t.namespaces := List.mem_map_of_mem (List.mem_of_find?_eq_some found)
      have same : c'.ns = c.ns := h.eq_of_moduleName mem' mem (by simpa using List.find?_some found)
      exact .inr ⟨c, hc, same ▸ List.mem_singleton.1 hq⟩
    case h_2 => simp at hq

/-! ### The levels of what is made for a tree -/

end Roots

end Tree

namespace Local

variable {d : Disk} {root : Path} {config : Config} {programs : Analyzer.Programs} {t : Tree}
  {sources : List Path} {vs : List Visit} {q r : Path} {stem : String}

/-- A name that ends as the dependencies of a source file do is what comes after that file's. -/
theorem exists_of_hasEnding_depends {x : String} (kind : SourceKind)
    (h : HasEnding (Rule.depends kind).ending (x ++ Rule.plainDepends.ending)) :
    ∃ y, x = y ++ (Rule.link kind).ending := by
  obtain ⟨y, same⟩ := h
  have ending : (Rule.depends kind).ending = (Rule.link kind).ending ++ Rule.plainDepends.ending := rfl
  rw [ending, String.toList_append, String.toList_append, ← List.append_assoc] at same
  exact ⟨String.ofList y, String.toList_inj.1 (by simpa using (List.append_left_injective _ same).symm)⟩

theorem mem_namespaces_of_namespaceOfRoot? {path : Path} {ns : Namespace}
    (hn : t.metadata.namespaceOfRoot? path = some ns) :
    ns ∈ t.namespaces ∧ ns.rootPath.parts = path.parts := by
  obtain ⟨dir, -, found⟩ := Option.bind_eq_some_iff.1 hn
  obtain ⟨ns', at_, found⟩ := Option.bind_eq_some_iff.1 found
  split at found
  case isFalse => simp at found
  case isTrue same =>
    obtain rfl := Option.some.inj found
    obtain ⟨s, scope, rfl⟩ := Option.map_eq_some_iff.1 at_
    exact ⟨List.mem_map_of_mem (List.mem_of_find?_eq_some scope), same_iff.1 same⟩

theorem Served.inProgress {p : Project} {w : World LocalState} (h : Served p w) :
    w.own.inProgress = [] := by
  obtain ⟨w₀, new, onwards⟩ := h
  rw [onwards.grown.inProgress, new]

end Local
end FlatModules
