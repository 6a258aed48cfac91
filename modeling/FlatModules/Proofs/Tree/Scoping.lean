import FlatModules.Analyzer.Line
import FlatModules.Proofs.Tree.FlatSpace
import FlatModules.Proofs.Tree.Inside
import FlatModules.Proofs.Tree.Marks
import FlatModules.Proofs.Tree.Members

/-!
# Trees — scoping

What a raw name stands for in a file.  Around the file's namespace are namespaces up to the source
directory, and the innermost of them that has a member of the name settles it (`Tree.Innermost`); if
there is none, it is the module name of a namespace directly below a source directory, or nothing
(`Tree.resolve_lexical`).

Whatever the source directories, only module names of components stand for something
(`Tree.Short`), and they stand for themselves or for flat names of several components
(`Tree.resolveFrom?_cases`), so that to resolve names again changes nothing (`Tree.resolve_resolve`).
-/

namespace FlatModules

open Naming FlatModules.Path

namespace Tree

variable {d : Disk} {root source : Path} {sources : List Path} {config : Config} {t : Tree}
  {s : Scope} {cs ds : List String} {name x : String} {n : Nat} {p : Path}

/-! ### What is around a file -/

/-- Whether the namespace that names lead to has a member of a name. -/
def HasMember (t : Tree) (source : Path) (cs : List String) (name : String) : Prop :=
  ∃ m ∈ t.members (namespaceIn source cs), m.name = name

/-- Whether `ds` lead to the innermost namespace that has a member of a name, of those from the
source directory to where `cs` lead. -/
structure Innermost (t : Tree) (source : Path) (cs : List String) (name : String) (ds : List String) :
    Prop where
  ne_nil : ds ≠ []
  up : ds <+: cs
  has : HasMember t source ds name
  inner : ∀ es, ds <+: es → es <+: cs → es ≠ ds → ¬ HasMember t source es name

/-- Whether a name may stand for a member: a leaf, or a sub-namespace when no leaf has the name. -/
def Preferred (ms : List Member) (m : Member) : Prop :=
  m ∈ ms ∧ (m.kind = .leafModule ∨ ∀ m' ∈ ms, m'.name = m.name → m'.kind = .subNamespace)

/-- Whether a name is the module name of a namespace directly below a source directory. -/
def IsTop (t : Tree) (sources : List Path) (name : String) : Prop :=
  ∃ source ∈ sources, ∃ c, namespaceIn source [c] ∈ t.namespaces ∧
    (namespaceIn source [c]).moduleName = name

/-- What a name stands for where `cs` lead. -/
inductive Stands (t : Tree) (source : Path) (cs : List String) (name : String) :
    Option String → Prop
  | member {ds : List String} {m : Member} (innermost : Innermost t source cs name ds)
      (preferred : Preferred (t.members (namespaceIn source ds)) m) (named : m.name = name) :
      Stands t source cs name (some m.target)
  | outside (none_ : ∀ ds, ds ≠ [] → ds <+: cs → ¬ HasMember t source ds name) :
      Stands t source cs name (if name ∈ t.topLevel then some name else none)

/-- A name that no member of a namespace has stands for what it stands for around it. -/
theorem Stands.inward {r : Option String} {last : String} (h : Stands t source cs name r)
    (none_ : ¬ HasMember t source (cs ++ [last]) name) : Stands t source (cs ++ [last]) name r := by
  cases h with
  | member innermost preferred named =>
    refine .member ⟨innermost.ne_nil, innermost.up.trans (List.prefix_append _ _), innermost.has,
      fun es above up differ => ?_⟩ preferred named
    rcases List.prefix_concat_iff.1 up with rfl | up
    · exact none_
    · exact innermost.inner es above up differ
  | outside all =>
    refine .outside fun ds ne up => ?_
    rcases List.prefix_concat_iff.1 up with rfl | up
    · exact none_
    · exact all ds ne up

theorem exists_of_findMember? (found : t.findMember? s name = some x) :
    ∃ m, Preferred (t.scopeMembers s) m ∧ m.name = name ∧ m.target = x := by
  rcases Option.or_eq_some_iff.1 found with leaf | ⟨none_, child⟩
  · obtain ⟨l, here, rfl⟩ := Option.map_eq_some_iff.1 leaf
    exact ⟨l.member, ⟨mem_scopeMembers.2 (.inl ⟨l, List.mem_of_find?_eq_some here, rfl⟩), .inl rfl⟩,
      by simpa [Leaf.member] using List.find?_some here, rfl⟩
  · obtain ⟨c, here, rfl⟩ := Option.map_eq_some_iff.1 child
    have short : c.shortName? = some name := by simpa using List.find?_some here
    have member : c.member? = some ⟨name, c.ns.moduleName, .subNamespace⟩ := by
      rw [Scope.member?, short, Option.map_some]
    refine ⟨_, ⟨mem_scopeMembers.2 (.inr ⟨c, List.mem_of_find?_eq_some here, member⟩),
      .inr fun m hm same => ?_⟩, rfl, rfl⟩
    rcases mem_scopeMembers.1 hm with ⟨l, hl, rfl⟩ | ⟨c', -, found'⟩
    · have no_leaf := List.find?_eq_none.1 (Option.map_eq_none_iff.1 none_) l hl
      exact absurd same (by simpa [Leaf.member] using no_leaf)
    · obtain ⟨_, -, rfl⟩ := Option.map_eq_some_iff.1 found'
      rfl

theorem findMember?_eq_none_iff :
    t.findMember? s name = none ↔ ¬ ∃ m ∈ t.scopeMembers s, m.name = name := by
  rw [findMember?_eq, Option.map_eq_none_iff, List.find?_eq_none]
  simp

/-- The targets of members are virtual modules of leaves, and module names of namespaces. -/
theorem target_of_mem_scopeMembers {m : Member} (hs : s ∈ t.scopes) (hm : m ∈ t.scopeMembers s) :
    (∃ s ∈ t.scopes, ∃ l ∈ s.leaves, l.virtualModule = m.target) ∨
      ∃ ns ∈ t.namespaces, ns.moduleName = m.target := by
  rcases mem_scopeMembers.1 hm with ⟨l, hl, rfl⟩ | ⟨c, hc, found⟩
  · exact .inl ⟨s, hs, l, hl, rfl⟩
  · obtain ⟨_, -, rfl⟩ := Option.map_eq_some_iff.1 found
    obtain ⟨path, -, found⟩ := List.mem_filterMap.1 hc
    unfold scopeAt? at found
    exact .inr ⟨c.ns, List.mem_map_of_mem (List.mem_of_find?_eq_some found), rfl⟩

section Scanned

variable (sound : d.Sound) (scattered : Scattered d root sources)
  (after : After sources (visits d root sources) t)

include sound scattered after

/-- What a name stands for at the directory of a namespace, however many steps outwards are taken
if only they reach the source directory. -/
theorem At.stands (h : At d root sources t s source cs) (enough : cs.length ≤ n)
    (here : p.parts = s.ns.dir.parts) : Stands t source cs name (t.resolveFrom? name n p) := by
  induction n generalizing s cs p with
  | zero => exact absurd (List.length_eq_zero_iff.1 (by omega)) h.ne_nil
  | succ n ih =>
    have members : t.members (namespaceIn source cs) = t.scopeMembers s := by
      rw [← h.eq, members_eq after.shaped h.mem]
    rw [resolveFrom?, after.shaped.scopeAt?_eq h.mem here]
    cases found : t.findMember? s name with
    | some x =>
      simp only [found]
      obtain ⟨m, preferred, named, rfl⟩ := exists_of_findMember? found
      rw [← members] at preferred
      refine .member ⟨h.ne_nil, List.prefix_rfl, ⟨m, preferred.1, named⟩, ?_⟩ preferred named
      intro es above up differ
      exact absurd (above.eq_of_length_le up.length_le).symm differ
    | none =>
      simp only [found]
      have none_ : ¬ HasMember t source cs name := by
        rw [HasMember, members]
        exact findMember?_eq_none_iff.1 found
      obtain ⟨above, last, rfl⟩ := (List.eq_nil_or_concat' cs).resolve_left h.ne_nil
      have parent : s.ns.parent = _ := h.eq ▸ namespaceIn_parent h.isName
      rw [List.dropLast_concat] at parent
      rw [List.length_append, List.length_singleton] at enough parent
      by_cases top : above = []
      · subst top
        simp only [parent]
        refine .outside fun ds ne up => ?_
        rcases List.prefix_concat_iff.1 up with rfl | up
        · exact none_
        · exact absurd (List.prefix_nil.1 up) ne
      · have long := List.length_pos_of_ne_nil top
        rw [if_pos (by omega)] at parent
        simp only [parent]
        obtain ⟨s', h'⟩ := h.above sound scattered after (List.prefix_append _ _) top
        refine (ih h' (by omega) ?_).inward none_
        rw [h'.eq, namespaceIn_dir]

end Scanned

theorem mem_topLevel_iff (sound : d.Sound) (scattered : Scattered d root config.sourceDirs)
    (ok : scan d root config = .ok t) : name ∈ t.topLevel ↔ IsTop t config.sourceDirs name := by
  have after := After.scan sound ok
  rw [mem_topLevel sound ok]
  constructor
  · rintro ⟨v, hv, dir, short, rfl⟩
    obtain ⟨c, names⟩ := List.length_eq_one_iff.1 short
    obtain ⟨mem, found⟩ := mem_visits.1 hv
    obtain ⟨s, h⟩ := exists_scope_at sound scattered after mem (Found.enters sound (dir ▸ found))
      found.ne_nil
    rw [Visit.ns, names]
    exact ⟨v.source, mem, c, names ▸ h.mem_namespaces, rfl⟩
  · rintro ⟨source, -, c, mem, rfl⟩
    obtain ⟨s, hs, eq⟩ := List.mem_map.1 mem
    obtain ⟨source', cs, h⟩ := exists_at sound scattered after hs
    obtain rfl : cs = [c] := by rw [← h.components, eq, namespaceIn_components]
    refine ⟨⟨source', [c], .dir⟩, visited_of_enters sound h.mem_sources h.enters h.ne_nil, rfl, rfl, ?_⟩
    rw [← eq, h.eq]
    rfl

/-- Resolution follows lexical scoping.  Around a file are the namespaces up to its source directory.
If one of them has a member of the name, the name stands for such a member of the innermost of these,
for a leaf rather than a sub-namespace; otherwise it stands for the namespace of that module name
directly below a source directory, or for nothing.  What it stands for is a leaf or a namespace. -/
theorem resolve_lexical (sound : d.Sound) (disjoint : Disjoint d root config.sourceDirs)
    (ok : scan d root config = .ok t) {f : NamespacedFile} (hf : f ∈ t.files) (name : String) :
    ∃ source ∈ config.sourceDirs, ∃ cs, cs ≠ [] ∧ f.dir = source.below cs ∧
      (∀ ds, ds ≠ [] → ds <+: cs → namespaceIn source ds ∈ t.namespaces) ∧
      ((∃ ds, ds ≠ [] ∧ ds <+: cs ∧ HasMember t source ds name) →
        ∃ ds, Innermost t source cs name ds ∧
          ∃ m, Preferred (t.members (namespaceIn source ds)) m ∧ m.name = name ∧
            t.resolve? f name = some m.target) ∧
      ((∀ ds, ds ≠ [] → ds <+: cs → ¬ HasMember t source ds name) →
        (IsTop t config.sourceDirs name → t.resolve? f name = some name) ∧
          (¬ IsTop t config.sourceDirs name → t.resolve? f name = none)) ∧
      ∀ x, t.resolve? f name = some x →
        (∃ s ∈ t.scopes, ∃ l ∈ s.leaves, l.virtualModule = x) ∨
          ∃ ns ∈ t.namespaces, ns.moduleName = x := by
  have after := After.scan sound ok
  have scattered := disjoint.scattered
  have top : name ∈ t.topLevel ↔ IsTop t config.sourceDirs name :=
    mem_topLevel_iff sound scattered ok
  obtain ⟨source, hs, cs, stem, kind, ne, has, eq⟩ := (files_iff sound scattered after).1 hf
  obtain ⟨s, h⟩ := exists_scope_at sound scattered after hs (has.enters sound) ne
  have dir : f.dir = source.below cs := by rw [eq]; rfl
  have enough : cs.length ≤ t.scopes.length + 1 :=
    (h.length_le sound scattered after).trans (Nat.le_succ _)
  have stands : Stands t source cs name (t.resolve? f name) :=
    h.stands sound scattered after enough (by rw [dir, h.eq, namespaceIn_dir])
  have around {ds : List String} (ne : ds ≠ []) (up : ds <+: cs) :
      ∃ s, At d root config.sourceDirs t s source ds := h.above sound scattered after up ne
  refine ⟨source, hs, cs, ne, dir, fun ds ne up => ?_, ?_⟩
  · obtain ⟨s', h'⟩ := around ne up
    exact h'.mem_namespaces
  generalize t.resolve? f name = r at stands ⊢
  cases stands with
  | @member ds m innermost preferred named =>
    refine ⟨fun _ => ⟨ds, innermost, m, preferred, named, rfl⟩,
      fun none_ => absurd innermost.has (none_ ds innermost.ne_nil innermost.up), fun x e => ?_⟩
    obtain rfl := Option.some.inj e
    obtain ⟨s', h'⟩ := around innermost.ne_nil innermost.up
    rw [← h'.eq, members_eq after.shaped h'.mem] at preferred
    exact target_of_mem_scopeMembers h'.mem preferred.1
  | outside none_ =>
    refine ⟨fun ⟨ds, ne, up, has⟩ => absurd has (none_ ds ne up), fun _ => ?_, fun x e => ?_⟩
    · exact ⟨fun below => if_pos (top.2 below), fun other => if_neg fun mem => other (top.1 mem)⟩
    · by_cases mem : name ∈ t.topLevel
      · rw [if_pos mem] at e
        obtain rfl := Option.some.inj e
        obtain ⟨source', -, c, mem, named⟩ := top.1 mem
        exact .inr ⟨_, mem, named⟩
      · simp [if_neg mem] at e

set_option maxRecDepth 100000 in
/-- In a file of a sub-namespace a name stands for a leaf of the namespace around it. -/
theorem resolve_lexical_roomDisk :
    let t := sampleTree roomDisk roomConfig
    roomDisk.Sound ∧ Disjoint roomDisk ⟨"/p"⟩ roomConfig.sourceDirs ∧
      scan roomDisk ⟨"/p"⟩ roomConfig = .ok t ∧
      ∃ f ∈ t.files, f.virtualPath = ⟨"lib/foo/bar/foo__bar__c.ml"⟩ ∧
        t.resolve? f "A" = some "Foo__a" ∧
        ∃ source cs ds, f.dir = source.below cs ∧ Innermost t source cs "A" ds ∧
          ∃ m, Preferred (t.members (namespaceIn source ds)) m ∧ m.target = "Foo__a" := by
  intro t
  obtain ⟨sound, disjoint, accepted⟩ := accepted_roomDisk
  obtain ⟨f, hf, path, leaf⟩ : ∃ f ∈ t.files, f.virtualPath = ⟨"lib/foo/bar/foo__bar__c.ml"⟩ ∧
      t.resolve? f "A" = some "Foo__a" := by
    decide +kernel
  obtain ⟨source, -, cs, -, dir, -, inside, outside, -⟩ :=
    resolve_lexical sound disjoint accepted hf "A"
  refine ⟨sound, disjoint, accepted, f, hf, path, leaf, source, cs, ?_⟩
  by_cases has : ∃ ds, ds ≠ [] ∧ ds <+: cs ∧ HasMember t source ds "A"
  · obtain ⟨ds, innermost, m, preferred, -, target⟩ := inside has
    exact ⟨ds, dir, innermost, m, preferred, Option.some.inj (target.symm.trans leaf)⟩
  · -- outside of all of them the name would stand for itself
    obtain ⟨itself, nothing⟩ := outside fun ds ne up here => has ⟨ds, ne, up, here⟩
    by_cases top : IsTop t roomConfig.sourceDirs "A"
    · exact absurd ((itself top).symm.trans leaf) (by decide)
    · exact absurd ((nothing top).symm.trans leaf) (by decide)

/-! ### Names that stand for something -/

/-- Whether a name is the module name of a component. -/
def Short (name : String) : Prop := ∃ c, isComponent c = true ∧ name = moduleName c

/-- Whether a name is the module name of several components. -/
def Long (name : String) : Prop :=
  ∃ cs, 1 < cs.length ∧ (∀ c ∈ cs, isComponent c = true) ∧ name = moduleName (flatName cs)

/-- No name is both. -/
theorem Long.not_short (h : Long name) : ¬ Short name := by
  rintro ⟨c, valid, rfl⟩
  obtain ⟨cs, long, all, same⟩ := h
  obtain ⟨first, rest, rfl⟩ := List.exists_cons_of_length_pos (Nat.zero_lt_of_lt long)
  rw [← flatName_singleton c] at same
  obtain ⟨-, rfl⟩ := eq_of_moduleName_flatName (by simpa using valid) all same
  simp at long

/-- The module name of components is that of a component, or of several. -/
theorem short_or_long (ne : cs ≠ []) (all : ∀ c ∈ cs, isComponent c = true) :
    (∃ c, cs = [c]) ∨ Long (moduleName (flatName cs)) := by
  by_cases long : 1 < cs.length
  · exact .inr ⟨cs, long, all, rfl⟩
  · have positive := List.length_pos_of_ne_nil ne
    exact .inl (List.length_eq_one_iff.1 (by omega))

section Any

variable {vs : List Visit} (after : After sources vs t)

include after

/-- A member has the module name of a component, and stands for that or for several. -/
theorem findMember?_cases (hs : s ∈ t.scopes) (found : t.findMember? s name = some x) :
    Short name ∧ (x = name ∨ Long x) := by
  rcases Option.or_eq_some_iff.1 found with leaf | ⟨-, child⟩
  · obtain ⟨l, here, rfl⟩ := Option.map_eq_some_iff.1 leaf
    have mem := List.mem_of_find?_eq_some here
    have same : moduleName l.stem = name := by simpa using List.find?_some here
    obtain ⟨ne, valid, named, -⟩ := after.leaf_named hs mem
    have long := List.length_pos_of_ne_nil ne
    exact ⟨⟨l.stem, valid _ (by simp), same.symm⟩,
      .inr ⟨_, by simpa using long, valid, named⟩⟩
  · obtain ⟨c, here, rfl⟩ := Option.map_eq_some_iff.1 child
    obtain ⟨q, -, found⟩ := List.mem_filterMap.1 (List.mem_of_find?_eq_some here)
    unfold scopeAt? at found
    have mem := List.mem_of_find?_eq_some found
    obtain ⟨source, -, lies⟩ := after.shaped.below c.ns (List.mem_map_of_mem mem)
    have same : c.shortName? = some name := by simpa using List.find?_some here
    obtain ⟨last, ends, rfl⟩ := Option.map_eq_some_iff.1 same
    refine ⟨⟨last, lies.valid last (List.mem_of_getLast? ends), rfl⟩, ?_⟩
    rw [lies.moduleName_eq, lies.flatName_eq]
    refine (short_or_long lies.ne_nil lies.valid).imp ?_ id
    rintro ⟨c', e⟩
    obtain rfl : c' = last := by simpa [e] using ends
    rw [e, flatName_singleton]

variable (top : ∀ name ∈ t.topLevel, Short name)

include top

/-- A name that stands for something is the module name of a component, and stands for that or for
several. -/
theorem resolveFrom?_cases (found : t.resolveFrom? name n p = some x) :
    Short name ∧ (x = name ∨ Long x) := by
  induction n generalizing p with
  | zero => simp [resolveFrom?] at found
  | succ n ih =>
    unfold resolveFrom? at found
    split at found
    case h_1 => simp at found
    case h_2 s here =>
      unfold scopeAt? at here
      split at found
      case h_1 target member =>
        obtain rfl := Option.some.inj found
        exact findMember?_cases after (List.mem_of_find?_eq_some here) member
      case h_2 =>
        split at found
        case h_1 => exact ih found
        case h_2 =>
          split at found
          case isTrue mem =>
            obtain rfl := Option.some.inj found
            exact ⟨top name mem, .inl rfl⟩
          case isFalse => simp at found

/-- What a name stands for stands for itself, if for anything. -/
theorem getD_resolve?_getD (f : NamespacedFile) (name : String) :
    (t.resolve? f ((t.resolve? f name).getD name)).getD ((t.resolve? f name).getD name) =
      (t.resolve? f name).getD name := by
  cases found : t.resolve? f name with
  | none => rw [Option.getD_none, found, Option.getD_none]
  | some x =>
    rw [Option.getD_some]
    rcases (resolveFrom?_cases after top found).2 with rfl | long
    · rw [found, Option.getD_some]
    · cases again : t.resolve? f x with
      | none => rfl
      | some y => exact absurd (resolveFrom?_cases after top again).1 long.not_short

end Any

/-- The names at the top are module names of components. -/
theorem short_of_mem_topLevel (sound : d.Sound) (ok : scan d root config = .ok t)
    (mem : name ∈ t.topLevel) : Short name := by
  obtain ⟨v, hv, dir, short, rfl⟩ := (mem_topLevel sound ok).1 mem
  obtain ⟨c, names⟩ := List.length_eq_one_iff.1 short
  have visible := (itinerary_visits sound root config.sourceDirs).visible v hv
  rw [dir, names] at visible
  refine ⟨c, by simpa [isVisible] using visible, ?_⟩
  change moduleName (flatName v.names) = _
  rw [names, flatName_singleton]

/-- Resolving the dependencies of a file, and the names that come of it again, comes to the same as
resolving them once, however the source directories lie. -/
theorem resolve_resolve (sound : d.Sound) (ok : scan d root config = .ok t) (f : NamespacedFile)
    (line : RawLine) :
    ({ line with dependencies := (line.resolve t.metadata f).dependencies } : RawLine).resolve
      t.metadata f = line.resolve t.metadata f := by
  have again := getD_resolve?_getD (After.scan sound ok) (fun _ => short_of_mem_topLevel sound ok) f
  simp only [RawLine.resolve, List.map_map]
  refine congrArg _ (List.map_congr_left fun name _ => again name)

set_option maxRecDepth 100000 in
/-- A line resolved for a file that is below two source directories. -/
theorem resolve_resolve_roomDisk :
    let t := sampleTree roomDisk nestedConfig
    roomDisk.Sound ∧ scan roomDisk ⟨"/p"⟩ nestedConfig = .ok t ∧
      ∃ f ∈ t.files, (RawLine.resolve ⟨"c", ["Bar", "C", "List"]⟩ t.metadata f).dependencies =
          ["Bar", "Bar__c", "List"] ∧
        (RawLine.resolve ⟨"c", ["Bar", "Bar__c", "List"]⟩ t.metadata f).dependencies =
          ["Bar", "Bar__c", "List"] := by
  intro t
  obtain ⟨sound, -, -⟩ := accepted_roomDisk
  obtain ⟨accepted, f, hf, once⟩ :
      (scan roomDisk ⟨"/p"⟩ nestedConfig).toOption.isSome = true ∧
        ∃ f ∈ t.files, (RawLine.resolve ⟨"c", ["Bar", "C", "List"]⟩ t.metadata f).dependencies =
          ["Bar", "Bar__c", "List"] := by
    decide +kernel
  have accepted := scan_sampleTree accepted
  have again := resolve_resolve sound accepted f ⟨"c", ["Bar", "C", "List"]⟩
  rw [once] at again
  exact ⟨sound, accepted, f, hf, once, (congrArg ResolvedLine.dependencies again).trans once⟩

end Tree
end FlatModules
