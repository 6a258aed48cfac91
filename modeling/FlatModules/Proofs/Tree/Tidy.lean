import FlatModules.Proofs.Disk.Entries
import FlatModules.Proofs.Path.Names
import FlatModules.Proofs.Tree.Lookup
import Mathlib.Data.List.Pairwise

/-!
# Trees — what a scan finds

Where no source directory lies in another (`Apart`) a scan makes one namespace of each directory
that it finds and at most one record of each file, and each is entered where it belongs
(`Tidy.scan`): a namespace among the children of the one around it, a file in the leaf of its stem.
-/

namespace FlatModules

open Naming Path

/-- Whether no source directory is another or lies in it. -/
def Apart (sources : List Path) : Prop :=
  sources.Pairwise fun s t => ¬ s.names <+: t.names ∧ ¬ t.names <+: s.names

/-- A place in a source directory is in no other. -/
theorem Apart.eq {sources : List Path} (h : Apart sources) {s t : Path} (hs : s ∈ sources)
    (ht : t ∈ sources) {cs ds : List String} (e : s.names ++ cs = t.names ++ ds) :
    s = t ∧ cs = ds := by
  have : Std.Symm fun s t : Path => ¬ s.names <+: t.names ∧ ¬ t.names <+: s.names :=
    ⟨fun _ _ h => h.symm⟩
  have same : s = t := by
    by_contra ne
    obtain ⟨no, no'⟩ := List.Pairwise.forall h hs ht ne
    rcases List.prefix_or_prefix_of_prefix (List.prefix_append s.names cs)
      (e ▸ List.prefix_append t.names ds) with p | p
    · exact no p
    · exact no' p
  subst same
  exact ⟨rfl, List.append_cancel_left e⟩

theorem Apart.eq_of_parts {sources : List Path} (h : Apart sources) {s t : Path} (hs : s ∈ sources)
    (ht : t ∈ sources) {cs ds : List String}
    (e : s.parts ++ cs.map Part.name = t.parts ++ ds.map Part.name) : s = t ∧ cs = ds := by
  refine h.eq hs ht ?_
  have names (p : Path) (rest : List String) :
      (p.parts ++ rest.map Part.name).filterMap Part.step? = p.names ++ rest := by
    rw [List.filterMap_append, ← names_eq_filterMap]
    simp [Part.step?, Function.comp_def]
  rw [← names, e, names]

/-- A source file as a scan makes it, below its source directory. -/
structure NamespacedFile.LiesIn (f : NamespacedFile) (source : Path) (components : List String)
    (stem : String) : Prop where
  made : f.Made components stem
  dir_eq : f.dir = source.below components
  realPath_eq : f.realPath = source.below components / ⟨stem ++ "." ++ f.kind.extension⟩

/-- What holds of the leaves of a scope. -/
structure Scope.Neat (s : Scope) : Prop where
  ordered : s.leaves.Pairwise fun a b => compare a.stem b.stem = .lt
  named : ∀ l ∈ s.leaves, isComponent l.stem = true ∧
    l.virtualModule = moduleName (flatName (s.ns.components ++ [l.stem]))

namespace Tree

/-- The namespace of components below a source directory. -/
def namespaceIn (source : Path) (components : List String) : Namespace :=
  namespaceFor (source.below components) components

/-- Whether a scan finds an entry below a source directory, by its names below it. -/
def Found (d : Disk) (root source : Path) (names : List String) (entry : Entry) : Prop :=
  ∃ place, d.isDir (root / source) = true ∧ d.locate .target (root / source) = .ok place ∧
    (names, entry) ∈ d.below place ∧ isVisible names entry = true

/-- The claim that a namespace has on its module name. -/
def Owned (claims : List Claim) (ns : Namespace) : Prop :=
  ∃ c ∈ claims, c.module = ns.moduleName ∧ c.owner.parts = ns.dir.parts

/-- What holds of a tree that has been made of the entries in `Done`. -/
structure Tidy (sources : List Path) (Done : Path → List String → Entry → Prop) (t : Tree) :
    Prop where
  shaped : Shaped sources t
  namespace_iff : ∀ ns, ns ∈ t.namespaces ↔
    ∃ source components, Done source components .dir ∧ ns = namespaceIn source components
  owned : ∀ ns ∈ t.namespaces, Owned t.claims ns
  file : ∀ f ∈ t.files, ∃ source components stem entry, source ∈ sources ∧
    Done source (components ++ [stem ++ "." ++ f.kind.extension]) entry ∧ entry ≠ .dir ∧
    f.LiesIn source components stem ∧ namespaceIn source components ∈ t.namespaces
  neat : ∀ s ∈ t.scopes, s.Neat
  leaf_iff : ∀ s ∈ t.scopes, ∀ stem v, (∃ l ∈ s.leaves, l.stem = stem ∧ v ∈ l.files) ↔
    ∃ f ∈ t.files, f.dir = s.ns.dir ∧ f.Made s.ns.components stem ∧ v = f.virtualPath
  child_iff : ∀ s ∈ t.scopes, ∀ q, q ∈ s.children ↔
    ∃ c ∈ t.namespaces, c.parent = some s.ns.dir ∧ q = c.dir

/-- What entries a tree can be made of, one after the other. -/
structure Orderly (sources : List Path) (Done : Path → List String → Entry → Prop) : Prop where
  source : ∀ {s names entry}, Done s names entry → s ∈ sources
  ne_nil : ∀ {s names entry}, Done s names entry → names ≠ []
  isName : ∀ {s names entry}, Done s names entry → ∀ n ∈ names, IsName n
  visible : ∀ {s names entry}, Done s names entry → isVisible names entry = true
  closed : ∀ {s components last}, Done s (components ++ [last]) .dir → components ≠ [] →
    Done s components .dir

section Namespace

variable {sources : List Path} {source : Path} {components : List String}

theorem namespaceIn_lies (hne : components ≠ []) (h : ∀ c ∈ components, isComponent c = true) :
    (namespaceIn source components).LiesBelow source := ⟨hne, h, rfl⟩

@[simp] theorem namespaceIn_dir : (namespaceIn source components).dir = source.below components :=
  rfl

@[simp] theorem namespaceIn_components : (namespaceIn source components).components = components :=
  rfl

theorem eq_namespaceIn {ns : Namespace} (h : ns.LiesBelow source) :
    ns = namespaceIn source ns.components := h.eq

/-- Components below sources that are apart name one directory. -/
theorem namespaceIn_eq_of_parts (apart : Apart sources) {t : Path} {ds : List String}
    (hs : source ∈ sources) (ht : t ∈ sources) (hc : ∀ c ∈ components, IsName c)
    (hd : ∀ c ∈ ds, IsName c) (e : (source.below components).parts = (t.below ds).parts) :
    source = t ∧ components = ds := by
  rw [parts_below hc, parts_below hd] at e
  exact apart.eq_of_parts hs ht e

/-- The namespace around another, if there is one. -/
theorem namespaceIn_parent (h : ∀ c ∈ components, IsName c) :
    (namespaceIn source components).parent =
      if components.length > 1 then some (source.below components.dropLast) else none := by
  change (if components.length > 1 then (source.below components).parent? else none) = _
  by_cases long : components.length > 1
  · rw [if_pos long, if_pos long]
    obtain ⟨front, last, rfl⟩ := (List.eq_nil_or_concat' components).resolve_left
      (by rintro rfl; simp at long)
    obtain ⟨front, middle, rfl⟩ := (List.eq_nil_or_concat' front).resolve_left
      (by rintro rfl; simp at long)
    rw [List.dropLast_concat, below_append_singleton, below_append_singleton,
      parent?_div_div (h middle (by simp)) (h last (by simp))]
  · rw [if_neg long, if_neg long]

end Namespace

/-! ### One entry -/

/-- The entries in `Done`, and one more. -/
def Also (Done : Path → List String → Entry → Prop) (source : Path) (names : List String)
    (entry : Entry) : Path → List String → Entry → Prop :=
  fun s n e => Done s n e ∨ s = source ∧ n = names ∧ e = entry

variable {sources : List Path} {Done : Path → List String → Entry → Prop} {t t' : Tree}
  {source : Path} {names : List String} {entry : Entry}

theorem Orderly.isComponent (h : Orderly sources Done) {s : Path} {components : List String}
    (hd : Done s components .dir) : ∀ c ∈ components, isComponent c = true := by
  simpa [isVisible] using h.visible hd

/-- Claiming a name, it is held for its owner. -/
theorem claim_owner {module : String} {kind : MemberKind} {owner : Path}
    (h : t.claim module kind owner = .ok t') :
    ∃ c ∈ t'.claims, c.module = module ∧ c.owner.parts = owner.parts := by
  unfold claim at h
  split at h
  case h_1 =>
    obtain rfl := Except.ok.inj h
    exact ⟨_, List.mem_cons_self, rfl, rfl⟩
  case h_2 held e =>
    split at h
    case isTrue same =>
      obtain rfl := Except.ok.inj h
      exact ⟨held, List.mem_of_find?_eq_some e, by simpa using List.find?_some e,
        same_iff.1 same.2⟩
    case isFalse => simp at h

theorem Owned.mono {claims claims' : List Claim} (sub : claims ⊆ claims') {ns : Namespace}
    (h : Owned claims ns) : Owned claims' ns :=
  h.imp fun _ hc => ⟨sub hc.1, hc.2⟩

/-- What is entered where nothing has its key is entered beside the rest. -/
theorem mem_insertInOrder_iff {α : Type} {order : α → α → Ordering} {x y : α} {xs : List α}
    (fresh : ∀ z ∈ xs, order x z ≠ .eq) : y ∈ insertInOrder order x xs ↔ y = x ∨ y ∈ xs := by
  refine ⟨mem_of_mem_insertInOrder, ?_⟩
  rintro (rfl | hy)
  · exact mem_insertInOrder_self _ _ _
  · exact mem_insertInOrder_of_mem hy (fresh y hy)

namespace Tidy

/-- Where a scope is, it was found. -/
theorem scope_found (h : Tidy sources Done t) {s : Scope} (hs : s ∈ t.scopes) :
    ∃ s' components, Done s' components .dir ∧ s.ns = namespaceIn s' components :=
  (h.namespace_iff s.ns).1 (List.mem_map_of_mem hs)

/-- Directories of scopes are told apart as they are spelled. -/
theorem dir_eq_of_parts (h : Tidy sources Done t) (ord : Orderly sources Done)
    (apart : Apart sources) (hs : source ∈ sources) (valid : ∀ n ∈ names, IsName n) {s : Scope}
    (mem : s ∈ t.scopes) (e : s.ns.dir.parts = (source.below names).parts) :
    s.ns = namespaceIn source names := by
  obtain ⟨s', components, hd, same⟩ := h.scope_found mem
  rw [same, namespaceIn_dir] at e
  have comps := fun c hc => isName_of_isComponent (ord.isComponent hd c hc)
  obtain ⟨rfl, rfl⟩ := namespaceIn_eq_of_parts apart (ord.source hd) hs comps valid e
  exact same

/-- An entry that is no directory of its own makes no difference by itself. -/
theorem also (h : Tidy sources Done t) (ne : entry ≠ .dir) :
    Tidy sources (Also Done source names entry) t where
  shaped := h.shaped
  namespace_iff ns := by
    rw [h.namespace_iff]
    refine exists_congr fun s => exists_congr fun components => and_congr_left fun _ => ?_
    exact ⟨.inl, fun hd => hd.resolve_right fun e => ne e.2.2.symm⟩
  owned := h.owned
  file f hf := by
    obtain ⟨s, components, stem, e, hs, hd, rest⟩ := h.file f hf
    exact ⟨s, components, stem, e, hs, .inl hd, rest⟩
  neat := h.neat
  leaf_iff := h.leaf_iff
  child_iff := h.child_iff

/-- Claiming a name changes nothing else. -/
theorem claim (h : Tidy sources Done t) {module : String} {kind : MemberKind} {owner : Path}
    (ok : t.claim module kind owner = .ok t') : Tidy sources Done t' := by
  have shaped := (h.shaped.claim ok).1
  obtain ⟨claims, rfl, sub, -⟩ := claim_ok ok
  exact { h with
    shaped
    owned := fun ns hns => (h.owned ns hns).mono sub }

/-- A scope with one child more, if it is the one around a namespace. -/
def enlist (ns : Namespace) (s : Scope) : Scope :=
  if ns.parent = some s.ns.dir then { s with children := s.children ++ [ns.dir] } else s

@[simp] theorem enlist_ns (ns : Namespace) (s : Scope) : (enlist ns s).ns = s.ns := by
  unfold enlist
  split <;> rfl

@[simp] theorem enlist_leaves (ns : Namespace) (s : Scope) : (enlist ns s).leaves = s.leaves := by
  unfold enlist
  split <;> rfl

theorem mem_children_enlist {ns : Namespace} {s : Scope} {q : Path} :
    q ∈ (enlist ns s).children ↔ q ∈ s.children ∨ ns.parent = some s.ns.dir ∧ q = ns.dir := by
  unfold enlist
  by_cases e : ns.parent = some s.ns.dir
  · simp [e]
  · simp [e]

/-- What adding a namespace changes, where no scope is at its directory yet. -/
theorem of_addNamespace (new : ∀ s ∈ t.scopes, s.ns.dir.parts ≠ (source.below names).parts)
    (around : ∀ s ∈ t.scopes, ∀ above, (namespaceIn source names).parent = some above →
      s.ns.dir.parts = above.parts → s.ns.dir = above)
    (ok : t.addNamespace (source.below names) names = .ok t') :
    t'.files = t.files ∧ t.claims ⊆ t'.claims ∧ Owned t'.claims (namespaceIn source names) ∧
      ∀ s, s ∈ t'.scopes ↔
        s = ⟨namespaceIn source names, [], []⟩ ∨
          ∃ s₀ ∈ t.scopes, s = enlist (namespaceIn source names) s₀ := by
  simp only [Tree.addNamespace] at ok
  cases e : t.claim (namespaceFor (source.below names) names).moduleName .subNamespace
      (source.below names) with
  | error e' => simp [e, bind, Except.bind] at ok
  | ok t₁ =>
    have owner := claim_owner e
    obtain ⟨claims, rfl, sub, -⟩ := claim_ok e
    simp only [e, bind, Except.bind, pure, Except.pure, Except.ok.injEq] at ok
    subst ok
    cases some_ : (namespaceIn source names).parent with
    | none =>
      have none_ : (namespaceFor (source.below names) names).parent = none := some_
      simp only [none_, putScope]
      refine ⟨trivial, sub, owner, fun s => ?_⟩
      rw [mem_insertInOrder_iff fun z hz => fun e => new z hz (order_eq_iff.1 e).symm]
      simp [namespaceIn, enlist, none_]
    | some above =>
      have some' : (namespaceFor (source.below names) names).parent = some above := some_
      simp only [some', putScope, updateScope]
      refine ⟨trivial, sub, owner, fun s => ?_⟩
      rw [mem_insertInOrder_iff]
      · refine or_congr Iff.rfl ?_
        rw [List.mem_map]
        refine exists_congr fun s₀ => and_congr_right fun mem => ?_
        unfold enlist
        by_cases hit : s₀.ns.dir.same above = true
        · rw [if_pos hit, if_pos (by rw [some_, around s₀ mem above some_ (same_iff.1 hit)]), eq_comm]
          rfl
        · rw [if_neg hit, if_neg, eq_comm]
          rw [some_, Option.some.injEq]
          rintro rfl
          exact hit (same_self _)
      · rintro z hz e
        obtain ⟨s₀, mem, rfl⟩ := List.mem_map.1 hz
        have parts := (order_eq_iff.1 e).symm
        split at parts <;> exact new s₀ mem parts

/-- Adding the namespace of a directory whose enclosing one was found before it. -/
theorem addNamespace (h : Tidy sources Done t) (ord : Orderly sources Done) (apart : Apart sources)
    (hs : source ∈ sources) (hne : names ≠ []) (valid : ∀ n ∈ names, isComponent n = true)
    (fresh : ¬ Done source names .dir)
    (ok : t.addNamespace (belowRoot source names) names = .ok t') :
    Tidy sources (Also Done source names .dir) t' := by
  have isName := fun n hn => isName_of_isComponent (valid n hn)
  have shaped := h.shaped.addNamespace hs hne valid ok
  rw [belowRoot, div_intercalate hne isName] at ok
  have parent : (namespaceIn source names).parent = _ := namespaceIn_parent isName
  have eq_of_parts {s : Path} {components : List String} (hd : Done s components .dir)
      (e : (s.below components).parts = (source.below names).parts) : False := by
    have comps := fun c hc => isName_of_isComponent (ord.isComponent hd c hc)
    obtain ⟨rfl, rfl⟩ := namespaceIn_eq_of_parts apart (ord.source hd) hs comps isName e
    exact fresh hd
  have new (s : Scope) (mem : s ∈ t.scopes) :
      s.ns.dir.parts ≠ (source.below names).parts := by
    intro e
    obtain ⟨s', components, hd, same⟩ := h.scope_found mem
    rw [same, namespaceIn_dir] at e
    exact eq_of_parts hd e
  have around (s : Scope) (mem : s ∈ t.scopes) (above : Path)
      (some_ : (namespaceIn source names).parent = some above)
      (e : s.ns.dir.parts = above.parts) : s.ns.dir = above := by
    rw [parent] at some_
    split at some_
    case isFalse => simp at some_
    case isTrue =>
      obtain rfl := Option.some.inj some_
      have same := h.dir_eq_of_parts ord apart hs
        (fun n hn => isName n (List.dropLast_subset _ hn)) mem e
      rw [same, namespaceIn_dir]
  obtain ⟨files, claims, owned, scopes⟩ := of_addNamespace new around ok
  have namespaces (ns : Namespace) :
      ns ∈ t'.namespaces ↔ ns = namespaceIn source names ∨ ns ∈ t.namespaces := by
    simp only [Tree.namespaces, List.mem_map, scopes]
    constructor
    · rintro ⟨s, rfl | ⟨s₀, mem, rfl⟩, rfl⟩
      · exact .inl rfl
      · exact .inr ⟨s₀, mem, (enlist_ns _ _).symm⟩
    · rintro (rfl | ⟨s₀, mem, rfl⟩)
      · exact ⟨_, .inl rfl, rfl⟩
      · exact ⟨_, .inr ⟨s₀, mem, rfl⟩, enlist_ns _ _⟩
  -- nothing is entered in a namespace before the namespace itself
  have no_file (f : NamespacedFile) (hf : f ∈ t.files) : f.dir ≠ source.below names := by
    intro e
    obtain ⟨s, components, stem, e', -, -, -, lies, mem⟩ := h.file f hf
    obtain ⟨s₀, mem₀, same⟩ := List.mem_map.1 mem
    refine new s₀ mem₀ ?_
    rw [same, ← e, lies.dir_eq, namespaceIn_dir]
  have no_child (c : Namespace) (hc : c ∈ t.namespaces) : c.parent ≠ some (source.below names) := by
    intro e
    obtain ⟨s, components, hd, rfl⟩ := (h.namespace_iff c).1 hc
    have comps := fun c hc => isName_of_isComponent (ord.isComponent hd c hc)
    rw [namespaceIn_parent comps] at e
    split at e
    case isFalse => simp at e
    case isTrue long =>
      obtain ⟨front, last, rfl⟩ := (List.eq_nil_or_concat' components).resolve_left
        (by rintro rfl; simp at long)
      rw [List.dropLast_concat, Option.some.injEq] at e
      refine eq_of_parts (ord.closed hd ?_) (by rw [e])
      rintro rfl
      simp at long
  have not_self : (namespaceIn source names).parent ≠ some (source.below names) := by
    intro e
    rw [parent] at e
    split at e
    case isFalse => simp at e
    case isTrue =>
      have := congrArg Path.parts (Option.some.inj e)
      rw [parts_below isName, parts_below fun n hn => isName n (List.dropLast_subset _ hn)] at this
      have := congrArg List.length this
      have := List.length_pos_of_ne_nil hne
      simp at *
      omega
  refine {
    shaped
    namespace_iff := fun ns => ?_
    owned := fun ns hns => ?_
    file := fun f hf => ?_
    neat := fun s hs => ?_
    leaf_iff := fun s hs stem v => ?_
    child_iff := fun s hs q => ?_ }
  · rw [namespaces, h.namespace_iff]
    constructor
    · rintro (rfl | ⟨s, components, hd, e⟩)
      · exact ⟨source, names, .inr ⟨rfl, rfl, rfl⟩, rfl⟩
      · exact ⟨s, components, .inl hd, e⟩
    · rintro ⟨s, components, hd | ⟨rfl, rfl, -⟩, e⟩
      · exact .inr ⟨s, components, hd, e⟩
      · exact .inl e
  · rcases (namespaces ns).1 hns with rfl | hns
    · exact owned
    · exact (h.owned ns hns).mono claims
  · rw [files] at hf
    obtain ⟨s, components, stem, e, hs', hd, ne, lies, mem⟩ := h.file f hf
    exact ⟨s, components, stem, e, hs', .inl hd, ne, lies, (namespaces _).2 (.inr mem)⟩
  · rcases (scopes s).1 hs with rfl | ⟨s₀, mem, rfl⟩
    · exact ⟨.nil, by simp⟩
    · have neat := h.neat s₀ mem
      exact ⟨by simpa using neat.ordered, by simpa using neat.named⟩
  · rw [files]
    rcases (scopes s).1 hs with rfl | ⟨s₀, mem, rfl⟩
    · simp only [List.not_mem_nil, false_and, exists_false, false_iff]
      rintro ⟨f, hf, e, -⟩
      exact no_file f hf e
    · simpa using h.leaf_iff s₀ mem stem v
  · rcases (scopes s).1 hs with rfl | ⟨s₀, mem, rfl⟩
    · simp only [List.not_mem_nil, false_iff]
      rintro ⟨c, hc, e, -⟩
      rcases (namespaces c).1 hc with rfl | hc
      · exact not_self e
      · exact no_child c hc e
    · rw [mem_children_enlist, h.child_iff s₀ mem, enlist_ns]
      constructor
      · rintro (⟨c, hc, e, rfl⟩ | ⟨e, rfl⟩)
        · exact ⟨c, (namespaces c).2 (.inr hc), e, rfl⟩
        · exact ⟨_, (namespaces _).2 (.inl rfl), e, rfl⟩
      · rintro ⟨c, hc, e, rfl⟩
        rcases (namespaces c).1 hc with rfl | hc
        · exact .inr ⟨e, rfl⟩
        · exact .inl ⟨c, hc, e, rfl⟩

/-- Where the file of a stem is found again: in the leaf of its stem, old or new. -/
theorem mem_addToLeaf {new : Leaf} {leaves : List Leaf} {stem : String} {v : Path} :
    (∃ l ∈ addToLeaf new leaves, l.stem = stem ∧ v ∈ l.files) ↔
      (∃ l ∈ leaves, l.stem = stem ∧ v ∈ l.files) ∨ new.stem = stem ∧ v ∈ new.files := by
  unfold addToLeaf
  split
  case h_1 held found =>
    have held_mem := List.mem_of_find?_eq_some found
    have held_stem : held.stem = new.stem := by simpa using List.find?_some found
    constructor
    · rintro ⟨l, hl, rfl, hv⟩
      obtain ⟨l₀, mem, rfl⟩ := List.mem_map.1 hl
      by_cases same : l₀.stem = new.stem
      · rw [if_pos same] at hv ⊢
        rcases List.mem_append.1 hv with hv | hv
        · exact .inl ⟨l₀, mem, rfl, hv⟩
        · exact .inr ⟨same.symm, hv⟩
      · rw [if_neg same] at hv ⊢
        exact .inl ⟨l₀, mem, rfl, hv⟩
    · rintro (⟨l, mem, rfl, hv⟩ | ⟨rfl, hv⟩)
      · refine ⟨_, List.mem_map_of_mem mem, ?_, ?_⟩
        · split <;> rfl
        · split
          · exact List.mem_append_left _ hv
          · exact hv
      · refine ⟨_, List.mem_map_of_mem held_mem, ?_, ?_⟩
        · rw [if_pos held_stem]
          exact held_stem
        · rw [if_pos held_stem]
          exact List.mem_append_right _ hv
  case h_2 missing =>
    have fresh : ∀ z ∈ leaves, compare new.stem z.stem ≠ .eq := by
      intro z hz e
      have none_ := List.find?_eq_none.1 missing z hz
      exact none_ (by simpa using (Std.LawfulEqOrd.eq_of_compare e).symm)
    constructor
    · rintro ⟨l, hl, rfl, hv⟩
      rcases (mem_insertInOrder_iff fresh).1 hl with rfl | hl
      · exact .inr ⟨rfl, hv⟩
      · exact .inl ⟨l, hl, rfl, hv⟩
    · rintro (⟨l, mem, rfl, hv⟩ | ⟨rfl, hv⟩)
      · exact ⟨l, (mem_insertInOrder_iff fresh).2 (.inr mem), rfl, hv⟩
      · exact ⟨new, (mem_insertInOrder_iff fresh).2 (.inl rfl), rfl, hv⟩

instance : Std.TransCmp fun a b : Leaf => compare a.stem b.stem :=
  inferInstanceAs (Std.TransCmp (compareOn Leaf.stem))

/-- A file of a well-named stem is entered neatly. -/
theorem neat_addToLeaf {s : Scope} (h : s.Neat) {new : Leaf} (valid : isComponent new.stem = true)
    (named : new.virtualModule = moduleName (flatName (s.ns.components ++ [new.stem]))) :
    ({ s with leaves := addToLeaf new s.leaves } : Scope).Neat := by
  unfold addToLeaf
  split
  case h_1 held found =>
    constructor
    · rw [List.pairwise_map]
      refine h.ordered.imp fun {a b} lt => ?_
      have stem (l : Leaf) : (if l.stem = new.stem then { l with files := l.files ++ new.files }
          else l : Leaf).stem = l.stem := by split <;> rfl
      rw [stem, stem]
      exact lt
    · intro l hl
      obtain ⟨l₀, mem, rfl⟩ := List.mem_map.1 hl
      split <;> exact h.named l₀ mem
  case h_2 missing =>
    refine ⟨pairwise_insertInOrder h.ordered, fun l hl => ?_⟩
    rcases mem_of_mem_insertInOrder hl with rfl | hl
    · exact ⟨valid, named⟩
    · exact h.named l hl

/-- Files that are seen at one place are of one stem and kind. -/
theorem eq_of_virtualPath {f g : NamespacedFile} {components : List String} {stem stem' : String}
    (hf : f.Made components stem) (hg : g.Made components stem') (e : f.dir = g.dir)
    (same : f.virtualPath.parts = g.virtualPath.parts) : stem = stem' ∧ f.kind = g.kind := by
  rw [hf.virtualPath_eq, hg.virtualPath_eq, parts_div hf.isName, parts_div hg.isName, e] at same
  have names := Part.name.inj (List.singleton_inj.1 (List.append_cancel_left same))
  obtain ⟨flat, ext⟩ := hf.isStem.inj hg.isStem names
  have comps := flatName_inj (by simp) (by simp) hf.valid hg.valid flat
  refine ⟨List.singleton_inj.1 (List.append_cancel_left comps), ?_⟩
  cases hk : f.kind <;> cases hk' : g.kind <;> simp [hk, hk', SourceKind.extension] at ext <;> rfl

/-- Adding a source file where no record of it is yet. -/
theorem addSource (h : Tidy sources Done t) (ord : Orderly sources Done) (apart : Apart sources)
    (hs : source ∈ sources) (hne : names ≠ []) (valid : ∀ n ∈ names, IsName n) (ne : entry ≠ .dir)
    (fresh : ∀ e, ¬ Done source names e) {kind : SourceKind}
    (hk : SourceKind.ofPath? (belowRoot source names) = some kind)
    (ok : t.addSource (belowRoot source names) kind = .ok t') :
    Tidy sources (Also Done source names entry) t' := by
  obtain ⟨components, file, rfl⟩ := (List.eq_nil_or_concat' names).resolve_left hne
  have comps : ∀ c ∈ components, IsName c := fun c hc => valid c (by simp [hc])
  have file_name := valid file (by simp)
  have shaped := h.shaped.addSource hk ok
  rw [belowRoot, div_intercalate hne valid, below_append_singleton] at ok hk
  unfold Tree.addSource at ok
  split at ok
  case h_1 =>
    obtain rfl := Except.ok.inj ok
    exact h.also ne
  case h_2 stem hstem =>
    by_cases component : isComponent stem = true
    case neg =>
      simp only [component, Bool.not_false, ↓reduceIte] at ok
      obtain rfl := Except.ok.inj ok
      exact h.also ne
    simp only [component, Bool.not_true, Bool.false_eq_true, ↓reduceIte] at ok
    split at ok
    case h_1 => exact (h.claim ok).also ne
    case h_2 s found =>
      unfold scopeAt? at found
      have mem := List.mem_of_find?_eq_some found
      have parts := List.find?_some found
      rw [same_iff] at parts
      obtain ⟨above, above_eq, above_parts⟩ := parent?_div (p := source.below components) file_name
      rw [above_eq, Option.getD_some] at ok parts
      -- a scope is at the directory, so that it is no source directory
      have same := h.dir_eq_of_parts ord apart hs comps mem (parts.trans above_parts)
      have comps_ne : components ≠ [] := by
        obtain ⟨s', cs, hd, same'⟩ := h.scope_found mem
        have cs_eq : components = cs := congrArg Namespace.components (same.symm.trans same')
        rw [cs_eq]
        exact ord.ne_nil hd
      obtain rfl : above = source.below components := by
        obtain ⟨front, last, rfl⟩ := (List.eq_nil_or_concat' components).resolve_left comps_ne
        rw [below_append_singleton, parent?_div_div (comps last (by simp)) file_name] at above_eq
        rw [below_append_singleton]
        exact (Option.some.inj above_eq).symm
      obtain ⟨s', -, lies⟩ := h.shaped.below s.ns (List.mem_map_of_mem mem)
      have made := made_fileFor lies hk hstem component (source.below components)
      rw [same, namespaceIn_components] at made
      rw [same] at ok
      have file_eq : file = stem ++ "." ++ kind.extension := by
        have name := made.fileName?_eq
        rw [fileFor_realPath, fileName?_div file_name, Option.some.injEq] at name
        exact name
      have lies_in : (fileFor (namespaceIn source components) (source.below components)
          (source.below components / ⟨file⟩) stem kind).LiesIn source components stem := by
        refine ⟨made, rfl, ?_⟩
        rw [fileFor_realPath, fileFor_kind, ← file_eq]
      generalize record :
        fileFor (namespaceIn source components) (source.below components)
          (source.below components / ⟨file⟩) stem kind = f at ok made lies_in
      have f_kind : f.kind = kind := by rw [← record]; rfl
      cases e : t.claim f.virtualModule .leafModule
          ((source.below components / ⟨file⟩).withExtension "") with
      | error e' => simp [e, bind, Except.bind] at ok
      | ok t₁ =>
        obtain ⟨claims, rfl, sub, -⟩ := claim_ok e
        simp only [e, bind, Except.bind, pure, Except.pure, Except.ok.injEq] at ok
        have files (g : NamespacedFile) : g ∈ t'.files ↔ g = f ∨ g ∈ t.files := by
          subst ok
          simp only [putFile, updateScope]
          refine mem_insertInOrder_iff fun g hg e => ?_
          obtain ⟨s₁, cs, stem₁, e₁, hs₁, hd, -, lies₁, -⟩ := h.file g hg
          have parts := order_eq_iff.1 e
          have dirs : (source.below components).parts = (s₁.below cs).parts := by
            rw [lies_in.made.virtualPath_eq, lies₁.made.virtualPath_eq,
              parts_div lies_in.made.isName, parts_div lies₁.made.isName, lies_in.dir_eq,
              lies₁.dir_eq] at parts
            exact List.append_inj_left' parts rfl
          have cs_name : ∀ c ∈ cs, IsName c := fun c hc =>
            isName_of_isComponent (lies₁.made.valid c (by simp [hc]))
          obtain ⟨rfl, rfl⟩ := namespaceIn_eq_of_parts apart hs hs₁ comps cs_name dirs
          obtain ⟨rfl, kinds⟩ := eq_of_virtualPath lies_in.made lies₁.made
            (lies_in.dir_eq.trans lies₁.dir_eq.symm) parts
          refine fresh e₁ ?_
          rw [file_eq, ← f_kind, kinds]
          exact hd
        have at_dir (s₀ : Scope) (mem₀ : s₀ ∈ t.scopes) :
            s₀.ns.dir.same (source.below components) = true ↔
              s₀.ns = namespaceIn source components := by
          rw [same_iff]
          exact ⟨h.dir_eq_of_parts ord apart hs comps mem₀, fun e => by rw [e, namespaceIn_dir]⟩
        obtain ⟨leaf, leaf_stem, leaf_module, leaf_files, ok⟩ : ∃ leaf : Leaf, leaf.stem = stem ∧
            leaf.virtualModule = f.virtualModule ∧ leaf.files = [f.virtualPath] ∧
            (({ t with claims } : Tree).updateScope (source.below components) fun s =>
              { s with leaves := addToLeaf leaf s.leaves }).putFile f = t' :=
          ⟨_, rfl, rfl, rfl, ok⟩
        have scopes (s₁ : Scope) : s₁ ∈ t'.scopes ↔ ∃ s₀ ∈ t.scopes,
            (s₀.ns = namespaceIn source components ∧
                s₁ = { s₀ with leaves := addToLeaf leaf s₀.leaves }) ∨
              (s₀.ns ≠ namespaceIn source components ∧ s₁ = s₀) := by
          subst ok
          simp only [putFile, updateScope, List.mem_map]
          refine exists_congr fun s₀ => and_congr_right fun mem₀ => ?_
          have hit := at_dir s₀ mem₀
          by_cases here : s₀.ns.dir.same (source.below components) = true
          · simp [hit.1 here, eq_comm]
          · simp [here, mt hit.2 here, eq_comm]
        have namespaces : t'.namespaces = t.namespaces := by
          subst ok
          exact namespaces_updateScope { t with claims } _ fun _ => rfl
        have claimed : t'.claims = claims := by
          subst ok
          rfl
        have named : leaf.virtualModule = moduleName (flatName (components ++ [leaf.stem])) := by
          rw [leaf_module, leaf_stem]
          exact made.virtualModule_eq
        have alone {s₀ : Scope} (here : s₀.ns = namespaceIn source components) {stem' : String}
            (made' : f.Made s₀.ns.components stem') : stem' = stem := by
          rw [here, namespaceIn_components] at made'
          exact (eq_of_virtualPath made' made rfl rfl).1
        refine {
          shaped
          namespace_iff := fun ns => ?_
          owned := fun ns hns => ?_
          file := fun g hg => ?_
          neat := fun s₁ hs₁ => ?_
          leaf_iff := fun s₁ hs₁ stem' v => ?_
          child_iff := fun s₁ hs₁ q => ?_ }
        · rw [namespaces]
          exact (h.also ne).namespace_iff ns
        · rw [claimed]
          exact (h.owned ns (namespaces ▸ hns)).mono sub
        · rw [namespaces]
          rcases (files g).1 hg with rfl | hg
          · refine ⟨source, components, stem, entry, hs, .inr ⟨rfl, ?_, rfl⟩, ne, lies_in, ?_⟩
            · rw [file_eq, f_kind]
            · rw [← same]
              exact List.mem_map_of_mem mem
          · obtain ⟨s₂, cs, stem₂, e₂, hs₂, hd, rest⟩ := h.file g hg
            exact ⟨s₂, cs, stem₂, e₂, hs₂, .inl hd, rest⟩
        · obtain ⟨s₀, mem₀, ⟨here, rfl⟩ | ⟨-, rfl⟩⟩ := (scopes s₁).1 hs₁
          · refine neat_addToLeaf (h.neat s₀ mem₀) (leaf_stem ▸ component) ?_
            rw [here, namespaceIn_components]
            exact named
          · exact h.neat s₁ mem₀
        · obtain ⟨s₀, mem₀, ⟨here, rfl⟩ | ⟨there, rfl⟩⟩ := (scopes s₁).1 hs₁
          · rw [mem_addToLeaf, h.leaf_iff s₀ mem₀, leaf_stem, leaf_files, List.mem_singleton]
            constructor
            · rintro (⟨g, hg, rest⟩ | ⟨rfl, rfl⟩)
              · exact ⟨g, (files g).2 (.inr hg), rest⟩
              · refine ⟨f, (files f).2 (.inl rfl), ?_, ?_, rfl⟩
                · rw [here, namespaceIn_dir, lies_in.dir_eq]
                · rw [here, namespaceIn_components]
                  exact made
            · rintro ⟨g, hg, e, made', rfl⟩
              rcases (files g).1 hg with rfl | hg
              · exact .inr ⟨(alone here made').symm, rfl⟩
              · exact .inl ⟨g, hg, e, made', rfl⟩
          · rw [h.leaf_iff s₁ mem₀]
            refine exists_congr fun g => ?_
            rw [files]
            refine and_congr_left fun entered => ⟨.inr, ?_⟩
            rintro (rfl | hg)
            · refine absurd (h.dir_eq_of_parts ord apart hs comps mem₀ ?_) there
              rw [← entered.1, lies_in.dir_eq]
            · exact hg
        · rw [namespaces]
          obtain ⟨s₀, mem₀, ⟨here, rfl⟩ | ⟨there, rfl⟩⟩ := (scopes s₁).1 hs₁
          · exact h.child_iff s₀ mem₀ q
          · exact h.child_iff s₁ mem₀ q

theorem addEntry (h : Tidy sources Done t) (ord : Orderly sources Done) (apart : Apart sources)
    (hs : source ∈ sources) (hne : names ≠ []) (isName : ∀ n ∈ names, IsName n)
    (visible : isVisible names entry = true) (fresh : ∀ e, ¬ Done source names e)
    (ok : addEntry source t (names, entry) = .ok t') :
    Tidy sources (Also Done source names entry) t' := by
  rcases addEntry_ok ok with ⟨rfl, ok⟩ | ⟨ne, ⟨kind, hk, ok⟩ | ⟨-, rfl⟩⟩
  · have valid : ∀ n ∈ names, isComponent n = true := by simpa [isVisible] using visible
    exact h.addNamespace ord apart hs hne valid (fresh .dir) ok
  · exact h.addSource ord apart hs hne isName ne fresh hk ok
  · exact h.also ne

theorem start (executables : List ExecutableConfig) :
    Tidy sources (fun _ _ _ => False) { executables } := by
  constructor <;> simp [Tree.namespaces, Shaped.start]

theorem addLibrary (h : Tidy sources Done t) {library : Path} (ok : t.addLibrary library = .ok t') :
    Tidy sources Done t' := by
  have shaped := h.shaped.addLibrary ok
  unfold Tree.addLibrary at ok
  split at ok
  · obtain rfl := Except.ok.inj ok
    exact { h with shaped }
  · simp at ok

end Tidy

/-! ### All entries -/

theorem compare_append_singleton (names : List String) (last : String) :
    compare (names ++ [last]) names = .gt := by
  induction names with
  | nil => rfl
  | cons n ns ih =>
    change List.compareLex compare (n :: (ns ++ [last])) (n :: ns) = .gt
    rw [List.compareLex_cons_cons, Std.ReflOrd.compare_self]
    exact ih

theorem nodup_below {d : Disk} (sound : d.Sound) (place : Place) :
    ((d.below place).map Prod.fst).Nodup := by
  have perm := (sortBy_perm (fun a b : List String × Entry => (compare a.1 b.1).isLE)
    (d.entries.filterMap fun x => (Disk.underneath? place x.1).map (·, x.2))).map Prod.fst
  refine perm.nodup_iff.2 ?_
  have whole : (d.entries.filterMap fun x =>
      (Disk.underneath? place x.1).map (·, x.2)).map Prod.fst =
      (d.entries.map Prod.fst).filterMap (Disk.underneath? place) := by
    rw [List.map_filterMap, List.filterMap_map]
    refine List.filterMap_congr fun x _ => ?_
    simp [Function.comp_def]
  rw [whole]
  refine sound.nodup.filterMap fun a a' b hb hb' => ?_
  have spell {a : Place} (h : Disk.underneath? place a = some b) : a = place ++ b := by
    unfold Disk.underneath? at h
    split at h
    case isFalse => simp at h
    case isTrue below =>
      obtain ⟨rest, rfl⟩ := List.isPrefixOf_iff_prefix.1 below.1
      simpa using h
  rw [spell hb, spell hb']

/-- Whether a listed entry may precede another. -/
def listedLe (a b : List String × Entry) : Bool := (compare a.1 b.1).isLE

theorem listedLe_total (a b : List String × Entry) :
    listedLe a b = true ∨ listedLe b a = true := by
  unfold listedLe
  rw [Std.OrientedOrd.eq_swap (a := b.1)]
  cases compare a.1 b.1 <;> simp

theorem listedLe_trans (a b c : List String × Entry) (h : listedLe a b = true)
    (h' : listedLe b c = true) : listedLe a c = true :=
  Std.TransOrd.isLE_trans h h'

theorem pairwise_below (d : Disk) (place : Place) :
    (d.below place).Pairwise (listedLe · · = true) :=
  pairwise_sortBy listedLe_total listedLe_trans _

/-- A directory is listed before what is in it. -/
theorem mem_of_below_eq {d : Disk} (place : Place)
    {front back : List (List String × Entry)} {names : List String} {last : String} {e : Entry}
    (split : (d.below place).filter (fun x => isVisible x.1 x.2) =
      front ++ (names ++ [last], e) :: back) {x : List String × Entry} (hx : x.1 = names)
    (mem : x ∈ (d.below place).filter fun x => isVisible x.1 x.2) : x ∈ front := by
  have sorted := (pairwise_below d place).filter fun x => isVisible x.1 x.2
  rw [split] at sorted mem
  rcases List.mem_append.1 mem with mem | mem
  · exact mem
  · exfalso
    rcases List.mem_cons.1 mem with rfl | mem
    · have := congrArg List.length hx
      simp at this
    · have later := (List.pairwise_cons.1 (List.pairwise_append.1 sorted).2.1).1 x mem
      rw [listedLe, hx, compare_append_singleton] at later
      simp at later

/-- A list of steps that succeed is followed step by step, with what was done before each. -/
theorem foldlM_ok_prefix {α β ε : Type} {f : α → β → Except ε α} {P : List β → α → Prop}
    {xs : List β}
    (step : ∀ front x back a a', xs = front ++ x :: back → P front a → f a x = .ok a' →
      P (front ++ [x]) a')
    {a a' : α} (start : P [] a) (h : xs.foldlM f a = .ok a') : P xs a' := by
  have rest : ∀ (back front : List β) (a : α), xs = front ++ back → P front a →
      back.foldlM f a = .ok a' → P xs a' := by
    intro back
    induction back with
    | nil =>
      intro front a e hp h
      obtain rfl := Except.ok.inj h
      rw [List.append_nil] at e
      exact e ▸ hp
    | cons x back ih =>
      intro front a e hp h
      rw [List.foldlM_cons] at h
      cases ok : f a x with
      | error e' => simp [ok, bind, Except.bind] at h
      | ok b =>
        rw [ok] at h
        exact ih (front ++ [x]) b (by simp [e]) (step front x back a b e hp ok) h
  exact rest xs [] a rfl start h

/-- What is found below the source directories of a list. -/
def FoundIn (d : Disk) (root : Path) (listed : List Path) (source : Path) (names : List String)
    (entry : Entry) : Prop :=
  source ∈ listed ∧ Found d root source names entry

section Scan

variable {d : Disk} {root : Path}

theorem found_iff {place : Place} (dir : d.isDir (root / source) = true)
    (located : d.locate .target (root / source) = .ok place) :
    Found d root source names entry ↔
      (names, entry) ∈ (d.below place).filter fun x => isVisible x.1 x.2 := by
  rw [List.mem_filter]
  constructor
  · rintro ⟨place', -, located', mem, visible⟩
    rw [located] at located'
    obtain rfl := Except.ok.inj located'
    exact ⟨mem, visible⟩
  · rintro ⟨mem, visible⟩
    exact ⟨place, dir, located, mem, visible⟩

theorem Found.ne_nil (h : Found d root source names entry) : names ≠ [] := by
  obtain ⟨place, -, -, mem, -⟩ := h
  exact (mem_below.1 mem).1

theorem Found.visible (h : Found d root source names entry) : isVisible names entry = true := by
  obtain ⟨place, -, -, -, visible⟩ := h
  exact visible

theorem Found.isName (sound : d.Sound) (h : Found d root source names entry) :
    ∀ n ∈ names, IsName n := by
  obtain ⟨place, -, -, mem, -⟩ := h
  exact fun n hn => (sound.named _ (mem_below.1 mem).2).2 n (by simp [hn])

/-- Around a directory that is found, directories are found. -/
theorem Found.closed (sound : d.Sound) {last : String}
    (h : Found d root source (names ++ [last]) .dir) (hne : names ≠ []) :
    Found d root source names .dir := by
  obtain ⟨place, dir, located, mem, visible⟩ := h
  have there := (mem_below.1 mem).2
  have above := sound.housed _ there
  rw [← List.append_assoc, List.dropLast_concat] at above
  refine ⟨place, dir, located, mem_below.2 ⟨hne, ?_⟩, ?_⟩
  · exact (sound.entryAt?_eq_some_iff (by simp [hne])).1 above
  · simp only [isVisible, List.all_append, Bool.and_eq_true] at visible ⊢
    exact visible.1

theorem orderly_foundIn (sound : d.Sound) {listed : List Path} (sub : listed ⊆ sources) :
    Orderly sources (FoundIn d root listed) where
  source h := sub h.1
  ne_nil h := h.2.ne_nil
  isName h := h.2.isName sound
  visible h := h.2.visible
  closed h hne := ⟨h.1, h.2.closed sound hne⟩

/-- Adding what is below one more source directory. -/
theorem Tidy.addSourceDir (sound : d.Sound) (apart : Apart sources) {listed : List Path}
    (sub : listed ⊆ sources) (hs : source ∈ sources) (new : source ∉ listed)
    (h : Tidy sources (FoundIn d root listed) t) (ok : t.addSourceDir d root source = .ok t') :
    Tidy sources (FoundIn d root (listed ++ [source])) t' := by
  dsimp only [Tree.addSourceDir] at ok
  have none_ (no : ∀ n e, ¬ Found d root source n e) (same : t = t') :
      Tidy sources (FoundIn d root (listed ++ [source])) t' := by
    have done : FoundIn d root (listed ++ [source]) = FoundIn d root listed := by
      funext s n e
      simp only [FoundIn, List.mem_append, List.mem_singleton, eq_iff_iff]
      exact ⟨fun ⟨hs, hf⟩ => ⟨hs.resolve_right fun e' => no n e (e' ▸ hf), hf⟩,
        fun ⟨hs, hf⟩ => ⟨.inl hs, hf⟩⟩
    rw [done, ← same]
    exact h
  cases dir : d.isDir (root / source) with
  | false =>
    refine none_ (fun n e => ?_) ?_
    · rintro ⟨place, dir', -⟩
      simp [dir] at dir'
    · simpa [dir] using ok
  | true =>
    cases located : d.locate .target (root / source) with
    | error e' =>
      refine none_ (fun n e => ?_) ?_
      · rintro ⟨place, -, located', -⟩
        simp [located] at located'
      · simpa [dir, located] using ok
    | ok place =>
      simp only [dir, located] at ok
      have found {n : List String} {e : Entry} : Found d root source n e ↔
          (n, e) ∈ (d.below place).filter fun x => isVisible x.1 x.2 := found_iff dir located
      have done : FoundIn d root (listed ++ [source]) = fun s n e => FoundIn d root listed s n e ∨
          s = source ∧ (n, e) ∈ (d.below place).filter fun x => isVisible x.1 x.2 := by
        funext s n e
        simp only [FoundIn, List.mem_append, List.mem_singleton, eq_iff_iff]
        constructor
        · rintro ⟨hs | rfl, hf⟩
          · exact .inl ⟨hs, hf⟩
          · exact .inr ⟨rfl, found.1 hf⟩
        · rintro (⟨hs, hf⟩ | ⟨rfl, hf⟩)
          · exact ⟨.inl hs, hf⟩
          · exact ⟨.inr rfl, found.2 hf⟩
      rw [done]
      refine foldlM_ok_prefix (P := fun front t => Tidy sources (fun s n e =>
        FoundIn d root listed s n e ∨ s = source ∧ (n, e) ∈ front) t) ?_ (by simpa using h) ok
      rintro front ⟨n, e⟩ back t₁ t₂ split h₁ ok₁
      have mem : (n, e) ∈ (d.below place).filter fun x => isVisible x.1 x.2 := by
        rw [split]
        simp
      have hf := found.2 mem
      have ord : Orderly sources fun s n e =>
          FoundIn d root listed s n e ∨ s = source ∧ (n, e) ∈ front := by
        have within {n : List String} {e : Entry} (hn : (n, e) ∈ front) :
            Found d root source n e := found.2 (by rw [split]; simp [hn])
        refine ⟨?_, ?_, ?_, ?_, ?_⟩
        · rintro s n e (⟨hs', -⟩ | ⟨rfl, -⟩)
          · exact sub hs'
          · exact hs
        · rintro s n e (⟨-, hf⟩ | ⟨rfl, hn⟩)
          · exact hf.ne_nil
          · exact (within hn).ne_nil
        · rintro s n e (⟨-, hf⟩ | ⟨rfl, hn⟩)
          · exact hf.isName sound
          · exact (within hn).isName sound
        · rintro s n e (⟨-, hf⟩ | ⟨rfl, hn⟩)
          · exact hf.visible
          · exact (within hn).visible
        · rintro s components last (⟨hs', hf⟩ | ⟨rfl, hn⟩) hne
          · exact .inl ⟨hs', hf.closed sound hne⟩
          · refine .inr ⟨rfl, ?_⟩
            obtain ⟨front', back', rfl⟩ := List.append_of_mem hn
            have around := found.1 ((within hn).closed sound hne)
            rw [List.append_assoc, List.cons_append] at split
            exact List.mem_append_left _ (mem_of_below_eq place split rfl around)
      have fresh (e' : Entry) :
          ¬(FoundIn d root listed source n e' ∨ source = source ∧ (n, e') ∈ front) := by
        rintro (⟨hs', -⟩ | ⟨-, hn⟩)
        · exact new hs'
        · have nodup : (((d.below place).filter fun x => isVisible x.1 x.2).map Prod.fst).Nodup :=
            (nodup_below sound place).sublist (List.filter_sublist.map _)
          rw [split, List.map_append, List.map_cons, List.nodup_append] at nodup
          exact nodup.2.2 n (List.mem_map_of_mem (f := Prod.fst) hn) n (by simp) rfl
      have step := h₁.addEntry ord apart hs hf.ne_nil (hf.isName sound) hf.visible fresh ok₁
      have more : Also (fun s n e => FoundIn d root listed s n e ∨ s = source ∧ (n, e) ∈ front)
          source n e = fun s n' e' => FoundIn d root listed s n' e' ∨
            s = source ∧ (n', e') ∈ front ++ [(n, e)] := by
        funext s n' e'
        simp only [Also, List.mem_append, List.mem_singleton, Prod.mk.injEq, or_assoc, and_or_left]
      rw [more] at step
      exact step

/-- The tree of a project is tidy. -/
theorem Tidy.scan {config : Config} (sound : d.Sound) (apart : Apart config.sourceDirs)
    (ok : Tree.scan d root config = .ok t) :
    Tidy config.sourceDirs (FoundIn d root config.sourceDirs) t := by
  unfold Tree.scan at ok
  cases e : config.sourceDirs.foldlM (Tree.addSourceDir d root)
      { executables := config.executables } with
  | error e' => simp [e, bind, Except.bind] at ok
  | ok t₁ =>
    simp only [e, bind, Except.bind] at ok
    have h₁ : Tidy config.sourceDirs (FoundIn d root config.sourceDirs) t₁ := by
      refine foldlM_ok_prefix (P := fun listed t => Tidy config.sourceDirs (FoundIn d root listed) t)
        ?_ ?_ e
      · intro front s back t₂ t₃ split h₂ ok₂
        have nodup : ¬ s ∈ front := by
          intro hs
          have apart := apart
          rw [Apart, split, List.pairwise_append] at apart
          exact (apart.2.2 s hs s (by simp)).1 (List.prefix_refl _)
        exact Tidy.addSourceDir sound apart (by rw [split]; simp) (by rw [split]; simp) nodup h₂ ok₂
      · have none_ : FoundIn d root [] = fun _ _ _ => False := by
          funext s n e
          simp [FoundIn]
        rw [none_]
        exact .start _
    exact foldlM_ok_induction (fun _ _ _ _ h ok => h.addLibrary ok) h₁ ok

end Scan

end Tree
end FlatModules
