import FlatModules.Proofs.Build.Keys
import FlatModules.Proofs.Build.Levels

/-!
# Build — targets inside

Where the source directories of a scanned tree are relative and without `..` (`Path.Inner`), so is
every path that the tree tells of; and while such a target is built, all that is asked for is relative
and goes up at its end, if anywhere (`Path.Inward`, `Asks.inward`).
-/

namespace FlatModules

open Naming FlatModules.Path Text

/-- A relative path without `..`. -/
structure Path.Inner (p : Path) : Prop where
  relative : p.isAbsolute = false
  noUp : ".." ∉ p.names

instance (p : Path) : Decidable p.Inner :=
  decidable_of_iff (p.isAbsolute = false ∧ ".." ∉ p.names) ⟨fun ⟨a, b⟩ => ⟨a, b⟩, fun ⟨a, b⟩ => ⟨a, b⟩⟩

/-- A relative path that goes up at its end, if anywhere. -/
structure Path.Inward (p : Path) : Prop where
  relative : p.isAbsolute = false
  noUp : ['.', '.'] ∉ p.segments.dropLast

namespace Path

variable {p q : Path} {stem e e' message : String}

theorem up_mem_namesOf_iff {segments : List (List Char)} :
    ".." ∈ namesOf segments ↔ ['.', '.'] ∈ segments := by
  rw [namesOf, List.mem_map]
  constructor
  · rintro ⟨s, mem, same⟩
    obtain rfl : s = ['.', '.'] := by simpa using congrArg String.toList same
    exact (List.mem_filter.1 mem).1
  · exact fun mem => ⟨_, List.mem_filter.2 ⟨mem, by decide⟩, rfl⟩

namespace Inner

theorem inward (h : p.Inner) : p.Inward :=
  ⟨h.relative, fun up => h.noUp (up_mem_namesOf_iff.2 (List.mem_of_mem_dropLast up))⟩

theorem congr (h : p.Inner) (same : q.parts = p.parts) : q.Inner :=
  ⟨(isAbsolute_congr same).trans h.relative, names_congr same ▸ h.noUp⟩

theorem of_parts (h : p.Inner) {names : List String} (isName : ∀ n ∈ names, IsName n)
    (parts : q.parts = p.parts ++ names.map Part.name) : q.Inner := by
  refine ⟨(isAbsolute_of_parts parts).trans h.relative, ?_⟩
  rw [names_of_parts parts, List.mem_append, not_or]
  exact ⟨h.noUp, fun up => (isName _ up).ne_up rfl⟩

theorem div (h : p.Inner) {name : String} (isName : IsName name) : (p / ⟨name⟩).Inner :=
  have areNames : ∀ n ∈ [name], IsName n := by simpa using isName
  h.of_parts areNames (parts_div isName)

end Inner

namespace Inward

theorem noUp_names (h : p.Inward) : ".." ∉ p.names.dropLast := by
  obtain ⟨front, last, segments⟩ := (List.eq_nil_or_concat' p.segments).resolve_left (cutAt_ne_nil _ _)
  have noUp := h.noUp
  rw [segments, List.dropLast_concat, ← up_mem_namesOf_iff] at noUp
  rw [names, segments, namesOf_append]
  by_cases idle : last = [] ∨ last = ['.']
  · rw [namesOf_cons_idle idle, namesOf_nil, List.append_nil]
    exact fun up => noUp (List.mem_of_mem_dropLast up)
  · rw [namesOf_cons (not_or.1 idle), namesOf_nil, List.dropLast_concat]
    exact noUp

/-- Another ending makes no difference. -/
theorem ending (h : (⟨stem ++ e⟩ : Path).Inward) (he : '/' ∉ e.toList) (he' : '/' ∉ e'.toList) :
    (⟨stem ++ e'⟩ : Path).Inward := by
  have segments {x : String} (hx : '/' ∉ x.toList) : (⟨stem ++ x⟩ : Path).segments.dropLast =
      (cutAt (· == '/') stem.toList).dropLast := by
    obtain ⟨front, last, whole, cut⟩ := cutAt_append_right hx stem.toList
    rw [Path.segments, String.toList_append, cut, whole, List.dropLast_concat, List.dropLast_concat]
  refine ⟨?_, segments he' ▸ segments he ▸ h.noUp⟩
  have relative := h.relative
  rw [isAbsolute, String.toList_append] at relative ⊢
  cases text : stem.toList with
  | nil =>
    rw [List.nil_append, beq_eq_false_iff_ne]
    exact fun slash => he' (List.mem_of_head? slash)
  | cons c cs => simpa [text] using relative

theorem append (h : (⟨stem⟩ : Path).Inward) (he : '/' ∉ e.toList) : (⟨stem ++ e⟩ : Path).Inward :=
  ending (e := "") (by rwa [String.append_empty]) (by simp) he

/-- The target of a signal is as the target that it is for. -/
theorem signal (h : q.Inward) (hm : '/' ∉ message.toList) : (⟨signalKey q message⟩ : Path).Inward := by
  rw [signalKey_eq]
  refine append ⟨by simp [isAbsolute, signalOpen], ?_⟩ (slash_notMem_signalTail hm)
  obtain ⟨piece, rest, whole, cut⟩ := cutAt_append_left slash_notMem_signalOpen q.text.toList
  have noUp := h.noUp
  rw [segments, String.toList_append, cut]
  rw [segments, whole] at noUp
  cases rest with
  | nil => simp
  | cons s ss =>
    rw [List.dropLast_cons_of_ne_nil (by simp), List.mem_cons, not_or] at noUp ⊢
    exact ⟨by simp [signalOpen], noUp.2⟩

end Inward

end Path

/-! ### The paths of a tree -/

namespace Tree

variable {sources : List Path} {vs : List Visit} {t : Tree}

namespace After

theorem inner_file (h : After sources vs t) (it : Itinerary sources vs)
    (inner : ∀ s ∈ sources, s.Inner) {f : NamespacedFile} (hf : f ∈ t.files) :
    f.realPath.Inner ∧ f.virtualPath.Inner := by
  obtain ⟨components, stem', made⟩ := h.shaped.made f hf
  obtain ⟨v, hv, u, -, kind, stem, -, -, -, rfl, -⟩ := h.file f hf
  obtain ⟨names, last, e⟩ := (List.eq_nil_or_concat' v.names).resolve_left (it.ne_nil v hv)
  have isName := it.isName v hv
  have source := inner _ (it.source v hv)
  have above : v.above.Inner :=
    source.of_parts (fun n hn => isName n (by simp [e, hn])) (Visit.parts_above e isName)
  refine ⟨source.of_parts isName (Visit.parts_path isName), ?_⟩
  rw [made.virtualPath_eq]
  exact above.div made.isName

theorem inner_namespace (h : After sources vs t) (inner : ∀ s ∈ sources, s.Inner) {ns : Namespace}
    (hn : ns ∈ t.namespaces) : ns.dir.Inner ∧ ns.rootPath.Inner := by
  obtain ⟨source, hs, lies⟩ := h.shaped.below ns hn
  refine ⟨(inner source hs).of_parts lies.isName lies.parts_dir, ?_⟩
  rw [lies.rootPath_eq]
  refine ((inner source hs).of_parts (fun n hn => ?_) lies.parts_above).div lies.isStem.isName
  exact lies.isName n (List.dropLast_subset _ hn)

theorem inner_leaf (h : After sources vs t) (beside : t.LeavesBeside) (inner : ∀ s ∈ sources, s.Inner)
    {s : Scope} (hs : s ∈ t.scopes) {l : Leaf} (hl : l ∈ s.leaves) : l.virtualRoot.Inner := by
  obtain ⟨ne, valid, -⟩ := h.leaf_named hs hl
  obtain ⟨source, -, lies⟩ := h.shaped.below s.ns (List.mem_map_of_mem hs)
  obtain ⟨dir, same, path⟩ := beside s hs l hl
  rw [path, lies.flatName_eq, ← flatName_append_singleton ne]
  exact ((h.inner_namespace inner (List.mem_map_of_mem hs)).1.congr same).div
    (isStem_flatName (by simp) valid).isName

/-- The files of a namespace that are generated or built for it. -/
theorem inward_closure (h : After sources vs t) (it : Itinerary sources vs) (filed : t.LeavesFiled)
    (inner : ∀ s ∈ sources, s.Inner) {ns : Namespace} (hn : ns ∈ t.namespaces) {q : Path}
    (hq : q ∈ t.closure ns) : q.Inward := by
  obtain ⟨s, hs, rfl⟩ := List.mem_map.1 hn
  rcases h.closure_cases hs hq with ⟨l, hl, hq⟩ | ⟨c, child, rfl⟩
  · obtain ⟨f, hf, same⟩ := filed s hs l hl q hq
    exact ((h.inner_file it inner hf).2.congr same.symm).inward
  · have hc : c.ns ∈ t.namespaces := List.mem_map_of_mem (h.parts_childScopes it hs child).1
    obtain ⟨source, -, lies⟩ := h.shaped.below c.ns hc
    rw [lies.rootFile_eq]
    exact (h.inner_namespace inner hc).2.inward.append (by decide)

theorem inward_item (h : After sources vs t) (beside : t.LeavesBeside) (inner : ∀ s ∈ sources, s.Inner)
    {i : LibraryItem} (hi : i.In t) : i.path.Inward := by
  cases i with
  | aliases s =>
    exact (h.inner_namespace inner (List.mem_map_of_mem hi)).2.inward.append (by decide)
  | leaf s l => exact (h.inner_leaf beside inner hi.1 hi.2).inward
  | root s => exact (h.inner_namespace inner (List.mem_map_of_mem hi)).2.inward

end After

end Tree

namespace Local

variable {d : Disk} {root : Path} {config : Config} {programs : Analyzer.Programs} {t : Tree}
  {q r : Path}

theorem inward_memberDepends {x : String} (h : (⟨x⟩ : Path).Inward) : (memberDepends x).Inward := by
  unfold memberDepends
  dsimp only
  split
  · exact h.append (by decide)
  · exact (h.append (by decide)).append (by decide)

/-- What is asked for while a target is built is as the target, in a tree of sources without `..`. -/
theorem Asks.inward (sound : d.Sound) (ok : Tree.scan d root config = .ok t)
    (inner : ∀ s ∈ config.sourceDirs, s.Inner) (hq : q.Inward)
    (asks : Asks (t.project root config programs) q r) : r.Inward := by
  have h := Tree.After.scan sound ok
  have it := Tree.itinerary_visits sound root config.sourceDirs
  have beside := Tree.leavesBeside_of_scan sound ok
  cases asks with
  | @dependency rule stem pattern hs hd =>
    have path : q = ⟨stem ++ rule.ending⟩ :=
      congrArg Path.mk (Pattern.stem?_ending_eq_some_iff.1 hs).1
    have ending (e : String) (he : '/' ∉ e.toList) : ((Pattern.ending e).fill stem).Inward := by
      rw [Pattern_ending_fill]
      exact (path ▸ hq).ending (Closing.ending rule).noSlash he
    cases rule with
    | depends kind =>
      obtain rfl := List.mem_singleton.1 hd
      exact ending _ (Closing.ending (.link kind)).noSlash
    | root =>
      obtain rfl := List.mem_singleton.1 hd
      exact ending _ (by decide)
    | plainDepends =>
      obtain rfl := List.mem_singleton.1 hd
      exact ending _ (by decide)
    | _ => simp [Rule.dependencies] at hd
  | signal _ hm => exact hq.signal (noSlash_reasons _ hm)
  | real _ hf =>
    obtain ⟨found, -⟩ := Metadata.fileAt?_of_fileOfKind? hf
    have found : t.fileAt? q = some _ := found
    exact (h.inner_file it inner (List.mem_of_find?_eq_some found)).1.inward
  | closure _ hn hc =>
    exact h.inward_closure it (Tree.leavesFiled_of_scan sound ok) inner
      (mem_namespaces_of_namespaceOfRoot? hn).1 hc
  | @library stem ns members x _ hn hm hx =>
    obtain ⟨s, hs, rfl⟩ := List.mem_map.1 (mem_namespaces_of_namespaceOfRoot? hn).1
    have hm : t.libraryMembers? s.ns = some members := hm
    unfold Tree.libraryMembers? at hm
    split at hm
    case isFalse => simp at hm
    case isTrue =>
      rw [h.shaped.scopeAt?_eq hs rfl, Option.map_some, Option.some.injEq] at hm
      rw [← hm, (t.collect_perm _ s).mem_iff] at hx
      obtain ⟨i, hi, rfl⟩ := List.mem_map.1 hx
      exact inward_memberDepends (h.inward_item beside inner (h.in_of_mem_items it hs hi))

end Local
end FlatModules
