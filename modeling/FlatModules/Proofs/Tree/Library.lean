import FlatModules.Proofs.Tree.FlatSpace
import FlatModules.Proofs.Tree.Members

/-!
# Trees — what a library is made of

For each namespace in it, a library has the alias module, the leaves and the root module
(`LibraryItem`).  Each of these is at a path of which the file name is a name of the flat space, so
that no two of them are of one module (`Tree.After.nodup_modules`): items of one module would be of
one namespace (`Tree.After.eq_of_module`), and no namespace is collected twice
(`Tree.After.nodup_scopesWithin`).
-/

namespace FlatModules

open Naming Path

/-- What a library has of a namespace. -/
inductive LibraryItem where
  | aliases (s : Scope)
  | leaf (s : Scope) (l : Leaf)
  | root (s : Scope)

namespace LibraryItem

/-- The namespace that an item is of. -/
def scope : LibraryItem → Scope
  | aliases s | leaf s _ | root s => s

/-- The path of an item, extension apart. -/
def path : LibraryItem → Path
  | aliases s => aliasesPath s.ns.rootPath
  | leaf _ l => l.virtualRoot
  | root s => s.ns.rootPath

/-- The module that an item is. -/
def module : LibraryItem → String
  | aliases s => moduleName (s.ns.flatName ++ aliasesSuffix)
  | leaf _ l => l.virtualModule
  | root s => s.ns.moduleName

/-- Whether an item is of a namespace of a tree. -/
def In (t : Tree) : LibraryItem → Prop
  | aliases s | root s => s ∈ t.scopes
  | leaf s l => s ∈ t.scopes ∧ l ∈ s.leaves

end LibraryItem

/-- What a library has of one namespace. -/
def Scope.items (s : Scope) : List LibraryItem :=
  .aliases s :: ((s.leaves.filter Leaf.hasImplementation).map (.leaf s) ++ [.root s])

theorem Scope.mem_items {s : Scope} {i : LibraryItem} (h : i ∈ s.items) :
    i = .aliases s ∨ (∃ l ∈ s.leaves, i = .leaf s l) ∨ i = .root s := by
  rcases List.mem_cons.1 h with rfl | h
  · exact .inl rfl
  · rcases List.mem_append.1 h with h | h
    · obtain ⟨l, hl, rfl⟩ := List.mem_map.1 h
      exact .inr (.inl ⟨l, (List.mem_filter.1 hl).1, rfl⟩)
    · exact .inr (.inr (List.mem_singleton.1 h))

namespace Tree

/-- The namespaces at most `depth` levels down, with the one that they are in. -/
def scopesWithin (t : Tree) : (depth : Nat) → Scope → List Scope
  | 0, _ => []
  | depth + 1, s => s :: (t.childScopes s).flatMap (scopesWithin t depth)

/-- A library is made of items of the namespaces in it. -/
theorem collect_perm (t : Tree) (depth : Nat) (s : Scope) :
    (t.collect depth s).Perm
      (((t.scopesWithin depth s).flatMap Scope.items).map (·.path.text)) := by
  induction depth generalizing s with
  | zero => exact .refl _
  | succ depth ih =>
    have inner : ((t.childScopes s).flatMap (t.collect depth)).Perm
        ((((t.childScopes s).flatMap (t.scopesWithin depth)).flatMap Scope.items).map
          (·.path.text)) := by
      rw [List.flatMap_assoc, List.map_flatMap]
      exact List.Perm.flatMap_left _ fun c _ => ih c
    have own : (s.items.map (·.path.text)) = (aliasesPath s.ns.rootPath).text ::
        ((s.leaves.filter Leaf.hasImplementation).map (·.virtualRoot.text) ++ [s.ns.rootPath.text]) := by
      simp [Scope.items, LibraryItem.path]
    rw [scopesWithin, List.flatMap_cons, List.map_append, own, collect, List.singleton_append,
      List.cons_append, List.cons_append, List.cons_append, List.append_assoc, List.append_assoc]
    exact .cons _ (.append_left _ (List.perm_append_comm.trans (inner.append_left _)))

/-! ### Where leaves are seen -/

/-- The path of each leaf is named by its namespace and its stem. -/
def LeavesNamed (t : Tree) : Prop :=
  ∀ s ∈ t.scopes, ∀ l ∈ s.leaves, ∃ dir, l.virtualRoot = dir / ⟨flatName [s.ns.flatName, l.stem]⟩

variable {sources : List Path} {vs before after : List Visit} {u v : Visit} {t t' : Tree} {s : Scope}

/-- The path of each leaf is so named beside the directory of its namespace's files. -/
def LeavesBeside (t : Tree) : Prop :=
  ∀ s ∈ t.scopes, ∀ l ∈ s.leaves, ∃ dir : Path, dir.parts = s.ns.dir.parts ∧
    l.virtualRoot = dir / ⟨flatName [s.ns.flatName, l.stem]⟩

theorem LeavesBeside.named (h : t.LeavesBeside) : t.LeavesNamed :=
  fun s hs l hl => (h s hs l hl).imp fun _ beside => beside.2

theorem LeavesBeside.added (h : t.LeavesBeside) (added : Added t v t') : t'.LeavesBeside := by
  intro s' hs' l hl
  cases added with
  | directory _ _ _ scopes =>
    rcases (scopes s').1 hs' with rfl | ⟨s, hs, -, rfl⟩
    · simp at hl
    · have same : (v.enlistIn s).ns = s.ns ∧ (v.enlistIn s).leaves = s.leaves := by
        unfold Visit.enlistIn
        split <;> exact ⟨rfl, rfl⟩
      rw [same.1]
      exact h s hs l (same.2 ▸ hl)
  | plain _ _ _ _ scopes => exact h s' (scopes ▸ hs') l hl
  | @leaf kind stem s _ hs here _ _ scopes =>
    rcases (scopes s').1 hs' with rfl | ⟨hs', -⟩
    · change l ∈ addToLeaf (v.leafIn s.ns kind stem) s.leaves at hl
      unfold addToLeaf at hl
      split at hl
      · obtain ⟨l₀, mem, rfl⟩ := List.mem_map.1 hl
        split <;> exact h s hs l₀ mem
      · rcases mem_of_mem_insertInOrder hl with rfl | mem
        · exact ⟨v.above, here.symm, rfl⟩
        · exact h s hs l mem
    · exact h s' hs' l hl
  | skipped _ _ same => exact h s' (same ▸ hs') l hl

theorem leavesBeside_of_scan {d : Disk} {root : Path} {config : Config} (sound : d.Sound)
    (ok : scan d root config = .ok t) : t.LeavesBeside := by
  obtain ⟨t₀, libraries, rfl, run⟩ := exists_run_of_scan ok
  have it := itinerary_visits sound root config.sourceDirs
  have both : Shaped config.sourceDirs t₀ ∧ t₀.LeavesBeside := by
    refine foldlM_ok_induction (P := fun t => Shaped config.sourceDirs t ∧ t.LeavesBeside)
      (fun t v t' hv ⟨shaped, beside⟩ ok => ?_) ⟨.start _, by simp [LeavesBeside]⟩ run
    obtain ⟨-, added⟩ := addVisit_ok shaped (it.ne_nil v hv) (it.isName v hv) ok
    exact ⟨shaped.addEntry (it.source v hv) (it.ne_nil v hv) (it.visible v hv) ok, beside.added added⟩
  exact both.2

theorem leavesNamed_of_scan {d : Disk} {root : Path} {config : Config} (sound : d.Sound)
    (ok : scan d root config = .ok t) : t.LeavesNamed :=
  (leavesBeside_of_scan sound ok).named

/-! ### Items and their modules -/

/-- The module of a path that is named by a stem alone. -/
theorem moduleOfPath_div {stem : String} (h : IsStem stem) (dir : Path) :
    moduleOfPath (dir / ⟨stem⟩) = moduleName stem := by
  have whole : stem.toList.takeWhile (· != '.') = stem.toList :=
    List.takeWhile_eq_self_iff.2 fun c hc => by
      have ne : c ≠ '.' := by
        rintro rfl
        exact h.noDot hc
      simpa using ne
  rw [moduleOfPath, fileName?_div h.isName, Option.getD_some, beforeDot, whole, String.ofList_toList]

namespace After

/-- A leaf of a namespace, with the components that name it. -/
theorem leaf_named (h : After sources vs t) (hs : s ∈ t.scopes) {l : Leaf} (hl : l ∈ s.leaves) :
    s.ns.components ≠ [] ∧ (∀ c ∈ s.ns.components ++ [l.stem], isComponent c = true) ∧
      l.virtualModule = moduleName (flatName (s.ns.components ++ [l.stem])) ∧
      Claimed t.claims l.virtualModule .leafModule := by
  obtain ⟨before, u, after, -, -, filled⟩ := h.scope s hs
  obtain ⟨source, -, lies⟩ := h.shaped.below s.ns (List.mem_map_of_mem hs)
  obtain ⟨valid, named⟩ := filled.neat.named l hl
  refine ⟨lies.ne_nil, fun c hc => ?_, named, filled.claimed l hl⟩
  rcases List.mem_append.1 hc with hc | hc
  · exact lies.valid c hc
  · rwa [List.mem_singleton.1 hc]

/-- An item is of the module that its path says. -/
theorem moduleOfPath_item (h : After sources vs t) (leaves : t.LeavesNamed) {i : LibraryItem}
    (hi : i.In t) : moduleOfPath i.path = i.module := by
  cases i with
  | aliases s =>
    obtain ⟨source, -, lies⟩ := h.shaped.below s.ns (List.mem_map_of_mem hi)
    have plain : '/' ∉ aliasesSuffix.toList ∧ '.' ∉ aliasesSuffix.toList := by decide
    have stem : IsStem (s.ns.flatName ++ aliasesSuffix) :=
      ⟨lies.isStem.append plain.1, by simp [lies.isStem.noDot, plain.2]⟩
    exact (congrArg moduleOfPath (lies.rootPath_append plain.1)).trans (moduleOfPath_div stem _)
  | leaf s l =>
    obtain ⟨hs, hl⟩ := hi
    obtain ⟨ne, valid, named, -⟩ := h.leaf_named hs hl
    obtain ⟨source, -, lies⟩ := h.shaped.below s.ns (List.mem_map_of_mem hs)
    obtain ⟨dir, path⟩ := leaves s hs l hl
    rw [lies.flatName_eq, ← flatName_append_singleton ne] at path
    rw [LibraryItem.path, LibraryItem.module, path, named,
      moduleOfPath_div (isStem_flatName (by simp) valid)]
  | root s =>
    obtain ⟨source, -, lies⟩ := h.shaped.below s.ns (List.mem_map_of_mem hi)
    rw [LibraryItem.path, LibraryItem.module, lies.rootPath_eq, moduleOfPath_div lies.isStem,
      lies.moduleName_eq]

theorem scope_eq_of_moduleName (h : After sources vs t) {s s' : Scope} (hs : s ∈ t.scopes)
    (hs' : s' ∈ t.scopes) (same : s.ns.moduleName = s'.ns.moduleName) : s = s' := by
  have ns := h.eq_of_moduleName (List.mem_map_of_mem hs) (List.mem_map_of_mem hs') same
  have found := h.shaped.scopeAt?_eq hs' (congrArg (fun ns => ns.dir.parts) ns)
  exact Option.some.inj ((h.shaped.scopeAt?_eq hs rfl).symm.trans found)

/-- An alias module is of no leaf's module and of no root's. -/
theorem aliases_ne (h : After sources vs t) (hs : s ∈ t.scopes) {i : LibraryItem} (hi : i.In t)
    (other : ∀ s, i ≠ .aliases s) : i.module ≠ (LibraryItem.aliases s).module := by
  obtain ⟨source, -, lies⟩ := h.shaped.below s.ns (List.mem_map_of_mem hs)
  rw [LibraryItem.module, lies.flatName_eq]
  cases i with
  | aliases s' => exact absurd rfl (other s')
  | leaf s' l =>
    obtain ⟨-, valid, named, -⟩ := h.leaf_named hi.1 hi.2
    rw [LibraryItem.module, named]
    exact moduleName_append_aliases_ne (by simp) lies.ne_nil valid lies.valid
  | root s' =>
    obtain ⟨source', -, lies'⟩ := h.shaped.below s'.ns (List.mem_map_of_mem hi)
    rw [LibraryItem.module, lies'.moduleName_eq, lies'.flatName_eq]
    exact moduleName_append_aliases_ne lies'.ne_nil lies.ne_nil lies'.valid lies.valid

/-- A root module is of no leaf's module. -/
theorem leaf_ne_root (h : After sources vs t) {s s' : Scope} (hs : s ∈ t.scopes)
    (hs' : s' ∈ t.scopes) {l : Leaf} (hl : l ∈ s.leaves) : l.virtualModule ≠ s'.ns.moduleName := by
  intro same
  obtain ⟨-, -, -, claimed⟩ := h.leaf_named hs hl
  have held := h.shaped.claimed s'.ns (List.mem_map_of_mem hs')
  rw [same] at claimed
  exact absurd (claimed.kind_eq h.shaped.differ held) (by decide)

/-- Leaves of one module are the same leaf. -/
theorem leaf_eq (h : After sources vs t) {s s' : Scope} (hs : s ∈ t.scopes) (hs' : s' ∈ t.scopes)
    {l l' : Leaf} (hl : l ∈ s.leaves) (hl' : l' ∈ s'.leaves)
    (same : l.virtualModule = l'.virtualModule) : s = s' ∧ l = l' := by
  obtain ⟨ne, valid, named, -⟩ := h.leaf_named hs hl
  obtain ⟨ne', valid', named', -⟩ := h.leaf_named hs' hl'
  obtain ⟨source, -, lies⟩ := h.shaped.below s.ns (List.mem_map_of_mem hs)
  obtain ⟨source', -, lies'⟩ := h.shaped.below s'.ns (List.mem_map_of_mem hs')
  obtain ⟨c, cs, e⟩ := List.exists_cons_of_ne_nil ne
  obtain ⟨d, ds, e'⟩ := List.exists_cons_of_ne_nil ne'
  rw [named, named', e, e', List.cons_append, List.cons_append] at same
  rw [e, List.cons_append] at valid
  rw [e', List.cons_append] at valid'
  obtain ⟨first, rest⟩ := eq_of_moduleName_flatName valid valid' same
  obtain ⟨rfl, stems⟩ := List.append_inj' rest rfl
  have scopes : s = s' := by
    refine h.scope_eq_of_moduleName hs hs' ?_
    rw [lies.moduleName_eq, lies'.moduleName_eq, lies.flatName_eq, lies'.flatName_eq, e, e',
      moduleName_flatName (valid c List.mem_cons_self),
      moduleName_flatName (valid' d List.mem_cons_self), first]
  subst scopes
  obtain ⟨before, u, after, -, -, filled⟩ := h.scope s hs
  refine ⟨rfl, eq_of_pairwise_lt filled.neat.ordered hl hl' ?_⟩
  rw [List.singleton_inj.1 stems, Std.ReflOrd.compare_self]

/-- Items of one module are the same item. -/
theorem eq_of_module (h : After sources vs t) {i j : LibraryItem} (hi : i.In t) (hj : j.In t)
    (same : i.module = j.module) : i = j := by
  cases i with
  | aliases s =>
    cases j with
    | aliases s' =>
      obtain ⟨source, -, lies⟩ := h.shaped.below s.ns (List.mem_map_of_mem hi)
      obtain ⟨source', -, lies'⟩ := h.shaped.below s'.ns (List.mem_map_of_mem hj)
      rw [LibraryItem.module, LibraryItem.module, moduleName_append lies.isStem.isName.ne_empty,
        moduleName_append lies'.isStem.isName.ne_empty] at same
      have modules : s.ns.moduleName = s'.ns.moduleName := by
        rw [lies.moduleName_eq, lies'.moduleName_eq]
        exact (String.append_left_inj _).1 same
      rw [h.scope_eq_of_moduleName hi hj modules]
    | leaf s' l => exact absurd same.symm (h.aliases_ne hi hj (by simp))
    | root s' => exact absurd same.symm (h.aliases_ne hi hj (by simp))
  | leaf s l =>
    cases j with
    | aliases s' => exact absurd same (h.aliases_ne hj hi (by simp))
    | leaf s' l' =>
      obtain ⟨rfl, rfl⟩ := h.leaf_eq hi.1 hj.1 hi.2 hj.2 same
      rfl
    | root s' => exact absurd same (h.leaf_ne_root hi.1 hj hi.2)
  | root s =>
    cases j with
    | aliases s' => exact absurd same (h.aliases_ne hj hi (by simp))
    | leaf s' l => exact absurd same.symm (h.leaf_ne_root hj.1 hi hj.2)
    | root s' => rw [h.scope_eq_of_moduleName hi hj same]

/-! ### The namespaces of a library -/

/-- A sub-namespace is in a directory of its own in that of the namespace. -/
theorem parts_childScopes (h : After sources vs t) (it : Itinerary sources vs) (hs : s ∈ t.scopes)
    {c : Scope} (hc : c ∈ t.childScopes s) :
    c ∈ t.scopes ∧ ∃ last, c.ns.dir.parts = s.ns.dir.parts ++ [.name last] := by
  obtain ⟨before, u, after, latest, -, filled⟩ := h.scope s hs
  obtain ⟨path, hp, found⟩ := List.mem_filterMap.1 hc
  rw [filled.children] at hp
  obtain ⟨w, hw, rfl⟩ := List.mem_map.1 hp
  obtain ⟨hw, child⟩ := List.mem_filter.1 hw
  obtain ⟨-, -, above⟩ := of_decide_eq_true child
  have hw : w ∈ vs := by
    rw [latest.eq]
    simp [hw]
  unfold scopeAt? at found
  have same := List.find?_some found
  have parts := same_iff.1 same
  obtain ⟨names, last, e⟩ := (List.eq_nil_or_concat' w.names).resolve_left (it.ne_nil w hw)
  refine ⟨List.mem_of_find?_eq_some found, last, ?_⟩
  rw [parts, Visit.parts_path_above e (it.isName w hw), above]

/-- No sub-namespace is entered twice. -/
theorem pairwise_childScopes (h : After sources vs t) (it : Itinerary sources vs)
    (hs : s ∈ t.scopes) :
    (t.childScopes s).Pairwise fun c c' => c.ns.dir.parts ≠ c'.ns.dir.parts := by
  have differ := (List.nodup_append.1 (h.nodup_localNames it hs)).2.1
  refine (List.pairwise_filterMap.1 differ).imp_of_mem fun {c c'} hc hc' ne same => ?_
  obtain ⟨hc, -⟩ := h.parts_childScopes it hs hc
  obtain ⟨hc', -⟩ := h.parts_childScopes it hs hc'
  obtain rfl : c = c' :=
    Option.some.inj ((h.shaped.scopeAt?_eq hc rfl).symm.trans (h.shaped.scopeAt?_eq hc' same))
  obtain ⟨source, -, lies⟩ := h.shaped.below c.ns (List.mem_map_of_mem hc)
  have last := List.getLast?_eq_some_getLast lies.ne_nil
  exact ne _ last _ last rfl

theorem scopesWithin_below (h : After sources vs t) (it : Itinerary sources vs) (n : Nat)
    (hs : s ∈ t.scopes) {r : Scope} (hr : r ∈ t.scopesWithin n s) :
    r ∈ t.scopes ∧ s.ns.dir.parts <+: r.ns.dir.parts := by
  induction n generalizing s with
  | zero => simp [scopesWithin] at hr
  | succ n ih =>
    rcases List.mem_cons.1 hr with rfl | hr
    · exact ⟨hs, List.prefix_refl _⟩
    · obtain ⟨c, hc, hr⟩ := List.mem_flatMap.1 hr
      obtain ⟨there, last, parts⟩ := h.parts_childScopes it hs hc
      obtain ⟨hr, below⟩ := ih there hr
      exact ⟨hr, (parts ▸ List.prefix_append _ _).trans below⟩

/-- No namespace is collected twice. -/
theorem nodup_scopesWithin (h : After sources vs t) (it : Itinerary sources vs) (n : Nat)
    (hs : s ∈ t.scopes) : (t.scopesWithin n s).Nodup := by
  induction n generalizing s with
  | zero => simp [scopesWithin]
  | succ n ih =>
    have child {c : Scope} (hc : c ∈ t.childScopes s) := h.parts_childScopes it hs hc
    refine List.nodup_cons.2 ⟨fun again => ?_, List.nodup_flatMap.2 ⟨fun c hc => ih (child hc).1, ?_⟩⟩
    · obtain ⟨c, hc, mem⟩ := List.mem_flatMap.1 again
      obtain ⟨there, last, parts⟩ := child hc
      have long := (h.scopesWithin_below it n there mem).2.length_le
      rw [parts, List.length_append, List.length_singleton] at long
      omega
    · refine (h.pairwise_childScopes it hs).imp_of_mem fun {c c'} hc hc' ne r hr hr' => ne ?_
      obtain ⟨there, last, parts⟩ := child hc
      obtain ⟨there', last', parts'⟩ := child hc'
      have below := (h.scopesWithin_below it n there hr).2
      have below' := (h.scopesWithin_below it n there' hr').2
      refine (List.prefix_of_prefix_length_le below below' ?_).eq_of_length ?_ <;>
        simp [parts, parts']

theorem nodup_items (h : After sources vs t) (it : Itinerary sources vs) (hs : s ∈ t.scopes) :
    s.items.Nodup := by
  have stems : (s.leaves.map Leaf.stem).Nodup := (List.nodup_append.1 (h.nodup_localNames it hs)).1
  have leaves : ((s.leaves.filter Leaf.hasImplementation).map (LibraryItem.leaf s)).Nodup :=
    ((List.Nodup.of_map _ stems).filter _).map fun _ _ same => (LibraryItem.leaf.inj same).2
  refine List.nodup_cons.2 ⟨by simp, List.nodup_append.2 ⟨leaves, by simp, ?_⟩⟩
  rintro _ hl _ hr rfl
  obtain ⟨l, -, same⟩ := List.mem_map.1 hl
  simp [← same] at hr

theorem in_of_mem_items (h : After sources vs t) (it : Itinerary sources vs) {n : Nat}
    (hs : s ∈ t.scopes) {i : LibraryItem} (hi : i ∈ (t.scopesWithin n s).flatMap Scope.items) :
    i.In t := by
  obtain ⟨r, hr, hi⟩ := List.mem_flatMap.1 hi
  obtain ⟨hr, -⟩ := h.scopesWithin_below it n hs hr
  rcases Scope.mem_items hi with rfl | ⟨l, hl, rfl⟩ | rfl
  exacts [hr, ⟨hr, hl⟩, hr]

/-- What a library is made of is of different modules. -/
theorem nodup_modules (h : After sources vs t) (it : Itinerary sources vs) (leaves : t.LeavesNamed)
    (n : Nat) (hs : s ∈ t.scopes) : ((t.collect n s).map fun m => moduleOfPath ⟨m⟩).Nodup := by
  have inTree {i : LibraryItem} (hi : i ∈ (t.scopesWithin n s).flatMap Scope.items) : i.In t :=
    h.in_of_mem_items it hs hi
  have of_scope {r : Scope} {i : LibraryItem} (hi : i ∈ r.items) : i.scope = r := by
    rcases Scope.mem_items hi with rfl | ⟨l, -, rfl⟩ | rfl <;> rfl
  have items : ((t.scopesWithin n s).flatMap Scope.items).Nodup := by
    refine List.nodup_flatMap.2 ⟨fun r hr => ?_, ?_⟩
    · exact h.nodup_items it (h.scopesWithin_below it n hs hr).1
    · refine List.Pairwise.imp (fun {r r'} (ne : r ≠ r') => ?_) (h.nodup_scopesWithin it n hs)
      intro i hi hi'
      exact ne ((of_scope hi).symm.trans (of_scope hi'))
  have perm := (t.collect_perm n s).map fun m => moduleOfPath ⟨m⟩
  rw [perm.nodup_iff, List.map_map, List.nodup_map_iff_inj_on items]
  intro i hi j hj same
  have eta (q : Path) : moduleOfPath ⟨q.text⟩ = moduleOfPath q := rfl
  rw [Function.comp_apply, Function.comp_apply, eta, eta, h.moduleOfPath_item leaves (inTree hi),
    h.moduleOfPath_item leaves (inTree hj)] at same
  exact h.eq_of_module (inTree hi) (inTree hj) same

end After

end Tree

end FlatModules
