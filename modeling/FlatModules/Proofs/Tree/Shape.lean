import Mathlib.Data.List.Nodup
import FlatModules.Proofs.Sorted
import FlatModules.Proofs.Tree.Roots

/-!
# Trees — the shape of a scanned tree

What holds of the tree of any project that a scan accepts (`Shaped.scan`), whatever its source
directories: each namespace lies below a source, each file is named for a namespace and a stem, no
two of either are at one path, and each holds a name of the flat space that nothing else holds.
-/

namespace FlatModules

open Naming Path

/-- What a step keeps that may fail, a whole list of steps keeps. -/
theorem foldlM_ok_induction {α β ε : Type} {P : α → Prop} {f : α → β → Except ε α} {xs : List β}
    (step : ∀ a x a', x ∈ xs → P a → f a x = .ok a' → P a') {a a' : α} (start : P a)
    (h : xs.foldlM f a = .ok a') : P a' := by
  induction xs generalizing a with
  | nil =>
    obtain rfl := Except.ok.inj h
    exact start
  | cons x xs ih =>
    rw [List.foldlM_cons] at h
    cases e : f a x with
    | error e' => simp [e, bind, Except.bind] at h
    | ok b =>
      rw [e] at h
      exact ih (fun a y a' hy => step a y a' (List.mem_cons_of_mem _ hy))
        (step a x b List.mem_cons_self start e) h

/-- A source file as a scan makes it: named for the components of a namespace and a stem. -/
structure NamespacedFile.Made (f : NamespacedFile) (components : List String) (stem : String) :
    Prop where
  ne_nil : components ≠ []
  valid : ∀ c ∈ components ++ [stem], isComponent c = true
  virtualPath_eq :
    f.virtualPath = f.dir / ⟨flatName (components ++ [stem]) ++ "." ++ f.kind.extension⟩
  virtualModule_eq : f.virtualModule = moduleName (flatName (components ++ [stem]))
  fileName?_eq : f.realPath.fileName? = some (stem ++ "." ++ f.kind.extension)

theorem SourceKind.extension_ne_empty (kind : SourceKind) : kind.extension ≠ "" := by
  cases kind <;> decide

theorem SourceKind.noSlash_extension (kind : SourceKind) : '/' ∉ kind.extension.toList := by
  cases kind <;> decide

theorem SourceKind.extension_inj {kind kind' : SourceKind} (h : kind.extension = kind'.extension) :
    kind = kind' := by
  cases kind <;> cases kind' <;> first | rfl | (revert h; decide)

/-- A path of a kind is named by its stem and the extension of the kind. -/
theorem fileName?_of_ofPath? {path : Path} {kind : SourceKind} {stem : String}
    (hk : SourceKind.ofPath? path = some kind) (hs : path.fileStem? = some stem) :
    path.fileName? = some (stem ++ "." ++ kind.extension) := by
  have ext : path.extension? = some kind.extension := by
    unfold SourceKind.ofPath? at hk
    split at hk <;> cases hk <;> assumption
  obtain ⟨name, hn, hs⟩ := Option.map_eq_some_iff.1 hs
  obtain ⟨name', hn', he⟩ := Option.bind_eq_some_iff.1 ext
  obtain rfl := Option.some.inj (hn.symm.trans hn')
  obtain ⟨cs, hc, he⟩ := Option.map_eq_some_iff.1 he
  have split : splitExtension name.toList = ((splitExtension name.toList).1, some cs) := by
    rw [← hc]
  rw [hn, ← hs, ← he]
  refine congrArg some (String.toList_inj.1 ?_)
  simpa using eq_of_splitExtension split

section FileFor

variable (ns : Namespace) (dir path : Path) (stem : String) (kind : SourceKind)

@[simp] theorem Tree.fileFor_realPath : (fileFor ns dir path stem kind).realPath = path := rfl

@[simp] theorem Tree.fileFor_dir : (fileFor ns dir path stem kind).dir = dir := rfl

@[simp] theorem Tree.fileFor_kind : (fileFor ns dir path stem kind).kind = kind := rfl

theorem Tree.fileFor_virtualPath :
    (fileFor ns dir path stem kind).virtualPath =
      (dir / ⟨flatName [ns.flatName, stem]⟩).withExtension kind.extension := by
  simp only [fileFor]

theorem Tree.fileFor_virtualModule :
    (fileFor ns dir path stem kind).virtualModule =
      moduleName (flatName [ns.flatName, stem]) := by
  simp only [fileFor]

end FileFor

/-- The record of a source file is named for its namespace and its stem. -/
theorem made_fileFor {ns : Namespace} {source path : Path} (h : ns.LiesBelow source)
    {kind : SourceKind} {stem : String} (hk : SourceKind.ofPath? path = some kind)
    (hs : path.fileStem? = some stem) (valid : isComponent stem = true) (dir : Path) :
    (Tree.fileFor ns dir path stem kind).Made ns.components stem := by
  have flat : flatName [ns.flatName, stem] = flatName (ns.components ++ [stem]) := by
    rw [flatName_append_singleton h.ne_nil, h.flatName_eq]
  have all : ∀ c ∈ ns.components ++ [stem], isComponent c = true := by
    simpa [or_imp, forall_and, valid] using h.valid
  constructor
  case ne_nil => exact h.ne_nil
  case valid => exact all
  case virtualPath_eq =>
    rw [Tree.fileFor_virtualPath, flat, Tree.fileFor_dir, Tree.fileFor_kind,
      withExtension_div (isStem_flatName (by simp) all) kind.extension_ne_empty
        kind.noSlash_extension]
  case virtualModule_eq => rw [Tree.fileFor_virtualModule, flat]
  case fileName?_eq => exact fileName?_of_ofPath? hk hs

namespace Tree

/-- Whether claims hold a module name for a kind of member. -/
def Claimed (claims : List Claim) (module : String) (kind : MemberKind) : Prop :=
  ∃ c ∈ claims, c.module = module ∧ c.kind = kind

/-- A name is held for one kind of member. -/
theorem Claimed.kind_eq {claims : List Claim} (differ : (claims.map Claim.module).Nodup)
    {module : String} {k k' : MemberKind} (h : Claimed claims module k)
    (h' : Claimed claims module k') : k = k' := by
  obtain ⟨c, hc, rfl, rfl⟩ := h
  obtain ⟨c', hc', e, rfl⟩ := h'
  rw [List.inj_on_of_nodup_map differ hc hc' e.symm]

/-- What the scan does with what it finds: a directory becomes a namespace, a source file is added
and the rest passed over. -/
theorem addEntry_ok {t t' : Tree} {source : Path} {names : List String} {entry : Entry}
    (ok : addEntry source t (names, entry) = .ok t') :
    entry = .dir ∧ t.addNamespace (belowRoot source names) names = .ok t' ∨
      entry ≠ .dir ∧
        ((∃ kind, SourceKind.ofPath? (belowRoot source names) = some kind ∧
          t.addSource (belowRoot source names) kind = .ok t') ∨
        SourceKind.ofPath? (belowRoot source names) = none ∧ t' = t) := by
  unfold addEntry at ok
  split at ok
  case h_1 dir => exact .inl ⟨dir, ok⟩
  case h_2 other =>
    refine .inr ⟨other, ?_⟩
    dsimp only at ok
    split at ok
    case h_1 kind hk => exact .inl ⟨kind, hk, ok⟩
    case h_2 none_ => exact .inr ⟨none_, (Except.ok.inj ok).symm⟩

/-- Claiming a name changes the claims alone, and loses none. -/
theorem claim_ok {t t' : Tree} {module : String} {kind : MemberKind} {owner : Path}
    (h : t.claim module kind owner = .ok t') :
    ∃ claims, t' = { t with claims } ∧ t.claims ⊆ claims ∧ Claimed claims module kind ∧
      ((t.claims.map Claim.module).Nodup → (claims.map Claim.module).Nodup) := by
  unfold claim at h
  split at h
  case h_1 e =>
    obtain rfl := Except.ok.inj h
    refine ⟨_, rfl, List.subset_cons_self _ _, ⟨_, List.mem_cons_self, rfl, rfl⟩, fun differ => ?_⟩
    refine List.nodup_cons.2 ⟨fun held => ?_, differ⟩
    obtain ⟨c, hc, e'⟩ := List.mem_map.1 held
    exact List.find?_eq_none.1 e c hc (by simpa using e')
  case h_2 held e =>
    split at h
    case isTrue same =>
      obtain rfl := Except.ok.inj h
      exact ⟨t.claims, rfl, List.Subset.refl _,
        ⟨held, List.mem_of_find?_eq_some e, by simpa using List.find?_some e, same.1⟩, id⟩
    case isFalse => simp at h

/-- What holds of the tree of any project that a scan accepts. -/
structure Shaped (sources : List Path) (t : Tree) : Prop where
  below : ∀ ns ∈ t.namespaces, ∃ source ∈ sources, ns.LiesBelow source
  claimed : ∀ ns ∈ t.namespaces, Claimed t.claims ns.moduleName .subNamespace
  ordered : t.namespaces.Pairwise (·.dir.order ·.dir = .lt)
  made : ∀ f ∈ t.files, ∃ components stem, f.Made components stem
  file_claimed : ∀ f ∈ t.files, Claimed t.claims f.virtualModule .leafModule
  files_ordered : t.files.Pairwise (·.virtualPath.order ·.virtualPath = .lt)
  differ : (t.claims.map Claim.module).Nodup

theorem namespaces_updateScope (t : Tree) (dir : Path) {f : Scope → Scope}
    (h : ∀ s, (f s).ns = s.ns) : (t.updateScope dir f).namespaces = t.namespaces := by
  simp only [namespaces, updateScope, List.map_map]
  refine List.map_congr_left fun s _ => ?_
  by_cases e : s.ns.dir.same dir <;> simp [e, h]

theorem map_insertInOrder {α β : Type} (f : α → β) (order : β → β → Ordering) (x : α)
    (xs : List α) :
    (insertInOrder (fun a b => order (f a) (f b)) x xs).map f =
      insertInOrder order (f x) (xs.map f) := by
  induction xs with
  | nil => rfl
  | cons y ys ih =>
    simp only [insertInOrder, List.map_cons]
    cases order (f x) (f y) <;> simp [ih]

theorem namespaces_putScope (t : Tree) (s : Scope) :
    (t.putScope s).namespaces =
      insertInOrder (fun a b => a.dir.order b.dir) s.ns t.namespaces :=
  map_insertInOrder Scope.ns (fun a b => a.dir.order b.dir) s t.scopes

instance : Std.TransCmp fun a b : Namespace => a.dir.order b.dir :=
  inferInstanceAs (Std.TransCmp (compareOn fun a : Namespace => a.dir.parts))

instance : Std.TransCmp fun a b : NamespacedFile => a.virtualPath.order b.virtualPath :=
  inferInstanceAs (Std.TransCmp (compareOn fun a : NamespacedFile => a.virtualPath.parts))

namespace Shaped

variable {sources : List Path} {t t' : Tree}

theorem start (executables : List ExecutableConfig) : Shaped sources { executables } := by
  constructor <;> simp [namespaces]

/-- More claims, each for a name of its own, change nothing. -/
theorem claim (h : Shaped sources t) {module : String} {kind : MemberKind} {owner : Path}
    (ok : t.claim module kind owner = .ok t') :
    Shaped sources t' ∧ Claimed t'.claims module kind := by
  obtain ⟨claims, rfl, sub, claimed, differ⟩ := claim_ok ok
  refine ⟨{ h with claimed := fun ns hns => ?_, file_claimed := fun f hf => ?_, differ := ?_ },
    claimed⟩
  · exact (h.claimed ns hns).imp fun c hc => ⟨sub hc.1, hc.2⟩
  · exact (h.file_claimed f hf).imp fun c hc => ⟨sub hc.1, hc.2⟩
  · exact differ h.differ

theorem of_namespaces_eq (h : Shaped sources t) (e : t'.namespaces = t.namespaces)
    (ef : t'.files = t.files) (ec : t'.claims = t.claims) : Shaped sources t' where
  below := e ▸ h.below
  claimed := by rw [e, ec]; exact h.claimed
  ordered := e ▸ h.ordered
  made := ef ▸ h.made
  file_claimed := by rw [ef, ec]; exact h.file_claimed
  files_ordered := ef ▸ h.files_ordered
  differ := ec ▸ h.differ

theorem putScope (h : Shaped sources t) {s : Scope} (hs : ∃ source ∈ sources, s.ns.LiesBelow source)
    (claimed : Claimed t.claims s.ns.moduleName .subNamespace) :
    Shaped sources (t.putScope s) := by
  refine { h with below := fun ns hns => ?_, claimed := fun ns hns => ?_, ordered := ?_ }
  · rw [namespaces_putScope] at hns
    rcases mem_of_mem_insertInOrder hns with rfl | hns
    · exact hs
    · exact h.below ns hns
  · rw [namespaces_putScope] at hns
    rcases mem_of_mem_insertInOrder hns with rfl | hns
    · exact claimed
    · exact h.claimed ns hns
  · rw [namespaces_putScope]
    exact pairwise_insertInOrder h.ordered

theorem putFile (h : Shaped sources t) {f : NamespacedFile}
    (made : ∃ components stem, f.Made components stem)
    (claimed : Claimed t.claims f.virtualModule .leafModule) :
    Shaped sources (t.putFile f) := by
  refine { h with made := fun g hg => ?_, file_claimed := fun g hg => ?_, files_ordered := ?_ }
  · rcases mem_of_mem_insertInOrder hg with rfl | hg
    · exact made
    · exact h.made g hg
  · rcases mem_of_mem_insertInOrder hg with rfl | hg
    · exact claimed
    · exact h.file_claimed g hg
  · exact pairwise_insertInOrder h.files_ordered

theorem addNamespace (h : Shaped sources t) {source : Path} (hs : source ∈ sources)
    {names : List String} (hne : names ≠ []) (valid : ∀ n ∈ names, isComponent n = true)
    (ok : t.addNamespace (belowRoot source names) names = .ok t') : Shaped sources t' := by
  rw [belowRoot, div_intercalate hne fun n hn => isName_of_isComponent (valid n hn)] at ok
  have lies : (namespaceFor (source.below names) names).LiesBelow source := ⟨hne, valid, rfl⟩
  simp only [Tree.addNamespace] at ok
  cases e : t.claim (namespaceFor (source.below names) names).moduleName .subNamespace
      (source.below names) with
  | error e' => simp [e, bind, Except.bind] at ok
  | ok t₁ =>
    obtain ⟨h₁, claimed⟩ := h.claim e
    simp only [e, bind, Except.bind, pure, Except.pure, Except.ok.injEq] at ok
    subst ok
    refine putScope (s := ⟨_, [], []⟩) ?_ ⟨source, hs, lies⟩ ?_
    · split
      · exact h₁.of_namespaces_eq (namespaces_updateScope _ _ fun _ => rfl) rfl rfl
      · exact h₁.of_namespaces_eq rfl rfl rfl
    · split <;> exact claimed

theorem addSource (h : Shaped sources t) {path : Path} {kind : SourceKind}
    (hk : SourceKind.ofPath? path = some kind) (ok : t.addSource path kind = .ok t') :
    Shaped sources t' := by
  unfold Tree.addSource at ok
  split at ok
  case h_1 =>
    obtain rfl := Except.ok.inj ok
    exact h
  case h_2 stem hstem =>
    by_cases valid : isComponent stem = true
    · simp only [valid, Bool.not_true, Bool.false_eq_true, ↓reduceIte] at ok
      split at ok
      case h_1 => exact (h.claim ok).1
      case h_2 s hs =>
        have mem : s.ns ∈ t.namespaces := List.mem_map_of_mem (List.mem_of_find?_eq_some hs)
        obtain ⟨source, -, lies⟩ := h.below s.ns mem
        have made := made_fileFor lies hk hstem valid (path.parent?.getD Path.empty)
        cases e : t.claim (fileFor s.ns (path.parent?.getD Path.empty) path stem kind).virtualModule
            .leafModule (path.withExtension "") with
        | error e' => simp [e, bind, Except.bind] at ok
        | ok t₁ =>
          obtain ⟨h₁, claimed⟩ := h.claim e
          simp only [e, bind, Except.bind, pure, Except.pure, Except.ok.injEq] at ok
          subst ok
          refine putFile ?_ ⟨_, _, made⟩ claimed
          exact h₁.of_namespaces_eq (namespaces_updateScope _ _ fun _ => rfl) rfl rfl
    · simp only [valid, Bool.not_false, ↓reduceIte] at ok
      obtain rfl := Except.ok.inj ok
      exact h

end Shaped

/-- What is found below a place. -/
theorem mem_below {d : Disk} {place : Place} {names : List String} {entry : Entry} :
    (names, entry) ∈ d.below place ↔ names ≠ [] ∧ (place ++ names, entry) ∈ d.entries := by
  rw [Disk.below, mem_sortBy, List.mem_filterMap]
  constructor
  · rintro ⟨⟨at_, entry'⟩, mem, h⟩
    obtain ⟨names', under, e⟩ := Option.map_eq_some_iff.1 h
    obtain ⟨rfl, rfl⟩ := Prod.mk.inj e
    unfold Disk.underneath? at under
    split at under
    case isFalse => simp at under
    case isTrue below =>
      obtain ⟨rest, rfl⟩ := List.isPrefixOf_iff_prefix.1 below.1
      obtain rfl : rest = names' := by simpa using under
      exact ⟨fun e => below.2 (by simp [e]), mem⟩
  · rintro ⟨hne, mem⟩
    refine ⟨_, mem, ?_⟩
    have ne : place ≠ place ++ names := fun e => hne (by simpa using e)
    simp [Disk.underneath?, ne]

namespace Shaped

variable {sources : List Path} {t t' : Tree}

theorem addEntry (h : Shaped sources t) {source : Path} (hs : source ∈ sources)
    {names : List String} {entry : Entry} (hne : names ≠ []) (visible : isVisible names entry = true)
    (ok : addEntry source t (names, entry) = .ok t') : Shaped sources t' := by
  rcases addEntry_ok ok with ⟨rfl, ok⟩ | ⟨-, ⟨kind, hk, ok⟩ | ⟨-, rfl⟩⟩
  · have valid : ∀ n ∈ names, isComponent n = true := by simpa [isVisible] using visible
    exact h.addNamespace hs hne valid ok
  · exact h.addSource hk ok
  · exact h

theorem addSourceDir (h : Shaped sources t) {d : Disk} {root source : Path} (hs : source ∈ sources)
    (ok : t.addSourceDir d root source = .ok t') : Shaped sources t' := by
  dsimp only [Tree.addSourceDir] at ok
  generalize d.isDir (root / source) = isDir at ok
  generalize d.locate .target (root / source) = located at ok
  split at ok
  case h_1 place =>
    refine foldlM_ok_induction (fun t x t' hx h ok => ?_) h ok
    obtain ⟨found, visible⟩ := List.mem_filter.1 hx
    exact h.addEntry hs (mem_below.1 found).1 visible ok
  case h_2 =>
    obtain rfl := Except.ok.inj ok
    exact h

theorem addLibrary (h : Shaped sources t) {library : Path} (ok : t.addLibrary library = .ok t') :
    Shaped sources t' := by
  unfold Tree.addLibrary at ok
  split at ok
  · obtain rfl := Except.ok.inj ok
    exact h.of_namespaces_eq rfl rfl rfl
  · simp at ok

/-- The tree of a project has its shape. -/
theorem scan {d : Disk} {root : Path} {config : Config} (ok : Tree.scan d root config = .ok t) :
    Shaped config.sourceDirs t := by
  unfold Tree.scan at ok
  cases e : config.sourceDirs.foldlM (Tree.addSourceDir d root)
      { executables := config.executables } with
  | error e' => simp [e, bind, Except.bind] at ok
  | ok t₁ =>
    simp only [e, bind, Except.bind] at ok
    have h₁ : Shaped config.sourceDirs t₁ :=
      foldlM_ok_induction (fun _ _ _ hs h ok => h.addSourceDir hs ok) (start _) e
    exact foldlM_ok_induction (fun _ _ _ _ h ok => h.addLibrary ok) h₁ ok

end Shaped

end Tree
end FlatModules
