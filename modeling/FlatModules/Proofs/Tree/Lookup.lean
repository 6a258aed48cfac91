import FlatModules.Proofs.Tree.Shape

/-!
# Trees — finding namespaces and files

What the metadata of a scanned tree answers about its own paths: each namespace is found at its
directory and from its root path, each file at its virtual path (`Shaped.fileAt?_virtualPath`), and
no file at the path of a generated root or alias module (`Shaped.fileAt?_target`).
-/

namespace FlatModules

open Naming Path

namespace NamespacedFile.Made

variable {f : NamespacedFile} {components : List String} {stem : String}

theorem isStem (h : f.Made components stem) : IsStem (flatName (components ++ [stem])) :=
  isStem_flatName (by simp) h.valid

theorem isName (h : f.Made components stem) :
    IsName (flatName (components ++ [stem]) ++ "." ++ f.kind.extension) := by
  rw [String.append_assoc]
  exact h.isStem.append (by simpa using f.kind.noSlash_extension)

theorem fileName?_virtualPath (h : f.Made components stem) :
    f.virtualPath.fileName? = some (flatName (components ++ [stem]) ++ "." ++ f.kind.extension) := by
  rw [h.virtualPath_eq, fileName?_div h.isName]

/-- The path under the flat name, extension apart. -/
theorem virtualPath_eq_append (h : f.Made components stem) :
    f.virtualPath =
      (f.dir / ⟨flatName (components ++ [stem])⟩).append ("." ++ f.kind.extension) := by
  have name := h.isName
  rw [String.append_assoc] at name
  rw [append_div h.isStem.isName name, h.virtualPath_eq, String.append_assoc]

theorem stem?_virtualPath (h : f.Made components stem) :
    (Rule.link f.kind).product.stem? f.virtualPath =
      some (f.dir / ⟨flatName (components ++ [stem])⟩).text := by
  rw [h.virtualPath_eq_append]
  exact (Rule.link f.kind).stem?_append (text_div_ne_empty h.isStem.isName)

theorem stem?_depends (h : f.Made components stem) :
    (Rule.depends f.kind).product.stem? (f.virtualPath.append dependsSuffix) =
      some (f.dir / ⟨flatName (components ++ [stem])⟩).text := by
  rw [h.virtualPath_eq_append, append_append]
  exact (Rule.depends f.kind).stem?_append (text_div_ne_empty h.isStem.isName)

end NamespacedFile.Made

theorem Path.fileName?_congr {p q : Path} (h : p.parts = q.parts) : p.fileName? = q.fileName? := by
  rw [fileName?, fileName?, h]

theorem Namespace.LiesBelow.fileName?_target {ns : Namespace} {source : Path}
    (h : ns.LiesBelow source) {r : Rule} (hr : '/' ∉ r.ending.toList) :
    (ns.target r).fileName? = some (ns.flatName ++ r.ending) := by
  rw [Namespace.target, h.rootPath_append hr, fileName?_div (h.isStem.append hr)]

namespace Tree.Shaped

variable {sources : List Path} {t : Tree}

theorem scopeAt?_eq (h : Shaped sources t) {s : Scope} (hs : s ∈ t.scopes) {dir : Path}
    (e : dir.parts = s.ns.dir.parts) : t.scopeAt? dir = some s := by
  have ordered : t.scopes.Pairwise fun a b => a.ns.dir.order b.ns.dir = .lt :=
    List.pairwise_map.1 h.ordered
  have : Std.TransCmp fun a b : Scope => a.ns.dir.order b.ns.dir :=
    inferInstanceAs (Std.TransCmp (compareOn fun a : Scope => a.ns.dir.parts))
  refine find?_eq_some_of_unique hs (same_iff.2 e.symm) fun s' hs' e' => ?_
  exact eq_of_pairwise_lt (c := fun a b : Scope => a.ns.dir.order b.ns.dir) ordered hs' hs
    (order_eq_iff.2 ((same_iff.1 e').trans e))

theorem namespaceAt?_eq (h : Shaped sources t) {ns : Namespace} (hn : ns ∈ t.namespaces)
    {dir : Path} (e : dir.parts = ns.dir.parts) : t.metadata.namespaceAt? dir = some ns := by
  obtain ⟨s, hs, rfl⟩ := List.mem_map.1 hn
  change (t.scopeAt? dir).map (·.ns) = _
  rw [h.scopeAt?_eq hs e]
  rfl

/-- A root path leads back to its namespace. -/
theorem namespaceOfRoot?_rootPath (h : Shaped sources t) {ns : Namespace}
    (hn : ns ∈ t.namespaces) : t.metadata.namespaceOfRoot? ns.rootPath = some ns := by
  obtain ⟨source, -, lies⟩ := h.below ns hn
  obtain ⟨dir, hd, e⟩ := lies.dirOfRoot?_rootPath
  simp [Metadata.namespaceOfRoot?, hd, h.namespaceAt?_eq hn e]

theorem eq_of_virtualPath (h : Shaped sources t) {f g : NamespacedFile} (hf : f ∈ t.files)
    (hg : g ∈ t.files) (e : f.virtualPath.parts = g.virtualPath.parts) : f = g :=
  eq_of_pairwise_lt (c := fun a b : NamespacedFile => a.virtualPath.order b.virtualPath)
    h.files_ordered hf hg (order_eq_iff.2 e)

theorem fileAt?_eq (h : Shaped sources t) {f : NamespacedFile} (hf : f ∈ t.files) {path : Path}
    (e : path.parts = f.virtualPath.parts) : t.fileAt? path = some f :=
  find?_eq_some_of_unique hf (same_iff.2 e.symm) fun _ hg e' =>
    h.eq_of_virtualPath hg hf ((same_iff.1 e').trans e)

theorem fileAt?_virtualPath (h : Shaped sources t) {f : NamespacedFile} (hf : f ∈ t.files) :
    t.fileAt? f.virtualPath = some f :=
  h.fileAt?_eq hf rfl

/-- A file is seen only at a path that ends in its flat name. -/
theorem exists_made_of_fileAt? (h : Shaped sources t) {path : Path} {f : NamespacedFile}
    (e : t.fileAt? path = some f) :
    f ∈ t.files ∧ ∃ components stem, f.Made components stem ∧
      path.fileName? = some (flatName (components ++ [stem]) ++ "." ++ f.kind.extension) := by
  unfold fileAt? at e
  have hf : f ∈ t.files := List.mem_of_find?_eq_some e
  have same := List.find?_some e
  obtain ⟨components, stem, made⟩ := h.made f hf
  refine ⟨hf, components, stem, made, ?_⟩
  rw [← made.fileName?_virtualPath]
  exact (fileName?_congr (same_iff.1 same)).symm

/-- No file is seen at the path of a namespace's root module or of its alias module. -/
theorem fileAt?_target (h : Shaped sources t) {ns : Namespace} (hn : ns ∈ t.namespaces) {r : Rule}
    (hr : r = .root ∨ r = .aliases) : t.fileAt? (ns.target r) = none := by
  cases e : t.fileAt? (ns.target r) with
  | none => rfl
  | some f =>
    exfalso
    obtain ⟨source, -, lies⟩ := h.below ns hn
    obtain ⟨hf, components, stem, made, name⟩ := h.exists_made_of_fileAt? e
    rcases hr with rfl | rfl
    · rw [lies.fileName?_target (by decide)] at name
      have same : ns.flatName ++ "." ++ SourceKind.implementation.extension =
          flatName (components ++ [stem]) ++ "." ++ f.kind.extension := by
        simpa [Rule.ending, String.append_assoc] using name
      obtain ⟨flat, -⟩ := lies.isStem.inj made.isStem same
      have leaf := h.file_claimed f hf
      rw [made.virtualModule_eq, ← flat, ← lies.moduleName_eq] at leaf
      exact absurd ((h.claimed ns hn).kind_eq h.differ leaf) (by decide)
    · rw [lies.fileName?_target (by decide)] at name
      have same : ns.flatName ++ aliasesSuffix ++ "." ++ SourceKind.implementation.extension =
          flatName (components ++ [stem]) ++ "." ++ f.kind.extension := by
        simpa [Rule.ending, String.append_assoc] using name
      have stem_ : IsStem (ns.flatName ++ aliasesSuffix) :=
        ⟨lies.isStem.append (by decide), by
          simpa using ⟨lies.isStem.noDot, by decide⟩⟩
      obtain ⟨flat, -⟩ := stem_.inj made.isStem same
      exact flatName_ne_append_aliases made.valid _ flat.symm

theorem fileOfKind?_target (h : Shaped sources t) {ns : Namespace} (hn : ns ∈ t.namespaces)
    {r : Rule} (hr : r = .root ∨ r = .aliases) (kind : SourceKind) :
    t.metadata.fileOfKind? kind (ns.target r) = none := by
  have none_ : t.metadata.fileAt? (ns.target r) = none := h.fileAt?_target hn hr
  simp [Metadata.fileOfKind?, none_]

theorem fileOfKind?_virtualPath (h : Shaped sources t) {f : NamespacedFile} (hf : f ∈ t.files) :
    t.metadata.fileOfKind? f.kind f.virtualPath = some f := by
  have some_ : t.metadata.fileAt? f.virtualPath = some f := h.fileAt?_virtualPath hf
  simp [Metadata.fileOfKind?, some_]

end Tree.Shaped

/-! ### Sample trees -/

/-- The tree of the project at `/p`; one without anything if it has none. -/
def sampleTree (d : Disk) (config : Config) : Tree :=
  ((Tree.scan d ⟨"/p"⟩ config).toOption).getD {}

/-- The settings of a project with sources in `lib`. -/
def libConfig : Config := { sourceDirs := [⟨"lib"⟩] }

theorem scan_sampleTree {d : Disk} {c : Config}
    (h : (Tree.scan d ⟨"/p"⟩ c).toOption.isSome = true) :
    Tree.scan d ⟨"/p"⟩ c = .ok (sampleTree d c) := by
  unfold sampleTree
  cases e : Tree.scan d ⟨"/p"⟩ c with
  | ok t => rfl
  | error e' => simp [e, Except.toOption] at h

end FlatModules
