import FlatModules.Proofs.Build.Levels
import FlatModules.Proofs.Build.Spellings
import FlatModules.Proofs.Tree.Originals

/-!
# Build — root paths and namespaces

A root path tells the directory that it was made for (`Naming.dirOfRoot?_rootPath`), so that in a
scanned tree a path is the root path of at most one namespace, which is the one that is found for it
(`Tree.Shaped.namespaceOfRoot?_eq_some_iff`).  The rules for stamps, root modules and alias modules
accept the targets of that path if there is such a namespace, and work for it (`Context.apply_of_found`).
-/

namespace FlatModules

open Naming FlatModules.Path

/-! ### Directories -/

/-- A root path leads back to the directory that it was made for, if this is named by the last of the
components. -/
theorem Naming.dirOfRoot?_rootPath {dir : Path} {components : List String}
    (ne : components ≠ []) (valid : ∀ c ∈ components, isComponent c = true)
    (named : dir.fileName? = components.getLast?) :
    ∃ dir', dirOfRoot? (rootPath dir (flatName components)) = some dir' ∧ dir'.same dir = true := by
  obtain ⟨front, last, rfl⟩ := (List.eq_nil_or_concat' components).resolve_left ne
  rw [List.getLast?_concat] at named
  obtain ⟨above, up, parts⟩ := exists_parent?_of_fileName? named
  have flat := (isStem_flatName ne valid).isName
  have isName : IsName last := isName_of_isComponent (valid last (by simp))
  obtain ⟨above', up', parts'⟩ := parent?_div (p := above) flat
  have cut := componentsOf_flatName ne valid
  have all : (front ++ [last]).all isComponent = true := List.all_eq_true.2 valid
  refine ⟨above' / ⟨last⟩, ?_, same_iff.2 ?_⟩
  · simp only [rootPath, up, dirOfRoot?, fileName?_div flat, Option.bind_eq_bind, Option.bind_some,
      cut, all, ↓reduceIte, List.getLast?_concat, up']
  · rw [parts_div isName, parts', parts]

/-! ### Namespaces -/

namespace Tree.Shaped

variable {sources : List Path} {t : Tree} {ns ns' : Namespace}

/-- The namespace that is found for a path is the one whose root path this is. -/
theorem namespaceOfRoot?_eq_some_iff (h : t.Shaped sources) {root : Path} :
    t.metadata.namespaceOfRoot? root = some ns ↔
      ns ∈ t.namespaces ∧ ns.rootPath.same root = true := by
  constructor
  · intro found
    obtain ⟨mem, parts⟩ := Local.mem_namespaces_of_namespaceOfRoot? found
    exact ⟨mem, same_iff.2 parts⟩
  · rintro ⟨mem, same⟩
    rw [← t.metadata_byParts.namespaceOfRoot? (same_iff.1 same)]
    exact h.namespaceOfRoot?_rootPath mem

theorem eq_of_rootPath_same (h : t.Shaped sources) (hn : ns ∈ t.namespaces)
    (hn' : ns' ∈ t.namespaces) (same : ns.rootPath.same ns'.rootPath = true) : ns = ns' := by
  have found := h.namespaceOfRoot?_eq_some_iff.2 ⟨hn, same⟩
  rw [h.namespaceOfRoot?_rootPath hn'] at found
  exact (Option.some.inj found).symm

end Tree.Shaped

/-! ### The rules for generated files -/

namespace Context

variable {σ : Type} {c : Context σ}

/-- What a rule for a generated file of a namespace does once it knows the namespace. -/
def generate (c : Context σ) (root : Path) (ns : Namespace) : Rule → Attempt σ Applied
  | .stamp => do
    let closure := c.metadata.closure ns
    c.requireAll closure
    match Digest.digestFiles (← Attempt.disk) c.engine.buildDir closure with
    | .ok digest => c.writeOutput (root.append Rule.stamp.ending) (digest ++ "\n")
    | .error e => throw (.digest e)
  | .aliases => c.writeOutput (root.append Rule.aliases.ending) (aliasLines (c.metadata.members ns))
  | .root => do
    let stamp := c.outputPath (root.withExtension Rule.stampExtension)
    match (← Attempt.disk).readText stamp with
    | .ok digest =>
      let text := rootText ns.moduleName (trimmed digest) (aliasLines (c.metadata.members ns))
      c.writeOutput (root.append Rule.root.ending) text
    | .error e => throw (.disk stamp e)
  | r => r.apply c (root.append r.ending)

variable {root : Path} {ns : Namespace} {r : Rule}

/-- What a rule says of a target of its own that belongs to no namespace. -/
def noNamespace (root : Path) (r : Rule) : RuleError :=
  .notANamespace (if root.text = "" then root.append r.ending else root)

/-- The path with no text is no root path. -/
theorem text_ne_empty_of_namespaceOfRoot? (found : c.metadata.namespaceOfRoot? root = some ns) :
    root.text ≠ "" := by
  rintro empty
  obtain rfl : root = ⟨""⟩ := congrArg Path.mk empty
  exact absurd found (by simp [Metadata.namespaceOfRoot?, show dirOfRoot? ⟨""⟩ = none from rfl])

theorem orThrow_some {α : Type} (a : α) (e : RuleError) :
    (orThrow (some a) e : Attempt σ α) = pure a := rfl

theorem stem?_append_of_empty (r : Rule) (empty : root.text = "") :
    r.product.stem? (root.append r.ending) = none := by
  cases known : r.product.stem? (root.append r.ending) with
  | none => rfl
  | some stem =>
    obtain ⟨text, ne⟩ := Pattern.stem?_ending_eq_some_iff.1 known
    refine absurd (String.append_left_inj r.ending |>.1 ?_) ne
    rw [← text, Path.append, empty]

/-- The namespace of a target is looked for at what stands before the rule's ending. -/
theorem namespaceOf_append (r : Rule) (found : c.metadata.namespaceOfRoot? root = some ns) :
    c.namespaceOf r (root.append r.ending) = pure ns := by
  rw [namespaceOf, r.stem?_append (text_ne_empty_of_namespaceOfRoot? found)]
  change orThrow (c.metadata.namespaceOfRoot? root) _ = _
  rw [found]
  rfl

theorem namespaceOf_append_of_none (r : Rule) (missing : c.metadata.namespaceOfRoot? root = none)
    (w : World σ) :
    (c.namespaceOf r (root.append r.ending)).run w = some (.error (noNamespace root r), w) := by
  unfold namespaceOf noNamespace
  by_cases empty : root.text = ""
  · rw [stem?_append_of_empty r empty, if_pos empty]
    exact Attempt.bind_of_error (Attempt.orThrow_none_run _)
  · rw [r.stem?_append empty, if_neg empty, Attempt.bind_of_ok (Attempt.orThrow_some_run _ _)]
    change (orThrow (c.metadata.namespaceOfRoot? root) _ : Attempt σ _).run w = _
    rw [missing, Attempt.orThrow_none_run]

/-- The rules whose targets are the generated files of a namespace, its manifest apart. -/
def generators : List Rule := [.stamp, .root, .aliases]

/-- A target of a namespace's root path is accepted, and made for this namespace. -/
theorem apply_of_found (hr : r ∈ generators)
    (found : c.metadata.namespaceOfRoot? root = some ns) :
    r.apply c (root.append r.ending) = c.generate root ns r := by
  have looked := namespaceOf_append (c := c) r found
  simp only [generators, List.mem_cons, List.not_mem_nil, or_false] at hr
  obtain rfl | rfl | rfl := hr
  · rw [Rule.apply, writeStamp, looked, pure_bind]
    rfl
  · rw [Rule.apply, writeRoot, looked,
      Rule.root.stem?_append (text_ne_empty_of_namespaceOfRoot? found), orThrow_some, pure_bind,
      pure_bind]
    rfl
  · rw [Rule.apply, writeAliases, looked, pure_bind, generate]

/-- What is made for a namespace is written, unless the making fails for good. -/
theorem writes_generate (hr : r ∈ generators) :
    Local.Writes (root.append r.ending) (c.generate root ns r) := by
  simp only [generators, List.mem_cons, List.not_mem_nil, or_false] at hr
  obtain rfl | rfl | rfl := hr
  · refine .bind (.requireAll _) fun _ => .bind .disk fun d => ?_
    split
    · exact .writeOutput _
    · exact .throw rfl
  · refine .bind .disk fun d => ?_
    split
    · exact .writeOutput _
    · exact .throw rfl
  · exact .writeOutput _

/-- A target of any other path is declined, and nothing is done. -/
theorem apply_of_none (hr : r ∈ generators) (missing : c.metadata.namespaceOfRoot? root = none)
    (w : World σ) :
    (r.apply c (root.append r.ending)).run w = some (.error (noNamespace root r), w) := by
  have looked := namespaceOf_append_of_none (c := c) r missing w
  simp only [generators, List.mem_cons, List.not_mem_nil, or_false] at hr
  obtain rfl | rfl | rfl := hr
  · exact Attempt.bind_of_error looked
  · change (c.writeRoot _).run w = _
    unfold writeRoot
    by_cases empty : root.text = ""
    · rw [stem?_append_of_empty .root empty, noNamespace, if_pos empty]
      exact Attempt.bind_of_error (Attempt.orThrow_none_run _)
    · rw [Rule.root.stem?_append empty, Attempt.bind_of_ok (Attempt.orThrow_some_run _ _)]
      exact Attempt.bind_of_error looked
  · exact Attempt.bind_of_error looked

end Context

/-! ### Scanned trees -/

namespace Tree

variable {d : Disk} {root : Path} {config : Config} {t : Tree}

/-- Root paths and namespaces determine each other.  A flat name can be cut back into the components
that it was joined from, and the root path made from it leads back to the directory.  Two namespaces of a
scanned tree have different root paths; and the rules for stamps, root modules and alias modules take a
path followed by their ending if it is the root path of a namespace, which they then work for, and
decline it otherwise. -/
theorem root_paths_of_namespaces (ok : scan d root config = .ok t) :
    (∀ components ≠ [], (∀ c ∈ components, isComponent c = true) →
      componentsOf (flatName components) = components ∧
      (∀ others ≠ [], (∀ c ∈ others, isComponent c = true) →
        flatName components = flatName others → components = others) ∧
      ∀ dir : Path, dir.fileName? = components.getLast? →
        ∃ dir', dirOfRoot? (rootPath dir (flatName components)) = some dir' ∧
          dir'.same dir = true) ∧
    (∀ ns ∈ t.namespaces, ∀ ns' ∈ t.namespaces, ns ≠ ns' → ns.rootPath.same ns'.rootPath = false) ∧
    ∀ (σ : Type) (c : Context σ), c.metadata = t.metadata → ∀ r ∈ Context.generators, ∀ path : Path,
      (∀ ns ∈ t.namespaces, ns.rootPath.same path = true →
        r.apply c (path.append r.ending) = c.generate path ns r ∧
          Local.Writes (path.append r.ending) (r.apply c (path.append r.ending))) ∧
      ((∀ ns ∈ t.namespaces, ns.rootPath.same path = false) → ∀ w,
        (r.apply c (path.append r.ending)).run w = some (.error (Context.noNamespace path r), w)) := by
  have shaped := Shaped.scan ok
  refine ⟨fun components ne valid => ⟨componentsOf_flatName ne valid, fun others ne' valid' same =>
    flatName_inj ne ne' valid valid' same, fun dir named => dirOfRoot?_rootPath ne valid named⟩, ?_, ?_⟩
  · intro ns hn ns' hn' apart
    rw [Bool.eq_false_iff]
    exact fun same => apart (shaped.eq_of_rootPath_same hn hn' same)
  · intro σ c hm r hr path
    constructor
    · intro ns hn same
      have found : c.metadata.namespaceOfRoot? path = some ns := by
        rw [hm]
        exact shaped.namespaceOfRoot?_eq_some_iff.2 ⟨hn, same⟩
      have apply := Context.apply_of_found hr found
      exact ⟨apply, apply ▸ Context.writes_generate hr⟩
    · intro apart w
      refine Context.apply_of_none hr ?_ w
      rw [hm, Option.eq_none_iff_forall_ne_some]
      intro ns found
      obtain ⟨hn, same⟩ := shaped.namespaceOfRoot?_eq_some_iff.1 found
      exact absurd same (by rw [apart ns hn]; decide)

set_option maxRecDepth 100000 in
/-- In a project with a namespace inside another one, the root path of the inner one in another
spelling, and a path that differs from it by the directory alone. -/
theorem root_paths_of_namespaces_innerDisk :
    let p := Local.sampleProject innerDisk libConfig
    scan innerDisk ⟨"/p"⟩ libConfig = .ok (sampleTree innerDisk libConfig) ∧
      ∃ ns ∈ (sampleTree innerDisk libConfig).namespaces, ns.rootPath = ⟨"lib/foo/foo__bar"⟩ ∧
        ∀ build, Rule.stamp.apply (Local.contextOf p build) ⟨"lib//foo/./foo__bar.stamp"⟩ =
            (Local.contextOf p build).generate ⟨"lib//foo/./foo__bar"⟩ ns .stamp ∧
          ∀ w, (Rule.stamp.apply (Local.contextOf p build) ⟨"lib/foo__bar.stamp"⟩).run w =
            some (.error (.notANamespace ⟨"lib/foo__bar"⟩), w) := by
  intro p
  have accepted := scan_sampleTree (d := innerDisk) (c := libConfig) (by decide +kernel)
  obtain ⟨-, -, rules⟩ := root_paths_of_namespaces accepted
  obtain ⟨ns, hn, root⟩ : ∃ ns ∈ (sampleTree innerDisk libConfig).namespaces,
      ns.rootPath = ⟨"lib/foo/foo__bar"⟩ := by decide +kernel
  have same : ns.rootPath.same ⟨"lib//foo/./foo__bar"⟩ = true := by
    rw [root]
    decide
  refine ⟨accepted, ns, hn, root, fun build => ?_⟩
  have stamp := rules _ (Local.contextOf p build) rfl .stamp (by decide)
  exact ⟨((stamp ⟨"lib//foo/./foo__bar"⟩).1 ns hn same).1,
    (stamp ⟨"lib/foo__bar"⟩).2 (by decide +kernel)⟩

end Tree
end FlatModules
