import FlatModules.Proofs.Path.Below
import FlatModules.Tree.Scan
import FlatModules.Build.Apply

/-!
# Trees — the files of a namespace

The namespace that components spell below a source root (`Namespace.LiesBelow`) and the paths of
its generated files.  Each of these is one name below the path above the namespace's directory
(`Namespace.target_eq`), and the stem of that name leads back to the directory
(`Namespace.LiesBelow.dirOfRoot?_rootPath`).
-/

namespace FlatModules

open Naming Path

/-- A namespace as a scan makes it: at the directory that its components spell below a source. -/
structure Namespace.LiesBelow (ns : Namespace) (source : Path) : Prop where
  ne_nil : ns.components ≠ []
  valid : ∀ c ∈ ns.components, isComponent c = true
  eq : ns = Tree.namespaceFor (source.below ns.components) ns.components

/-- The path above the directory of a namespace. -/
def Namespace.above (ns : Namespace) : Path := ns.dir.parent?.getD Path.empty

/-- The file that a rule generates for a namespace. -/
def Namespace.target (ns : Namespace) (r : Rule) : Path := ns.rootPath.append r.ending

/-- A rule's product takes a stem followed by the rule's ending. -/
theorem Rule.stem?_append (r : Rule) {root : Path} (h : root.text ≠ "") :
    r.product.stem? (root.append r.ending) = some root.text :=
  Pattern.stem?_ending_eq_some_iff.2 ⟨rfl, h⟩

namespace Namespace.LiesBelow

variable {ns : Namespace} {source : Path}

theorem flatName_eq (h : ns.LiesBelow source) : ns.flatName = Naming.flatName ns.components :=
  congrArg Namespace.flatName h.eq

theorem dir_eq (h : ns.LiesBelow source) : ns.dir = source.below ns.components :=
  congrArg Namespace.dir h.eq

theorem moduleName_eq (h : ns.LiesBelow source) :
    ns.moduleName = Naming.moduleName ns.flatName := by
  rw [h.flatName_eq]
  exact congrArg Namespace.moduleName h.eq

theorem parent_eq (h : ns.LiesBelow source) :
    ns.parent = if ns.components.length > 1 then ns.dir.parent? else none := by
  rw [h.dir_eq]
  exact congrArg Namespace.parent h.eq

theorem isName (h : ns.LiesBelow source) : ∀ c ∈ ns.components, IsName c :=
  fun c hc => isName_of_isComponent (h.valid c hc)

theorem isStem (h : ns.LiesBelow source) : IsStem ns.flatName := by
  rw [h.flatName_eq]
  exact isStem_flatName h.ne_nil h.valid

theorem parts_dir (h : ns.LiesBelow source) :
    ns.dir.parts = source.parts ++ ns.components.map Part.name := by
  rw [h.dir_eq, parts_below h.isName]

/-- The components before the last one, and the last one. -/
theorem exists_last (h : ns.LiesBelow source) :
    ∃ front last, ns.components = front ++ [last] ∧ (∀ c ∈ front, IsName c) ∧ IsName last := by
  obtain ⟨front, last, e⟩ := (List.eq_nil_or_concat' ns.components).resolve_left h.ne_nil
  exact ⟨front, last, e, fun c hc => h.isName c (by simp [e, hc]), h.isName last (by simp [e])⟩

theorem parent?_dir (h : ns.LiesBelow source) : ns.dir.parent? = some ns.above := by
  obtain ⟨front, last, e, -, hl⟩ := h.exists_last
  obtain ⟨above, some_, -⟩ := parent?_div (p := source.below front) hl
  rw [Namespace.above, h.dir_eq, e, below_append_singleton, some_]
  rfl

theorem parts_above (h : ns.LiesBelow source) :
    ns.above.parts = source.parts ++ ns.components.dropLast.map Part.name := by
  obtain ⟨front, last, e, hf, hl⟩ := h.exists_last
  obtain ⟨above, some_, parts⟩ := parent?_div (p := source.below front) hl
  rw [Namespace.above, h.dir_eq, e, below_append_singleton, some_, Option.getD_some, parts,
    parts_below hf, List.dropLast_concat]

/-- Above a namespace that is not directly below its source is another namespace's directory. -/
theorem above_eq (h : ns.LiesBelow source) (inner : ns.components.dropLast ≠ []) :
    ns.above = source.below ns.components.dropLast := by
  obtain ⟨front, last, e, hf, hl⟩ := h.exists_last
  rw [e, List.dropLast_concat] at inner
  obtain ⟨front', m, rfl⟩ := (List.eq_nil_or_concat' front).resolve_left inner
  rw [Namespace.above, h.dir_eq, e, List.dropLast_concat, below_append_singleton,
    below_append_singleton, parent?_div_div (hf m (by simp)) hl]
  rfl

theorem rootPath_eq (h : ns.LiesBelow source) : ns.rootPath = ns.above / ⟨ns.flatName⟩ := by
  have e : ns.rootPath = Naming.rootPath ns.dir ns.flatName := by
    rw [h.dir_eq, h.flatName_eq]
    exact congrArg Namespace.rootPath h.eq
  rw [e, Naming.rootPath, h.parent?_dir]

theorem rootPath_append (h : ns.LiesBelow source) {suffix : String} (hs : '/' ∉ suffix.toList) :
    ns.rootPath.append suffix = ns.above / ⟨ns.flatName ++ suffix⟩ := by
  rw [h.rootPath_eq, append_div h.isStem.isName (h.isStem.append hs)]

theorem rootPath_withExtension (h : ns.LiesBelow source) {extension : String}
    (hne : extension ≠ "") (hs : '/' ∉ extension.toList) :
    ns.rootPath.withExtension extension = ns.rootPath.append ("." ++ extension) := by
  rw [h.rootPath_append (by simpa using hs), h.rootPath_eq, withExtension_div h.isStem hne hs,
    String.append_assoc]

theorem rootFile_eq (h : ns.LiesBelow source) : ns.rootFile = ns.target .root :=
  h.rootPath_withExtension (by decide) (by decide)

theorem fileName?_rootPath (h : ns.LiesBelow source) : ns.rootPath.fileName? = some ns.flatName := by
  rw [h.rootPath_eq, fileName?_div h.isStem.isName]

theorem rootPath_ne_empty (h : ns.LiesBelow source) : ns.rootPath.text ≠ "" := by
  rw [h.rootPath_eq]
  exact text_div_ne_empty h.isStem.isName

/-- A root path leads back to the directory that it was made for. -/
theorem dirOfRoot?_rootPath (h : ns.LiesBelow source) :
    ∃ dir, dirOfRoot? ns.rootPath = some dir ∧ dir.parts = ns.dir.parts := by
  obtain ⟨front, last, e, hf, hl⟩ := h.exists_last
  obtain ⟨above, some_, parts⟩ := parent?_div (p := ns.above) h.isStem.isName
  have cut : componentsOf ns.flatName = front ++ [last] := by
    rw [h.flatName_eq, componentsOf_flatName h.ne_nil h.valid, e]
  have valid : (front ++ [last]).all isComponent = true := by
    rw [← e, List.all_eq_true]
    exact h.valid
  refine ⟨above / ⟨last⟩, ?_, ?_⟩
  · rw [← h.rootPath_eq] at some_
    simp only [dirOfRoot?, h.fileName?_rootPath, Option.bind_eq_bind, Option.bind_some, cut, valid,
      ↓reduceIte, List.getLast?_concat, some_]
  · rw [parts_div hl, parts, h.parts_above, h.parts_dir, e]
    simp

theorem stem?_target (h : ns.LiesBelow source) (r : Rule) :
    r.product.stem? (ns.target r) = some ns.rootPath.text :=
  r.stem?_append h.rootPath_ne_empty

end Namespace.LiesBelow

end FlatModules
