import FlatModules.Proofs.Build.Keys
import FlatModules.Proofs.Build.Termination
import FlatModules.Proofs.Tree.Closure

/-!
# Build — artifacts

What a build can be asked for because of a tree (`Artifact`), and where each artifact lies below its
source directory (`Artifact.Sits`).  Below sources that are apart no two artifacts of a tree are at
one place (`Tree.Has.eq_of_names`).
-/

namespace FlatModules

open Naming Path

/-- A path to a file in a directory of components below a source. -/
structure Path.Lies (p source : Path) (components : List String) (file : String) : Prop where
  valid : ∀ c ∈ components, isComponent c = true
  isName : IsName file
  dotted : '.' ∈ file.toList
  plain : '<' ∉ file.toList
  spelled : ∃ q, p = q / ⟨file⟩ ∧ q.parts = source.parts ++ components.map Part.name

/-- A source that leads straight down to its directory. -/
structure Path.Direct (source : Path) : Prop where
  relative : source.isAbsolute = false
  noUp : ".." ∉ source.names

section Lies

variable {p source : Path} {components : List String} {file : String}

theorem Path.Lies.straight (h : p.Lies source components file) (direct : source.Direct) :
    p.Straight (source.names ++ components) file := by
  obtain ⟨q, rfl, e⟩ := h.spelled
  exact straight_of_parts direct.relative direct.noUp e
    (fun c hc => isName_of_isComponent (h.valid c hc)) h.isName

theorem Path.Lies.parts (h : p.Lies source components file) :
    p.parts = source.parts ++ (components ++ [file]).map Part.name := by
  obtain ⟨q, rfl, e⟩ := h.spelled
  rw [parts_div h.isName, e]
  simp

theorem Path.Lies.names (h : p.Lies source components file) :
    p.names = source.names ++ (components ++ [file]) :=
  names_of_parts h.parts

theorem isName_append_depends {file : String} (h : IsName file) :
    IsName (file ++ dependsSuffix) := by
  have long (short : String) (hs : short.length < 8) : file ++ dependsSuffix ≠ short := by
    rintro rfl
    have : dependsSuffix.length = 8 := by decide
    rw [String.length_append] at hs
    omega
  refine ⟨long _ (by decide), ?_, long _ (by decide), long _ (by decide)⟩
  rw [String.toList_append, List.mem_append, not_or]
  exact ⟨h.noSlash, by decide⟩

/-- The dependencies of a file lie beside it. -/
theorem Path.Lies.depends (h : p.Lies source components file) :
    (p.append dependsSuffix).Lies source components (file ++ dependsSuffix) := by
  obtain ⟨q, rfl, e⟩ := h.spelled
  have name := isName_append_depends h.isName
  refine ⟨h.valid, name, ?_, ?_, q, append_div h.isName name, e⟩
  · rw [String.toList_append]
    exact List.mem_append_left _ h.dotted
  · rw [String.toList_append, List.mem_append, not_or]
    exact ⟨h.plain, by decide⟩

end Lies

/-- What a build can be asked for because of a tree. -/
inductive Artifact where
  /-- The file of the project behind a namespaced source file. -/
  | original (file : NamespacedFile)
  /-- The source file under its flat name. -/
  | virtual (file : NamespacedFile)
  | stamp (ns : Namespace)
  | root (ns : Namespace)
  | aliases (ns : Namespace)
  /-- The dependencies of an artifact. -/
  | depends (of : Artifact)

namespace Artifact

/-- The target that an artifact is asked for by. -/
def path : Artifact → Path
  | original f => f.realPath
  | virtual f => f.virtualPath
  | stamp ns => ns.target .stamp
  | root ns => ns.target .root
  | aliases ns => ns.target .aliases
  | depends a => a.path.append dependsSuffix

/-- Where an artifact lies: its source, the components of its directory, and its name before and
after the first dot. -/
inductive Sits : Artifact → Path → List String → String → String → Prop
  | original {f source components stem} (lies : f.LiesIn source components stem) :
      Sits (.original f) source components (flatName [stem]) f.kind.extension
  | virtual {f source components stem} (lies : f.LiesIn source components stem) :
      Sits (.virtual f) source components (flatName (components ++ [stem])) f.kind.extension
  | stamp {ns source} (lies : ns.LiesBelow source) :
      Sits (.stamp ns) source ns.components.dropLast ns.flatName Rule.stampExtension
  | root {ns source} (lies : ns.LiesBelow source) :
      Sits (.root ns) source ns.components.dropLast ns.flatName SourceKind.implementation.extension
  | aliases {ns source} (lies : ns.LiesBelow source) :
      Sits (.aliases ns) source ns.components.dropLast (ns.flatName ++ aliasesSuffix)
        SourceKind.implementation.extension
  | depends {a source components base extension} (h : Sits a source components base extension) :
      Sits (.depends a) source components base (extension ++ dependsSuffix)

end Artifact

/-- The artifacts of a tree. -/
def Tree.Has (t : Tree) : Artifact → Prop
  | .original f => f ∈ t.files
  | .virtual f => f ∈ t.files
  | .stamp ns => ns ∈ t.namespaces
  | .root ns => ns ∈ t.namespaces
  | .aliases ns => ns ∈ t.namespaces
  | .depends a => t.Has a

theorem flatName_singleton (name : String) : flatName [name] = name := by
  simp [flatName, Text.joinWith]

/-- The parts of a namespace's files, by its name and what follows it. -/
theorem Namespace.LiesBelow.lies {ns : Namespace} {source : Path} (h : ns.LiesBelow source)
    (suffix : String) (slash : '/' ∉ suffix.toList) (mark : '<' ∉ suffix.toList)
    (dot : '.' ∈ suffix.toList) :
    (ns.rootPath.append suffix).Lies source ns.components.dropLast (ns.flatName ++ suffix) where
  valid c hc := h.valid c (List.dropLast_subset _ hc)
  isName := h.isStem.append slash
  dotted := by
    rw [String.toList_append]
    exact List.mem_append_right _ dot
  plain := by
    rw [String.toList_append, List.mem_append, not_or]
    refine ⟨fun mem => ?_, mark⟩
    rw [h.flatName_eq] at mem
    exact absurd (isComponentChar_of_mem_flatName h.valid mem) (by decide)
  spelled := ⟨ns.above, h.rootPath_append slash, h.parts_above⟩

theorem lies_flatName {source q : Path} {components cs : List String} {k : SourceKind}
    (valid : ∀ c ∈ components, isComponent c = true) (hne : cs ≠ [])
    (hcs : ∀ c ∈ cs, isComponent c = true)
    (e : q.parts = source.parts ++ components.map Part.name) :
    (q / ⟨flatName cs ++ "." ++ k.extension⟩).Lies source components
      (flatName cs ++ "." ++ k.extension) where
  valid := valid
  isName := by
    rw [String.append_assoc]
    exact (isStem_flatName hne hcs).append (by simpa using k.noSlash_extension)
  dotted := by simp
  plain := by
    have name : '<' ∉ (flatName cs).toList :=
      fun mem => absurd (isComponentChar_of_mem_flatName hcs mem) (by decide)
    cases k <;> simp [SourceKind.extension, name]
  spelled := ⟨q, rfl, e⟩

namespace Artifact.Sits

variable {a : Artifact} {source : Path} {components : List String} {base extension : String}

/-- An artifact lies where it sits. -/
theorem lies (h : a.Sits source components base extension) :
    a.path.Lies source components (base ++ "." ++ extension) := by
  induction h with
  | @original f source components stem lies =>
    have made := lies.made
    have valid : ∀ c ∈ components, isComponent c = true := fun c hc => made.valid c (by simp [hc])
    have stem_ : ∀ c ∈ [stem], isComponent c = true := fun c hc => made.valid c (by simp_all)
    have below := parts_below (p := source) fun c hc => isName_of_isComponent (valid c hc)
    have e := lies_flatName (k := f.kind) valid (List.cons_ne_nil stem []) stem_ below
    rw [path, lies.realPath_eq]
    rwa [flatName_singleton] at e ⊢
  | @virtual f source components stem lies =>
    have made := lies.made
    have valid : ∀ c ∈ components, isComponent c = true := fun c hc => made.valid c (by simp [hc])
    have below := parts_below (p := source) fun c hc => isName_of_isComponent (valid c hc)
    rw [path, made.virtualPath_eq, lies.dir_eq]
    exact lies_flatName valid (by simp) made.valid below
  | stamp lies =>
    rw [String.append_assoc]
    exact lies.lies ("." ++ Rule.stampExtension) (by decide) (by decide) (by decide)
  | root lies =>
    rw [String.append_assoc]
    exact lies.lies ("." ++ SourceKind.implementation.extension) (by decide) (by decide) (by decide)
  | @aliases ns source lies =>
    have e : ns.flatName ++ aliasesSuffix ++ "." ++ SourceKind.implementation.extension =
        ns.flatName ++ Rule.aliases.ending := by simp only [Rule.ending, String.append_assoc]
    rw [e]
    exact lies.lies Rule.aliases.ending (by decide) (by decide) (by decide)
  | depends h ih =>
    rw [← String.append_assoc]
    exact ih.depends

theorem isStem (h : a.Sits source components base extension) : IsStem base := by
  induction h with
  | original lies =>
    exact isStem_flatName (by simp) fun c hc => lies.made.valid c (by simp_all)
  | virtual lies => exact lies.made.isStem
  | stamp lies => exact lies.isStem
  | root lies => exact lies.isStem
  | aliases lies =>
    refine ⟨lies.isStem.append (by decide), ?_⟩
    rw [String.toList_append, List.mem_append, not_or]
    exact ⟨lies.isStem.noDot, by decide⟩
  | depends _ ih => exact ih

/-- Only the extension of dependencies has a dot. -/
theorem dot_notMem (h : a.Sits source components base extension) (hd : ∀ b, a ≠ .depends b) :
    '.' ∉ extension.toList := by
  have kind (k : SourceKind) : '.' ∉ k.extension.toList := by cases k <;> decide
  cases h with
  | original => exact kind _
  | virtual => exact kind _
  | stamp => decide
  | root => decide
  | aliases => decide
  | depends => exact absurd rfl (hd _)

end Artifact.Sits

/-- The components of a namespace, the last one apart. -/
theorem Namespace.LiesBelow.exists_flatName {ns : Namespace} {source : Path}
    (h : ns.LiesBelow source) : ∃ last, ns.components = ns.components.dropLast ++ [last] ∧
      ns.flatName = Naming.flatName (ns.components.dropLast ++ [last]) := by
  obtain ⟨front, last, e, -⟩ := h.exists_last
  have split : ns.components = ns.components.dropLast ++ [last] := by
    rw [e, List.dropLast_concat]
  exact ⟨last, split, by rw [← split, h.flatName_eq]⟩

theorem Namespace.LiesBelow.inj {ns ns' : Namespace} {source : Path} (h : ns.LiesBelow source)
    (h' : ns'.LiesBelow source) (e : ns.flatName = ns'.flatName) : ns = ns' := by
  rw [h.flatName_eq, h'.flatName_eq] at e
  rw [h.eq, h'.eq, flatName_inj h.ne_nil h'.ne_nil h.valid h'.valid e]

theorem NamespacedFile.LiesIn.stem_ne {f : NamespacedFile} {source : Path}
    {components : List String} {stem : String} (h : f.LiesIn source components stem) {last : String}
    (valid : ∀ c ∈ components ++ [last], isComponent c = true) :
    flatName [stem] ≠ flatName (components ++ [last]) := by
  intro e
  have one : ∀ c ∈ [stem], isComponent c = true := fun c hc => h.made.valid c (by simp_all)
  have same := congrArg List.length (flatName_inj (by simp) (by simp) one valid e)
  have some_ := List.length_pos_of_ne_nil h.made.ne_nil
  rw [List.length_singleton, List.length_append, List.length_singleton] at same
  omega

namespace Tree

variable {t : Tree} {sources : List Path}

/-- A source file is not seen where a namespace has its root module. -/
theorem Shaped.flatName_ne (h : t.Shaped sources) {f : NamespacedFile} (hf : f ∈ t.files)
    {ns : Namespace} (hn : ns ∈ t.namespaces) {source : Path} (lies : ns.LiesBelow source)
    {components : List String} {stem : String} (made : f.Made components stem) :
    flatName (components ++ [stem]) ≠ ns.flatName := by
  intro e
  have leaf := h.file_claimed f hf
  rw [made.virtualModule_eq, e, ← lies.moduleName_eq] at leaf
  exact absurd ((h.claimed ns hn).kind_eq h.differ leaf) (by decide)

theorem Shaped.file_eq (h : t.Shaped sources) {f g : NamespacedFile} (hf : f ∈ t.files)
    (hg : g ∈ t.files) {source : Path} {components : List String} {stem : String}
    (lies : f.LiesIn source components stem) (lies' : g.LiesIn source components stem)
    (e : f.kind.extension = g.kind.extension) : f = g := by
  refine h.eq_of_virtualPath hf hg ?_
  rw [lies.made.virtualPath_eq, lies'.made.virtualPath_eq, lies.dir_eq, lies'.dir_eq, e]

/-- No two artifacts sit at one place below a source. -/
theorem Has.eq_of_sits (h : t.Shaped sources) {a b : Artifact} (ha : t.Has a) (hb : t.Has b)
    {source : Path} {components components' : List String} {base base' extension extension' : String}
    (sa : a.Sits source components base extension)
    (sb : b.Sits source components' base' extension') (ec : components = components')
    (eb : base = base') (ee : extension = extension') : a = b := by
  have stamp (kind : SourceKind) : kind.extension ≠ Rule.stampExtension := by cases kind <;> decide
  have root {f : NamespacedFile} {ns : Namespace} {source : Path} {components : List String}
      {stem : String} (lies : f.LiesIn source components stem) (below : ns.LiesBelow source)
      (ec : components = ns.components.dropLast) : flatName [stem] ≠ ns.flatName := by
    obtain ⟨last, split, flat⟩ := below.exists_flatName
    rw [flat, ← ec]
    refine lies.stem_ne ?_
    rw [ec, ← split]
    exact below.valid
  have clash {c : Artifact} {source : Path} {components : List String} {base extension : String}
      (sc : c.Sits source components base extension) (hc : ∀ b, c ≠ .depends b) (text : String) :
      extension ≠ text ++ dependsSuffix := by
    rintro rfl
    refine sc.dot_notMem hc ?_
    rw [String.toList_append]
    exact List.mem_append_right _ (by decide)
  induction sa generalizing b components' base' extension' with
  | @original f source components stem lies =>
    have one : ∀ c ∈ [stem], isComponent c = true := fun c hc => lies.made.valid c (by simp_all)
    cases sb with
    | original lies' =>
      have same := flatName_inj (by simp) (by simp) one
        (fun c hc => lies'.made.valid c (by simp_all)) eb
      obtain rfl := List.singleton_inj.1 same
      subst ec
      rw [h.file_eq ha hb lies lies' ee]
    | virtual lies' =>
      subst ec
      exact absurd eb (lies.stem_ne lies'.made.valid)
    | stamp => exact absurd ee (stamp _)
    | root below => exact absurd eb (root lies below ec)
    | aliases below => exact absurd eb (flatName_ne_append_aliases one _)
    | depends => exact absurd ee (clash (.original lies) (by simp) _)
  | @virtual f source components stem lies =>
    cases sb with
    | original lies' =>
      subst ec
      exact absurd eb.symm (lies'.stem_ne lies.made.valid)
    | virtual lies' =>
      subst ec
      have same := flatName_inj (by simp) (by simp) lies.made.valid lies'.made.valid eb
      obtain rfl := List.singleton_inj.1 (List.append_cancel_left same)
      rw [h.file_eq ha hb lies lies' ee]
    | stamp => exact absurd ee (stamp _)
    | root below => exact absurd eb (h.flatName_ne ha hb below lies.made)
    | aliases below => exact absurd eb (flatName_ne_append_aliases lies.made.valid _)
    | depends => exact absurd ee (clash (.virtual lies) (by simp) _)
  | @stamp ns source below =>
    cases sb with
    | original | virtual => exact absurd ee.symm (stamp _)
    | stamp below' => rw [below.inj below' eb]
    | root | aliases => exact absurd ee.symm (stamp _)
    | depends => exact absurd ee (clash (.stamp below) (by simp) _)
  | @root ns source below =>
    cases sb with
    | original lies => exact absurd eb.symm (root lies below ec.symm)
    | virtual lies => exact absurd eb.symm (h.flatName_ne hb ha below lies.made)
    | stamp => exact absurd ee (stamp .implementation)
    | root below' => rw [below.inj below' eb]
    | aliases =>
      rw [below.flatName_eq] at eb
      exact absurd eb (flatName_ne_append_aliases below.valid _)
    | depends => exact absurd ee (clash (.root below) (by simp) _)
  | @aliases ns source below =>
    cases sb with
    | @original _ _ _ stem lies =>
      have one : ∀ c ∈ [stem], isComponent c = true := fun c hc => lies.made.valid c (by simp_all)
      exact absurd eb.symm (flatName_ne_append_aliases one _)
    | virtual lies => exact absurd eb.symm (flatName_ne_append_aliases lies.made.valid _)
    | stamp => exact absurd ee (stamp .implementation)
    | root below' =>
      rw [below'.flatName_eq] at eb
      exact absurd eb.symm (flatName_ne_append_aliases below'.valid _)
    | aliases below' => rw [below.inj below' ((String.append_left_inj _).1 eb)]
    | depends => exact absurd ee (clash (.aliases below) (by simp) _)
  | @depends a source components base extension sa ih =>
    cases sb with
    | @depends b _ _ _ _ sb =>
      have hb : t.Has b := hb
      rw [ih ha hb sb ec eb ((String.append_left_inj _).1 ee)]
    | original lies => exact absurd ee.symm (clash (.original lies) (by simp) _)
    | virtual lies => exact absurd ee.symm (clash (.virtual lies) (by simp) _)
    | stamp below => exact absurd ee.symm (clash (.stamp below) (by simp) _)
    | root below => exact absurd ee.symm (clash (.root below) (by simp) _)
    | aliases below => exact absurd ee.symm (clash (.aliases below) (by simp) _)

/-- The artifacts of a tree whose place is below one of the given sources. -/
def HasIn (t : Tree) (used : List Path) (a : Artifact) : Prop :=
  t.Has a ∧ ∃ source ∈ used, ∃ components base extension, a.Sits source components base extension

/-- No two artifacts are at one place, below sources that are apart. -/
theorem HasIn.eq_of_names (h : t.Shaped sources) {used : List Path} (apart : Apart used)
    {a b : Artifact} (ha : t.HasIn used a) (hb : t.HasIn used b) (e : a.path.names = b.path.names) :
    a = b := by
  obtain ⟨ha, source, hs, components, base, extension, sa⟩ := ha
  obtain ⟨hb, source', hs', components', base', extension', sb⟩ := hb
  have la := sa.lies
  have lb := sb.lies
  rw [la.names, lb.names] at e
  obtain ⟨rfl, rest⟩ := apart.eq hs hs' e
  obtain ⟨ec, file⟩ := List.append_inj' rest rfl
  obtain ⟨eb, ee⟩ := sa.isStem.inj sb.isStem (List.singleton_inj.1 file)
  exact ha.eq_of_sits h hb sa sb ec eb ee

theorem HasIn.mono {used used' : List Path} (sub : used ⊆ used') {a : Artifact}
    (h : t.HasIn used a) : t.HasIn used' a :=
  ⟨h.1, h.2.imp fun _ hs => ⟨sub hs.1, hs.2⟩⟩

namespace Tidy

variable {Done : Path → List String → Entry → Prop}

/-- Every artifact of a tree is below one of its sources. -/
theorem hasIn (h : Tidy sources Done t) {a : Artifact} (ha : t.Has a) : t.HasIn sources a := by
  refine ⟨ha, ?_⟩
  induction a with
  | original f | virtual f =>
    obtain ⟨source, components, stem, -, hs, -, -, lies, -⟩ := h.file f ha
    exact ⟨source, hs, _, _, _, by constructor; exact lies⟩
  | stamp ns | root ns | aliases ns =>
    obtain ⟨source, hs, lies⟩ := h.shaped.below ns ha
    exact ⟨source, hs, _, _, _, by constructor; exact lies⟩
  | depends a ih =>
    obtain ⟨source, hs, _, _, _, sits⟩ := ih ha
    exact ⟨source, hs, _, _, _, .depends sits⟩

/-- A namespace directly in another one lies below the same source, one component further down. -/
theorem exists_child (h : Tidy sources Done t) (apart : Apart sources) {ns c : Namespace}
    (hn : ns ∈ t.namespaces) (hc : c ∈ t.namespaces) (parent : c.parent = some ns.dir) :
    ∃ source ∈ sources, ns.LiesBelow source ∧ c.LiesBelow source ∧
      c.components.dropLast = ns.components ∧ ns.components.length < c.components.length := by
  obtain ⟨source, hs, lies⟩ := h.shaped.below ns hn
  obtain ⟨source', hs', lies'⟩ := h.shaped.below c hc
  have isName := lies'.isName
  rw [lies'.eq, ← namespaceIn, namespaceIn_parent isName, lies.dir_eq] at parent
  split at parent
  case isFalse => simp at parent
  case isTrue long =>
    obtain ⟨rfl, e⟩ := namespaceIn_eq_of_parts apart hs' hs
      (fun n hn => isName n (List.dropLast_subset _ hn)) lies.isName
      (congrArg Path.parts (Option.some.inj parent))
    refine ⟨source', hs', lies, lies', e, ?_⟩
    rw [← e, List.length_dropLast]
    omega

end Tidy

/-- The most components that a namespace has. -/
def height (t : Tree) : Nat :=
  (t.namespaces.map (·.components.length)).foldl max 0

theorem length_le_height {ns : Namespace} (hn : ns ∈ t.namespaces) :
    ns.components.length ≤ t.height :=
  (Local.le_foldl_max _ 0).2 _ (List.mem_map_of_mem hn)

end Tree

/-- A bound on the length of the chains in which artifacts ask for others. -/
def Artifact.rank (t : Tree) : Artifact → Nat
  | .original _ => 0
  | .virtual _ => 1
  | .aliases _ => 0
  | .stamp ns => 2 * (t.height - ns.components.length) + 2
  | .root ns => 2 * (t.height - ns.components.length) + 3
  | .depends a => a.rank t + 1

namespace Tree.Tidy

variable {t : Tree} {sources : List Path} {Done : Path → List String → Entry → Prop}

/-- What a digest covers are artifacts of lower rank, below the source of its namespace. -/
theorem exists_member (h : Tidy sources Done t) (apart : Apart sources) {used : List Path}
    (sub : used ⊆ sources) {ns : Namespace} (hn : t.HasIn used (.stamp ns)) {q : Path}
    (hq : q ∈ t.closure ns) :
    ∃ a, t.HasIn used a ∧ a.path = q ∧ a.rank t < (Artifact.stamp ns).rank t ∧
      ((∃ f ∈ t.files, a = .virtual f) ∨ ∃ c ∈ t.namespaces, a = .root c) := by
  obtain ⟨hn, source, hs, _, _, _, ⟨⟩⟩ := hn
  rename_i lies
  rcases (h.mem_closure hn).1 hq with ⟨f, hf, e, rfl⟩ | ⟨c, hc, parent, rfl⟩
  · obtain ⟨source', components, stem, -, hs', -, -, lies', -⟩ := h.file f hf
    rw [lies'.dir_eq, lies.dir_eq] at e
    obtain ⟨rfl, -⟩ := namespaceIn_eq_of_parts apart hs' (sub hs)
      (fun c hc => isName_of_isComponent (lies'.made.valid c (by simp [hc]))) lies.isName
      (congrArg Path.parts e)
    exact ⟨.virtual f, ⟨hf, source', hs, _, _, _, .virtual lies'⟩, rfl, by simp [Artifact.rank],
      .inl ⟨f, hf, rfl⟩⟩
  · obtain ⟨source', hs', lies', below, -, longer⟩ := h.exists_child apart hn hc parent
    have e : (source'.below ns.components).parts = (source.below ns.components).parts := by
      rw [← lies'.dir_eq, ← lies.dir_eq]
    obtain ⟨rfl, -⟩ := namespaceIn_eq_of_parts apart hs' (sub hs) lies'.isName lies.isName e
    refine ⟨.root c, ⟨hc, source', hs, _, _, _, .root below⟩, below.rootFile_eq.symm, ?_,
      .inr ⟨c, hc, rfl⟩⟩
    have := length_le_height hc
    simp only [Artifact.rank]
    omega

end Tree.Tidy
end FlatModules
