import FlatModules.Build.Local
import FlatModules.Proofs.Build.Artifact
import FlatModules.Proofs.Digest.Listing
import FlatModules.Proofs.Disk.Change

/-!
# Build — what artifacts come to

The bytes that an artifact comes to hold, if it is built at all, said without an engine: from the
project, and from what other artifacts come to (`Site.content?`).  Digests and root modules depend
on each other, down the namespaces; `Site.digest?_eq` is the equation between them.
-/

namespace FlatModules

open Path Tree

/-- What an analyzer answers that goes by its arguments and the bytes of the file alone. -/
abbrev Analyzer.Answer : Type :=
  (program : String) → (arguments : List String) → ByteArray → Except DiskError Exit

/-- All that the results of builds depend on. -/
structure Site where
  root : Path
  config : Config
  /-- The disk that the tree was scanned from. -/
  disk : Disk
  tree : Tree
  answer : Analyzer.Answer
  /-- Whether the analyzer is taken to answer so; if not, nothing is said of what dependencies come
  to. -/
  answered : Prop

instance (p : Path) : Decidable p.Fits :=
  decidable_of_iff ((Disk.checkPath p).isOk = true ∧ ∀ n ∈ p.names, n.utf8ByteSize ≤ Disk.nameLimit)
    (by
      have check : (Disk.checkPath p).isOk = true ↔ Disk.checkPath p = .ok () := by
        cases Disk.checkPath p <;> simp [Except.isOk, Except.toBool]
      exact ⟨fun h => ⟨check.1 h.1, h.2⟩, fun h => ⟨check.2 h.check, h.short⟩⟩)

instance (d : Disk) (places : List Place) : Decidable (d.Open places) :=
  inferInstanceAs (Decidable (∀ q ∈ places, d.entryAt? q = none ∨ d.entryAt? q = some .dir))

namespace Site

variable (s : Site)

/-- Where targets are built. -/
def buildDir : Path := s.root / s.config.buildDir

/-- The place of the build directory. -/
def base : Place := Place.follow [] s.buildDir.names

/-- The places passed on the way to the build directory. -/
def way : List Place := Place.trail [] s.buildDir.names

/-- Whether a target can be put into the build directory: its path is short enough, nothing but
directories is in the way to the build directory, and that way does not lead through the target's own
place. -/
def Usable (q : Path) : Prop :=
  (s.buildDir / q).Fits ∧ s.disk.Open s.way ∧ s.base ++ q.names ∉ s.way

instance (q : Path) : Decidable (s.Usable q) := inferInstanceAs (Decidable (_ ∧ _ ∧ _))

/-- What is put into the build directory under a target. -/
def placed (q : Path) (content : Option ByteArray) : Option ByteArray :=
  if s.Usable q then content else none

/-- The project's own file under a target, as it is copied. -/
def copied (q : Path) : Option ByteArray :=
  s.placed q (s.disk.readBytes (s.root / q)).toOption

/-- What a source file comes to under its flat name. -/
def seen (f : NamespacedFile) : Option ByteArray :=
  s.placed f.virtualPath (s.copied f.realPath)

/-- What the root module of a namespace comes to with its digest; without one it is a copy of the
project's file. -/
def rootOf (ns : Namespace) : (digest? : Option String) → Option ByteArray
  | some digest => s.placed (ns.target .root)
      (some (rootText ns.moduleName digest (aliasLines (s.tree.members ns))).toUTF8)
  | none => s.copied (ns.target .root)

/-- What a file that a digest covers comes to, by the digests of namespaces. -/
def memberOf (digest? : Namespace → Option String) (q : Path) : Option ByteArray :=
  match s.tree.fileAt? q with
  | some f => s.seen f
  | none => (s.tree.namespaces.find? (·.rootFile.same q)).bind fun ns => s.rootOf ns (digest? ns)

/-- The digest of a namespace, if all that it covers is built. -/
def digestOf (digest? : Namespace → Option String) (ns : Namespace) : Option String :=
  let files := s.tree.closure ns
  if s.Usable (ns.target .stamp) ∧ ∀ q ∈ files, (s.memberOf digest? q).isSome then
    some (Digest.digestOf (files.map fun q => (q, (s.memberOf digest? q).getD ByteArray.empty)))
  else none

/-- The digest of a namespace with at most `depth` levels. -/
def digestWithin : (depth : Nat) → Namespace → Option String
  | 0, _ => none
  | depth + 1, ns => s.digestOf (digestWithin depth) ns

/-- The digest of a namespace. -/
def digest? (ns : Namespace) : Option String := s.digestWithin (s.tree.height + 1) ns

/-- The tags that the settings give a path. -/
def configured (q : Path) : Tags := Tags.ofList ((s.config.tags.lookup q.text).getD [])

/-- The tags of an artifact; a source file under its flat name has those of the original too. -/
def tagsOf : Artifact → Tags
  | .virtual f => (s.configured f.virtualPath).union (s.configured f.realPath)
  | a => s.configured a.path

/-- What the analyzer tells of a target with the given bytes. -/
def analysis (q : Path) (tags : Tags) (bytes : ByteArray) :
    Except Analyzer.AnalyzerError RawLine :=
  (Analyzer.analyze (fun _ _ program arguments => s.answer program arguments bytes)
    s.config.analyzer Disk.blank s.buildDir q tags).2

/-- The text of the dependencies of an artifact, in names of the flat space for a source file under
its flat name. -/
def dependsText (a : Artifact) (raw : RawLine) : String :=
  match a with
  | .virtual f => (raw.resolve s.tree.metadata f).print ++ "\n"
  | a => printLine a.path raw.dependencies ++ "\n"

/-- What an artifact comes to hold, if it is built. -/
def content? : Artifact → Option ByteArray
  | .original f => s.copied f.realPath
  | .virtual f => s.seen f
  | .stamp ns => (s.digest? ns).map fun digest => (digest ++ "\n").toUTF8
  | .root ns => s.rootOf ns (s.digest? ns)
  | .aliases ns => s.placed (ns.target .aliases) (some (aliasLines (s.tree.members ns)).toUTF8)
  | .depends a =>
    match content? a with
    | none => s.copied (Artifact.depends a).path
    | some bytes => s.placed (Artifact.depends a).path
        ((s.analysis a.path (s.tagsOf a) bytes).toOption.map fun raw =>
          (s.dependsText a raw).toUTF8)

/-- Whether an artifact comes to the given content, as far as that is told. -/
def Tells (a : Artifact) (content : Option ByteArray) : Prop :=
  ((∃ b, a = .depends b) → s.answered) → s.content? a = content

end Site

namespace Site

variable {s : Site} {sources : List Path} {Done : Path → List String → Entry → Prop}

namespace Tells

variable {a : Artifact} {content content' : Option ByteArray}

theorem of_eq (h : s.content? a = content) : s.Tells a content := fun _ => h

theorem eq (h : s.Tells a content) (plain : ∀ b, a ≠ .depends b) : s.content? a = content :=
  h fun ⟨b, e⟩ => absurd e (plain b)

theorem trans (h : s.Tells a content) (e : content = content') : s.Tells a content' :=
  fun told => (h told).trans e

end Tells

theorem memberOf_virtual (h : s.tree.Shaped sources) {f : NamespacedFile} (hf : f ∈ s.tree.files)
    (digest? : Namespace → Option String) : s.memberOf digest? f.virtualPath = s.seen f := by
  rw [memberOf, h.fileAt?_virtualPath hf]

theorem memberOf_root (h : s.tree.Tidy sources Done) (apart : Apart sources) {ns : Namespace}
    (hn : ns ∈ s.tree.namespaces) (digest? : Namespace → Option String) :
    s.memberOf digest? (Artifact.root ns).path = s.rootOf ns (digest? ns) := by
  have rootFile {c : Namespace} (hc : c ∈ s.tree.namespaces) :
      c.rootFile = (Artifact.root c).path := by
    obtain ⟨source, -, lies⟩ := h.shaped.below c hc
    exact lies.rootFile_eq
  have none_ : s.tree.fileAt? (Artifact.root ns).path = none := h.shaped.fileAt?_target hn (.inl rfl)
  have found : s.tree.namespaces.find? (·.rootFile.same (Artifact.root ns).path) = some ns := by
    refine find?_eq_some_of_unique hn (by simp [rootFile hn]) fun c hc e => ?_
    rw [rootFile hc, same_iff] at e
    have same := (h.hasIn (a := .root c) hc).eq_of_names h.shaped apart
      (h.hasIn (a := .root ns) hn) (names_congr e)
    exact Artifact.root.inj same
  rw [memberOf, none_, found]
  rfl

/-- A digest depends on the digests of lower namespaces alone. -/
theorem digestOf_congr (h : s.tree.Tidy sources Done) (apart : Apart sources) {ns : Namespace}
    (hn : ns ∈ s.tree.namespaces) {f g : Namespace → Option String}
    (e : ∀ c ∈ s.tree.namespaces, ns.components.length < c.components.length → f c = g c) :
    s.digestOf f ns = s.digestOf g ns := by
  have member (q : Path) (hq : q ∈ s.tree.closure ns) : s.memberOf f q = s.memberOf g q := by
    obtain ⟨a, -, rfl, lower, ⟨file, hf, rfl⟩ | ⟨c, hc, rfl⟩⟩ :=
      h.exists_member apart (List.Subset.refl _) (h.hasIn (a := .stamp ns) hn) hq
    · rw [Artifact.path, memberOf_virtual h.shaped hf, memberOf_virtual h.shaped hf]
    · have below := s.tree.length_le_height hn
      have : ns.components.length < c.components.length := by
        simp only [Artifact.rank] at lower
        omega
      rw [memberOf_root h apart hc, memberOf_root h apart hc, e c hc this]
  have all : (∀ q ∈ s.tree.closure ns, (s.memberOf f q).isSome) ↔
      ∀ q ∈ s.tree.closure ns, (s.memberOf g q).isSome :=
    forall₂_congr fun q hq => by rw [member q hq]
  have files : (s.tree.closure ns).map (fun q => (q, (s.memberOf f q).getD ByteArray.empty)) =
      (s.tree.closure ns).map fun q => (q, (s.memberOf g q).getD ByteArray.empty) :=
    List.map_congr_left fun q hq => by rw [member q hq]
  unfold digestOf
  simp only [all, files]

/-- More levels than a namespace has make no difference. -/
theorem digestWithin_eq (h : s.tree.Tidy sources Done) (apart : Apart sources) {n m : Nat} :
    ∀ {ns : Namespace}, ns ∈ s.tree.namespaces → s.tree.height < ns.components.length + n →
      s.tree.height < ns.components.length + m → s.digestWithin n ns = s.digestWithin m ns := by
  induction n generalizing m with
  | zero =>
    intro ns hn hn'
    have := s.tree.length_le_height hn
    omega
  | succ n ih =>
    intro ns hn hn' hm
    obtain ⟨m, rfl⟩ : ∃ k, m = k + 1 := by
      have := s.tree.length_le_height hn
      exact ⟨m - 1, by omega⟩
    exact digestOf_congr h apart hn fun c hc longer => ih hc (by omega) (by omega)

/-- The digest of a namespace is that of what it covers, with the digests of the namespaces in
it. -/
theorem digest?_eq (h : s.tree.Tidy sources Done) (apart : Apart sources) {ns : Namespace}
    (hn : ns ∈ s.tree.namespaces) : s.digest? ns = s.digestOf s.digest? ns := by
  refine digestOf_congr h apart hn fun c hc longer => ?_
  have := s.tree.length_le_height hn
  exact digestWithin_eq h apart hc (by omega) (by omega)

theorem memberOf_digest? (h : s.tree.Tidy sources Done) (apart : Apart sources) {a : Artifact}
    (ha : (∃ f ∈ s.tree.files, a = .virtual f) ∨ ∃ c ∈ s.tree.namespaces, a = .root c) :
    s.memberOf s.digest? a.path = s.content? a := by
  rcases ha with ⟨f, hf, rfl⟩ | ⟨c, hc, rfl⟩
  · exact memberOf_virtual h.shaped hf _
  · exact memberOf_root h apart hc _

end Site
end FlatModules
