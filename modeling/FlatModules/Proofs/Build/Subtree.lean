import FlatModules.Proofs.Build.Covered

/-!
# Build — what a digest tells of a subtree

Two clean builds of the digest of a namespace, of two versions of a project, that come to the same
digest.  Unless two strings that were hashed have one hash, the files that the digests cover are the
same ones and hold the same (`Site.Sealed.closure_eq`).  What is covered for a sub-namespace is its
root module with its own digest, so this goes on from namespace to namespace down the subtree, as long
as what is at the place of a root module is one (`digest_covers_subtree`).
-/

namespace FlatModules

open Naming FlatModules.Path

/-- Whether a path is that of a directory or leads further down from there. -/
def Path.Under (dir q : Path) : Prop := dir.names <+: q.names

instance (dir q : Path) : Decidable (dir.Under q) := inferInstanceAs (Decidable (_ <+: _))

instance (s : LocalState) (q : Path) : Decidable (s.HasBuilt q) :=
  decidable_of_iff ((lookupPath? q s.outcomes).any (·.isOk)) <| by
    unfold LocalState.HasBuilt
    cases lookupPath? q s.outcomes with
    | none => simp
    | some o => cases o <;> simp [Except.isOk, Except.toBool]

/-- Whether a directory of a project is in another version of it too, with all below it: the
namespaces, and the source files with what they hold. -/
structure Tree.PartOf (root dir : Path) (d : Disk) (t : Tree) (d' : Disk) (t' : Tree) : Prop where
  namespaces : ∀ c ∈ t.namespaces, dir.Under c.dir → c ∈ t'.namespaces
  files : ∀ f ∈ t.files, dir.Under f.dir → ∃ f' ∈ t'.files, f'.realPath = f.realPath ∧
    ∃ bytes, d.readBytes (root / f.realPath) = .ok bytes ∧
      d'.readBytes (root / f.realPath) = .ok bytes

namespace Local

/-- A version of a project, and the world that an engine leaves that built the digest of a namespace
there, beginning with an empty build directory. -/
structure CleanDigest (root : Path) (config : Config) (d : Disk) (t : Tree) (ns : Namespace)
    (w : World LocalState) : Prop where
  sound : d.Sound
  plain : d.Plain
  accepted : Tree.scan d root config = .ok t
  vacant : d.Vacant (root / config.buildDir)
  mem : ns ∈ t.namespaces
  built : ∃ programs w₀ path, w₀.disk = d ∧ w₀.own = {} ∧
    Local.build (t.project root config programs) (ns.target .stamp) w₀ = some (.ok path, w)

/-- The strings that were hashed for the digest of a namespace: what it covers, as the build directory
holds it, and the listing of that. -/
def hashedFor (buildDir : Path) (t : Tree) (w : World LocalState) (c : Namespace) : List ByteArray :=
  (t.closure c).filterMap (fun q => (w.disk.readBytes (buildDir / q)).toOption) ++
    ((Digest.hashFiles w.disk buildDir (t.closure c)).toOption.map fun entries =>
      (Digest.listing entries).toUTF8).toList

/-- The strings that were hashed for the digests of a namespace and of those in it, as far as these were
built. -/
def hashed (buildDir : Path) (t : Tree) (w : World LocalState) (ns : Namespace) : List ByteArray :=
  (t.namespaces.filter fun c => ns.dir.Under c.dir ∧ w.own.HasBuilt (c.target .stamp)).flatMap
    (hashedFor buildDir t w)

/-- What keeps the digest of a namespace from telling one version of a project from another. -/
inductive Masked (root buildDir : Path) (ns : Namespace) (d : Disk) (t : Tree) (w : World LocalState)
    (t' : Tree) (w' : World LocalState) : Prop
  /-- The digest of a sub-namespace could not be built, and where its root module belongs is a file of
  the project's own. -/
  | copied {c : Namespace} {failure : Failure} {bytes : ByteArray} (hc : c ∈ t.namespaces)
      (below : ns.dir.Under c.dir)
      (failed : lookupPath? (c.target .stamp) w.own.outcomes = some (.error failure))
      (own : d.readBytes (root / c.target .root) = .ok bytes)
  /-- A source file holds the text of a root module, and belongs where the other version has that. -/
  | text {f : NamespacedFile} {c : Namespace} {digest : String} (hf : f ∈ t.files)
      (hc : c ∈ t'.namespaces) (below : ns.dir.Under c.dir)
      (seen : f.virtualPath = c.target .root)
      (told : w'.disk.readBytes (buildDir / c.target .stamp) = .ok (digest ++ "\n").toUTF8)
      (same : d.readBytes (root / f.realPath) =
        .ok (rootText c.moduleName digest (aliasLines (t'.members c))).toUTF8)

end Local

/-- The digest of a namespace is below the source of its root module. -/
theorem Tree.HasIn.stamp_of_root {t : Tree} {source : Path} {c : Namespace}
    (h : t.HasIn [source] (.root c)) : t.HasIn [source] (.stamp c) ∧ c.LiesBelow source := by
  obtain ⟨has, source', hs, _, _, _, sits⟩ := h
  obtain rfl := List.mem_singleton.1 hs
  cases sits with
  | root lies => exact ⟨⟨has, _, hs, _, _, _, .stamp lies⟩, lies⟩

theorem Namespace.LiesBelow.above_of_parent {source dir : Path} {c : Namespace} (h : c.LiesBelow source)
    (parent : c.parent = some dir) : c.above = dir := by
  rw [h.parent_eq] at parent
  split at parent
  · exact Option.some.inj (h.parent?_dir.symm.trans parent)
  · simp at parent

/-- A sub-namespace is below all that its namespace is below. -/
theorem Namespace.LiesBelow.under_of_parent {source dir q : Path} {c : Namespace}
    (h : c.LiesBelow source) (parent : c.parent = some dir) (under : q.Under dir) : q.Under c.dir := by
  obtain ⟨front, last, e, -, -⟩ := h.exists_last
  refine under.trans ⟨[last], ?_⟩
  have above := names_of_parts h.parts_above
  rw [h.above_of_parent parent, e, List.dropLast_concat] at above
  rw [above, names_of_parts h.parts_dir, e, List.append_assoc]

namespace Site

variable {s s' : Site} {source : Path} {w w' : World LocalState} {c : Namespace} {q : Path}
  {components : List String}

/-- A world in which an engine is done that built digests of namespaces below a source. -/
structure Sealed (s : Site) (source : Path) (w : World LocalState) : Prop where
  prepared : s.Prepared [source]
  works : s.Works [source] w
  covered : Local.Covered s.tree w.own
  idle : w.own.inProgress = []

/-- What a covered file holds in the end. -/
def bytesOf (s : Site) (q : Path) : ByteArray := (s.memberOf s.digest? q).getD ByteArray.empty

namespace Sealed

variable (h : s.Sealed source w)

include h

theorem mem_source : source ∈ s.config.sourceDirs := h.prepared.sub List.mem_cons_self

theorem direct : source.Direct := h.prepared.direct source List.mem_cons_self

theorem stands {a : Artifact} (ha : s.tree.HasIn [source] a) (built : w.own.HasBuilt a.path)
    (plain : ∀ b, a ≠ .depends b) :
    ∃ bytes, s.content? a = some bytes ∧ w.disk.readBytes (s.buildDir / a.path) = .ok bytes := by
  obtain ⟨path, known⟩ := built
  have stands : s.Stands _ _ _ a path := h.works.came a ha _ known
  obtain ⟨bytes, tells, holds⟩ := stands.held
  obtain ⟨-, source', hs, components, base, extension, sits⟩ := ha
  obtain rfl := List.mem_singleton.1 hs
  have target := target_of_lies (s := s) h.prepared.apart_used hs h.direct sits.lies
  exact ⟨bytes, tells.eq plain, holds.readBytes h.works.tended h.prepared.clean target⟩

section Digest

variable (hc : s.tree.HasIn [source] (.stamp c)) (built : w.own.HasBuilt (c.target .stamp))

include hc built

theorem exists_digest : ∃ digest, s.digest? c = some digest ∧
    w.disk.readBytes (s.buildDir / c.target .stamp) = .ok (digest ++ "\n").toUTF8 := by
  obtain ⟨bytes, content, read⟩ := h.stands hc built (by simp)
  obtain ⟨digest, known, rfl⟩ := Option.map_eq_some_iff.1 content
  exact ⟨digest, known, read⟩

/-- What a digest covers is there. -/
theorem member (hq : q ∈ s.tree.closure c) :
    s.memberOf s.digest? q = some (s.bytesOf q) ∧
      w.disk.readBytes (s.buildDir / q) = .ok (s.bytesOf q) := by
  obtain ⟨a, ha, rfl, -, kind⟩ :=
    h.prepared.tidy.exists_member h.prepared.apart h.prepared.sub hc hq
  have plain (b : Artifact) : a ≠ .depends b := by
    rcases kind with ⟨f, -, rfl⟩ | ⟨c, -, rfl⟩ <;> simp
  obtain ⟨bytes, content, read⟩ := h.stands ha (h.covered.closure c hc.1 built _ hq) plain
  have member := (memberOf_digest? h.prepared.tidy h.prepared.apart kind).trans content
  have bytes_eq : s.bytesOf a.path = bytes := by rw [bytesOf, member, Option.getD_some]
  exact ⟨bytes_eq ▸ member, bytes_eq ▸ read⟩

theorem hashFiles_eq : Digest.hashFiles w.disk s.buildDir (s.tree.closure c) =
    .ok ((s.tree.closure c).map fun q => (q, Sha256.hash (s.bytesOf q))) :=
  Digest.hashFiles_eq fun _ hq => (h.member hc built hq).2

theorem digest?_eq : s.digest? c = some (Sha256.hash (Digest.listing
    ((s.tree.closure c).map fun q => (q, Sha256.hash (s.bytesOf q)))).toUTF8) := by
  obtain ⟨digest, known, -⟩ := h.exists_digest hc built
  have eq := Site.digest?_eq h.prepared.tidy h.prepared.apart hc.1
  have usable : s.Usable (c.target .stamp) ∧
      ∀ q ∈ s.tree.closure c, (s.memberOf s.digest? q).isSome := by
    by_contra no
    rw [known, digestOf, if_neg no] at eq
    simp at eq
  rw [eq, digestOf, if_pos usable, Digest.digestOf, List.map_map]
  rfl

omit built in
/-- An artifact that a digest covers is below the source. -/
theorem hasIn_of_closure {a : Artifact} (ha : s.tree.Has a) (hq : a.path ∈ s.tree.closure c) :
    s.tree.HasIn [source] a := by
  obtain ⟨b, hb, same, -⟩ := h.prepared.tidy.exists_member h.prepared.apart h.prepared.sub hc hq
  have eq := (hb.mono h.prepared.sub).eq_of_names h.prepared.shaped h.prepared.apart
    (h.prepared.tidy.hasIn ha) (by rw [same])
  exact eq ▸ hb

end Digest

/-- What a digest covers is in the directory of its namespace. -/
theorem exists_name (hc : c ∈ s.tree.namespaces) (hq : q ∈ s.tree.closure c) :
    ∃ name, q.text = c.dir.front ++ name ∧ ':' ∉ name.toList := by
  have colon {components : List String} (valid : ∀ n ∈ components, isComponent n = true)
      (kind : SourceKind) : ':' ∉ (flatName components ++ "." ++ kind.extension).toList := by
    have flat : ':' ∉ (flatName components).toList :=
      fun mem => absurd (isComponentChar_of_mem_flatName valid mem) (by decide)
    cases kind <;> simpa [SourceKind.extension] using flat
  obtain ⟨f, hf, dir, rfl⟩ | ⟨c', hc', parent, rfl⟩ := (h.prepared.tidy.mem_closure hc).1 hq
  · obtain ⟨components, stem, made⟩ := h.prepared.shaped.made f hf
    exact ⟨_, by rw [made.virtualPath_eq, div_eq made.isName, dir], colon made.valid f.kind⟩
  · obtain ⟨source', -, lies⟩ := h.prepared.shaped.below c' hc'
    have above := lies.above_of_parent parent
    have noSlash : '/' ∉ Rule.root.ending.toList := by decide
    refine ⟨c'.flatName ++ Rule.root.ending, ?_, ?_⟩
    · rw [lies.rootFile_eq, Namespace.target, lies.rootPath_append noSlash,
        div_eq (lies.isStem.append noSlash), above]
    · have := colon lies.valid .implementation
      rwa [← lies.flatName_eq, String.append_assoc] at this

/-- The original of a source file that is covered. -/
theorem readBytes_original {f : NamespacedFile} (hf : f ∈ s.tree.files) {bytes : ByteArray}
    (member : s.memberOf s.digest? f.virtualPath = some bytes) :
    s.disk.readBytes (s.root / f.realPath) = .ok bytes := by
  rw [memberOf_virtual h.prepared.shaped hf, seen, placed] at member
  split at member
  · rw [copied, placed] at member
    split at member
    · cases read : s.disk.readBytes (s.root / f.realPath) with
      | error e => simp [read, Except.toOption] at member
      | ok bytes' => simpa [read, Except.toOption] using member
    · simp at member
  · simp at member

/-- The root module of a sub-namespace that is covered, and whose digest was built. -/
theorem bytesOf_root (hc : c ∈ s.tree.namespaces) {bytes : ByteArray}
    (member : s.memberOf s.digest? (c.target .root) = some bytes) {digest : String}
    (known : s.digest? c = some digest) :
    bytes = (rootText c.moduleName digest (aliasLines (s.tree.members c))).toUTF8 := by
  have root := memberOf_root h.prepared.tidy h.prepared.apart hc s.digest?
  rw [Artifact.path, member, known, rootOf, placed] at root
  split at root
  · exact Option.some.inj root
  · simp at root

/-- A root module that was built tells a digest, unless that failed and the project's own file was
copied. -/
theorem digest_or_copied (hc : s.tree.HasIn [source] (.root c))
    (built : w.own.HasBuilt (c.target .root)) :
    w.own.HasBuilt (c.target .stamp) ∨
      ∃ failure bytes, lookupPath? (c.target .stamp) w.own.outcomes = some (.error failure) ∧
        s.disk.readBytes (s.root / c.target .root) = .ok bytes := by
  have stamp := hc.stamp_of_root.1
  have met := h.covered.digest c hc.1 built
  rw [LocalState.Met, h.idle] at met
  obtain ⟨o, known⟩ := Option.ne_none_iff_exists'.1 (met.resolve_left (by simp [listsPath]))
  cases o with
  | ok path => exact .inl ⟨path, known⟩
  | error failure =>
    -- without a digest the root module can only be a copy
    have none_ : s.content? (.stamp c) = none :=
      Tells.eq (h.works.came (.stamp c) stamp _ known) (by simp)
    obtain ⟨bytes, content, -⟩ := h.stands hc built (by simp)
    have missing : s.digest? c = none := Option.map_eq_none_iff.1 none_
    rw [content?, missing, rootOf, copied, placed] at content
    split at content
    · cases read : s.disk.readBytes (s.root / c.target .root) with
      | error e => simp [read, Except.toOption] at content
      | ok bytes' => exact .inr ⟨failure, bytes', known, rfl⟩
    · simp at content

end Sealed

section Hashed

variable {buildDir : Path} {t : Tree} {ns : Namespace} (hc : c ∈ t.namespaces)
  (below : ns.dir.Under c.dir) (built : w.own.HasBuilt (c.target .stamp))

include hc below built

theorem mem_hashed {x : ByteArray} (hx : x ∈ Local.hashedFor buildDir t w c) :
    x ∈ Local.hashed buildDir t w ns :=
  List.mem_flatMap.2 ⟨c, List.mem_filter.2 ⟨hc, decide_eq_true ⟨below, built⟩⟩, hx⟩

theorem mem_hashed_content (hq : q ∈ t.closure c) {bytes : ByteArray}
    (read : w.disk.readBytes (buildDir / q) = .ok bytes) : bytes ∈ Local.hashed buildDir t w ns :=
  mem_hashed hc below built
    (List.mem_append_left _ (List.mem_filterMap.2 ⟨q, hq, by rw [read]; rfl⟩))

theorem mem_hashed_listing {entries : List (Path × String)}
    (hashes : Digest.hashFiles w.disk buildDir (t.closure c) = .ok entries) :
    (Digest.listing entries).toUTF8 ∈ Local.hashed buildDir t w ns := by
  refine mem_hashed hc below built (List.mem_append_right _ ?_)
  rw [hashes]
  exact List.mem_singleton.2 rfl

end Hashed

/-- Two versions of a project in which the digest of a namespace was built, where nothing keeps it from
telling them apart. -/
structure Facing (s s' : Site) (source : Path) (w w' : World LocalState) (ns : Namespace) : Prop where
  left : s.Sealed source w
  right : s'.Sealed source w'
  root : s'.root = s.root
  config : s'.config = s.config
  faithful : ∀ x ∈ Local.hashed s.buildDir s.tree w ns, ∀ y ∈ Local.hashed s.buildDir s'.tree w' ns,
    Sha256.hash x = Sha256.hash y → x = y
  unmasked : ¬ Local.Masked s.root s.buildDir ns s.disk s.tree w s'.tree w'
  unmasked' : ¬ Local.Masked s.root s.buildDir ns s'.disk s'.tree w' s.tree w

/-- Whether a namespace is in both versions, and has one digest. -/
structure Agree (s s' : Site) (source : Path) (w w' : World LocalState) (c : Namespace) : Prop where
  left : s.tree.HasIn [source] (.stamp c)
  right : s'.tree.HasIn [source] (.stamp c)
  built : w.own.HasBuilt (c.target .stamp)
  built' : w'.own.HasBuilt (c.target .stamp)
  same : s.digest? c = s'.digest? c

theorem Agree.symm (h : Agree s s' source w w' c) : Agree s' s source w' w c :=
  ⟨h.right, h.left, h.built', h.built, h.same.symm⟩

namespace Facing

variable {ns c' : Namespace} (h : Facing s s' source w w' ns)

include h

theorem buildDir : s'.buildDir = s.buildDir := by rw [Site.buildDir, Site.buildDir, h.root, h.config]

theorem symm : Facing s' s source w' w ns where
  left := h.right
  right := h.left
  root := h.root.symm
  config := h.config.symm
  faithful x hx y hy e := (h.faithful y (h.buildDir ▸ hy) x (h.buildDir ▸ hx) e.symm).symm
  unmasked := by rw [h.root, h.buildDir]; exact h.unmasked'
  unmasked' := by rw [h.root, h.buildDir]; exact h.unmasked

variable (agree : Agree s s' source w w' c) (below : ns.dir.Under c.dir)

include agree below

/-- What one digest covers is the same. -/
theorem closure_eq : s.tree.closure c = s'.tree.closure c ∧
    ∀ q ∈ s.tree.closure c, s.bytesOf q = s'.bytesOf q := by
  have hashes := h.left.hashFiles_eq agree.left agree.built
  have hashes' := h.right.hashFiles_eq agree.right agree.built'
  rw [h.buildDir] at hashes'
  have digests := agree.same
  rw [h.left.digest?_eq agree.left agree.built, h.right.digest?_eq agree.right agree.built'] at digests
  have listings := h.faithful _ (mem_hashed_listing agree.left.1 below agree.built hashes)
    _ (mem_hashed_listing agree.right.1 below agree.built' hashes') (Option.some.inj digests)
  have listed {s : Site} {w : World LocalState} (h : s.Sealed source w) (hc : c ∈ s.tree.namespaces) :
      ∀ x ∈ (s.tree.closure c).map fun q => (q, Sha256.hash (s.bytesOf q)),
        Digest.Listed c.dir.front x := by
    intro x hx
    obtain ⟨q, hq, rfl⟩ := List.mem_map.1 hx
    exact ⟨h.exists_name hc hq, Sha256.length_hash _⟩
  have entries := Digest.listing_inj (listed h.left agree.left.1) (listed h.right agree.right.1)
    (String.toByteArray_inj.1 listings)
  have paths : s.tree.closure c = s'.tree.closure c := by
    have := congrArg (List.map Prod.fst) entries
    simpa [List.map_map, Function.comp_def] using this
  refine ⟨paths, fun q hq => ?_⟩
  rw [← paths] at entries
  have hash := (Prod.mk.inj (List.map_inj_left.1 entries q hq)).2
  have read := (h.left.member agree.left agree.built hq).2
  have read' := (h.right.member agree.right agree.built' (paths ▸ hq)).2
  rw [h.buildDir] at read'
  exact h.faithful _ (mem_hashed_content agree.left.1 below agree.built hq read)
    _ (mem_hashed_content agree.right.1 below agree.built' (paths ▸ hq) read') hash

/-- A file that one digest covers is covered by the other, and holds the same. -/
theorem exists_member (hq : q ∈ s.tree.closure c) : q ∈ s'.tree.closure c ∧
    ∃ bytes, s.memberOf s.digest? q = some bytes ∧ s'.memberOf s'.digest? q = some bytes := by
  obtain ⟨paths, bytes⟩ := h.closure_eq agree below
  have hq' := paths ▸ hq
  refine ⟨hq', s.bytesOf q, (h.left.member agree.left agree.built hq).1, ?_⟩
  rw [bytes q hq]
  exact (h.right.member agree.right agree.built' hq').1

/-- The digest of a sub-namespace was built too. -/
theorem built_child (hc' : c' ∈ s.tree.namespaces) (parent : c'.parent = some c.dir) :
    s.tree.HasIn [source] (.stamp c') ∧ c'.LiesBelow source ∧ ns.dir.Under c'.dir ∧
      c'.target .root ∈ s.tree.closure c ∧ w.own.HasBuilt (c'.target .stamp) := by
  obtain ⟨source', -, lies⟩ := h.left.prepared.shaped.below c' hc'
  have hq : c'.target .root ∈ s.tree.closure c :=
    (h.left.prepared.tidy.mem_closure agree.left.1).2 (.inr ⟨c', hc', parent, lies.rootFile_eq.symm⟩)
  have ha := h.left.hasIn_of_closure agree.left (a := .root c') hc' hq
  have below' := lies.under_of_parent parent below
  have built := h.left.covered.closure c agree.left.1 agree.built _ hq
  exact ⟨ha.stamp_of_root.1, ha.stamp_of_root.2, below', hq, (h.left.digest_or_copied ha built).resolve_right
    fun ⟨_, _, failed, own⟩ => h.unmasked (.copied hc' below' failed own)⟩

/-- Where one version has a sub-namespace, the other has no source file: it would hold the text of the
root module. -/
theorem file_ne_root {f : NamespacedFile} (hf : f ∈ s'.tree.files) (hc' : c' ∈ s.tree.namespaces)
    (parent : c'.parent = some c.dir) : f.virtualPath ≠ c'.target .root := by
  intro seen
  obtain ⟨left, -, below', hq, built⟩ := h.built_child agree below hc' parent
  obtain ⟨digest, known, read⟩ := h.left.exists_digest left built
  obtain ⟨-, bytes, member, member'⟩ := h.exists_member agree below hq
  rw [← seen] at member'
  have same := h.right.readBytes_original hf member'
  rw [h.root, h.left.bytesOf_root hc' member known] at same
  exact h.unmasked' (.text hf hc' below' seen read same)

/-- A sub-namespace in one version is in the other too, and has the same digest. -/
theorem child (hc' : c' ∈ s.tree.namespaces) (parent : c'.parent = some c.dir) :
    Agree s s' source w w' c' := by
  obtain ⟨left, lies, below', hq, built⟩ := h.built_child agree below hc' parent
  obtain ⟨hq', bytes, member, member'⟩ := h.exists_member agree below hq
  obtain ⟨f, hf, -, path⟩ | ⟨c'', hc'', parent', path⟩ :=
    (h.right.prepared.tidy.mem_closure agree.right.1).1 hq'
  · exact absurd path.symm (h.file_ne_root agree below hf hc' parent)
  · obtain ⟨right, lies', -, -, built'⟩ := h.symm.built_child agree.symm below hc'' parent'
    obtain rfl : c'' = c' := by
      have names := congrArg Path.fileName? (path.trans lies'.rootFile_eq)
      rw [lies'.fileName?_target (by decide), lies.fileName?_target (by decide)] at names
      exact lies'.inj lies ((String.append_left_inj _).1 (Option.some.inj names)).symm
    refine ⟨left, right, built, built', ?_⟩
    have hash := h.left.digest?_eq left built
    have hash' := h.right.digest?_eq right built'
    have texts := (h.left.bytesOf_root hc' member hash).symm.trans
      (h.right.bytesOf_root hc'' member' hash')
    have digests := rootText_digest_inj (by rw [Sha256.length_hash, Sha256.length_hash])
      (String.toByteArray_inj.1 texts)
    rw [hash, hash', digests]

/-- A source file in one version is in the other too, and holds the same. -/
theorem leaf {f : NamespacedFile} (hf : f ∈ s.tree.files) (dir : f.dir = c.dir) :
    ∃ f' ∈ s'.tree.files, f'.realPath = f.realPath ∧
      ∃ bytes, s.disk.readBytes (s.root / f.realPath) = .ok bytes ∧
        s'.disk.readBytes (s.root / f.realPath) = .ok bytes := by
  have hq : f.virtualPath ∈ s.tree.closure c :=
    (h.left.prepared.tidy.mem_closure agree.left.1).2 (.inl ⟨f, hf, dir, rfl⟩)
  obtain ⟨hq', bytes, member, member'⟩ := h.exists_member agree below hq
  obtain ⟨f', hf', dir', path⟩ | ⟨c', hc', parent, path⟩ :=
    (h.right.prepared.tidy.mem_closure agree.right.1).1 hq'
  · have real : f'.realPath = f.realPath := by
      obtain ⟨source₁, components, stem, -, hs, -, -, lies, -⟩ := h.left.prepared.tidy.file f hf
      obtain ⟨source₂, components', stem', -, hs', -, -, lies', -⟩ := h.right.prepared.tidy.file f' hf'
      rw [h.config] at hs'
      have isName {components : List String} {stem : String} {f : NamespacedFile}
          (made : f.Made components stem) : ∀ n ∈ components, IsName n :=
        fun n hn => isName_of_isComponent (made.valid n (by simp [hn]))
      obtain ⟨rfl, rfl⟩ := Tree.namespaceIn_eq_of_parts h.left.prepared.apart hs hs' (isName lies.made)
        (isName lies'.made) (by rw [← lies.dir_eq, ← lies'.dir_eq, dir, dir'])
      obtain ⟨rfl, kind⟩ := Tree.Tidy.eq_of_virtualPath lies.made lies'.made (dir.trans dir'.symm)
        (by rw [path])
      rw [lies.realPath_eq, lies'.realPath_eq, kind]
    have read' := h.right.readBytes_original hf' (path ▸ member')
    rw [h.root, real] at read'
    exact ⟨f', hf', real, bytes, h.left.readBytes_original hf member, read'⟩
  · obtain ⟨source', -, lies⟩ := h.right.prepared.shaped.below c' hc'
    exact absurd (path.trans lies.rootFile_eq) (h.symm.file_ne_root agree.symm below hf hc' parent)

end Facing

section Subtree

variable {ns : Namespace}

/-- Around a namespace that has one around it there is that. -/
theorem Sealed.mem_outer (h : s.Sealed source w) {last : String}
    (hc : Tree.namespaceIn source (components ++ [last]) ∈ s.tree.namespaces) (ne : components ≠ []) :
    Tree.namespaceIn source components ∈ s.tree.namespaces ∧ ∀ n ∈ components ++ [last], IsName n := by
  have orderly : Tree.Orderly s.config.sourceDirs
      (Tree.FoundIn s.disk s.root s.config.sourceDirs) :=
    Tree.orderly_foundIn h.prepared.clean.sound (List.Subset.refl _)
  obtain ⟨t, names, done, e⟩ := (h.prepared.tidy.namespace_iff _).1 hc
  have names_eq := congrArg Namespace.components e
  rw [Tree.namespaceIn_components, Tree.namespaceIn_components] at names_eq
  subst names_eq
  obtain ⟨rfl, -⟩ := Tree.namespaceIn_eq_of_parts h.prepared.apart h.mem_source (orderly.source done)
    (orderly.isName done) (orderly.isName done) (congrArg (fun c => c.dir.parts) e)
  exact ⟨(h.prepared.tidy.namespace_iff _).2 ⟨source, components, orderly.closed done ne, rfl⟩,
    orderly.isName done⟩

/-- The namespaces from one that is in both versions down to one that is in the first are in both. -/
theorem Facing.agree_below (h : Facing s s' source w w' ns) (agree : Agree s s' source w w' ns)
    (lies : ns.LiesBelow source) (rest : List String)
    (hc : Tree.namespaceIn source (ns.components ++ rest) ∈ s.tree.namespaces) :
    Agree s s' source w w' (Tree.namespaceIn source (ns.components ++ rest)) := by
  have tidy := h.left.prepared.tidy
  have eq := Tree.eq_namespaceIn lies
  -- from the outermost component on
  induction rest using List.reverseRecOn with
  | nil => rwa [List.append_nil, ← eq]
  | append_singleton rest last ih =>
    rw [← List.append_assoc] at hc ⊢
    have ne : ns.components ++ rest ≠ [] := fun e => lies.ne_nil (List.append_eq_nil_iff.1 e).1
    obtain ⟨outer, isName⟩ := h.left.mem_outer hc ne
    have agree := ih outer
    have below : ns.dir.Under (Tree.namespaceIn source (ns.components ++ rest)).dir := by
      refine ⟨rest, ?_⟩
      rw [names_of_parts lies.parts_dir, Tree.namespaceIn_dir,
        names_below fun n hn => isName n (List.mem_append_left _ hn), List.append_assoc]
    refine h.child agree below hc ?_
    rw [Tree.namespaceIn_parent isName, if_pos, List.dropLast_concat]
    · rfl
    · have := List.length_pos_of_ne_nil ne
      rw [List.length_append, List.length_singleton]
      omega

/-- A namespace below another one has more components, of the same source. -/
theorem Sealed.exists_rest (h : s.Sealed source w) (lies : ns.LiesBelow source) {t : Path}
    {components : List String} (ht : t ∈ s.config.sourceDirs) (isName : ∀ n ∈ components, IsName n)
    (below : ns.dir.Under (t.below components)) :
    t = source ∧ ∃ rest, components = ns.components ++ rest := by
  obtain ⟨rest, e⟩ := below
  rw [names_of_parts lies.parts_dir, names_below isName, List.append_assoc] at e
  obtain ⟨rfl, e⟩ := h.prepared.apart.eq h.mem_source ht e
  exact ⟨rfl, rest, List.append_cancel_left e.symm⟩

/-- The subtree of one version is part of the other. -/
theorem Facing.partOf (h : Facing s s' source w w' ns) (agree : Agree s s' source w w' ns)
    (lies : ns.LiesBelow source) :
    Tree.PartOf s.root ns.dir s.disk s.tree s'.disk s'.tree where
  namespaces c hc below := by
    obtain ⟨t, ht, lies'⟩ := h.left.prepared.shaped.below c hc
    obtain ⟨rfl, rest, e⟩ := h.left.exists_rest lies ht lies'.isName (lies'.dir_eq ▸ below)
    have eq : c = Tree.namespaceIn t (ns.components ++ rest) := e ▸ Tree.eq_namespaceIn lies'
    rw [eq] at hc ⊢
    exact (h.agree_below agree lies rest hc).right.1
  files f hf below := by
    obtain ⟨t, components, stem, -, ht, -, -, lies', hc⟩ := h.left.prepared.tidy.file f hf
    obtain ⟨rfl, rest, rfl⟩ := h.left.exists_rest lies ht
      (fun n hn => isName_of_isComponent (lies'.made.valid n (by simp [hn]))) (lies'.dir_eq ▸ below)
    have below : ns.dir.Under (Tree.namespaceIn t (ns.components ++ rest)).dir := by
      rwa [Tree.namespaceIn_dir, ← lies'.dir_eq]
    exact h.leaf (h.agree_below agree lies rest hc) below hf lies'.dir_eq

end Subtree

end Site

namespace Local

variable {root : Path} {config : Config} {d d' : Disk} {t t' : Tree} {ns ns' : Namespace}
  {w w' : World LocalState} {source : Path}

/-- The site of a project of whose analyzer nothing is taken. -/
def plainSite (root : Path) (config : Config) (d : Disk) (t : Tree) : Site :=
  ⟨root, config, d, t, fun _ _ _ => .error .notFound, False⟩

/-- Below a source whose path is straight, all that a build relies on is in order. -/
theorem prepared_plainSite (sound : d.Sound) (plain : d.Plain) (accepted : Tree.scan d root config = .ok t)
    (vacant : d.Vacant (root / config.buildDir)) (apart : Apart config.sourceDirs)
    (hs : source ∈ config.sourceDirs) (direct : source.Direct) :
    (plainSite root config d t).Prepared [source] where
  clean := ⟨sound, plain, fun q ⟨names, ne, e⟩ => e ▸ vacant.entryAt?_eq sound ne⟩
  accepted := accepted
  apart := apart
  sub := fun x hx => List.mem_singleton.1 hx ▸ hs
  apart_used := List.pairwise_singleton _ _
  direct := fun x hx => List.mem_singleton.1 hx ▸ direct
  aside := fun x hx q components file below message hm => by
    obtain rfl := List.mem_singleton.1 hx
    exact aside_own (below.straight direct) hm (List.prefix_append _ _)

/-- What was built for a digest is in order. -/
theorem CleanDigest.sealed (h : CleanDigest root config d t ns w) (apart : Apart config.sourceDirs)
    (hs : source ∈ config.sourceDirs) (direct : source.Direct) (lies : ns.LiesBelow source) :
    (plainSite root config d t).Sealed source w ∧ t.HasIn [source] (.stamp ns) ∧
      w.own.HasBuilt (ns.target .stamp) := by
  have prepared := prepared_plainSite h.sound h.plain h.accepted h.vacant apart hs direct
  have ha : t.HasIn [source] (.stamp ns) := ⟨h.mem, source, by simp, _, _, _, .stamp lies⟩
  obtain ⟨programs, w₀, path, disk, new, run⟩ := h.built
  have answers : (plainSite root config d t).answered → (plainSite root config d t).Answers programs :=
    False.elim
  obtain ⟨o, w₁, run', works, idle, -⟩ :=
    build_correct prepared answers (prepared.clean.works [source] disk new) (by rw [new]) ha
  obtain ⟨rfl, rfl⟩ := Prod.mk.inj (Option.some.inj (run.symm.trans run'))
  have course := buildWithin_follows (prepared.tidy.closed_sharp root config programs) _ _
    (Tree.sharp_target (c := 'p') (by decide) (by simp) ns) _ _ _ run
  have covered : Covered t w.own := course.covered prepared.tidy rfl (new ▸ .start t)
  exact ⟨⟨prepared, works, covered, idle⟩, ha, hasBuilt_of_buildWithin run⟩

/-- If a clean build of the digest of a namespace comes to the same in two versions of a project, the
subtree of the namespace is the same in both, or two of the strings that were hashed have one hash, or
something keeps the digest from telling. -/
theorem digest_covers_subtree (apart : Apart config.sourceDirs)
    (direct : ∀ source ∈ config.sourceDirs, ns.LiesBelow source → source.Direct)
    (h : CleanDigest root config d t ns w) (h' : CleanDigest root config d' t' ns' w')
    (dir : ns.dir.same ns'.dir = true)
    (same : w.disk.readBytes (root / config.buildDir / ns.target .stamp) =
      w'.disk.readBytes (root / config.buildDir / ns'.target .stamp)) :
    Tree.PartOf root ns.dir d t d' t' ∧ Tree.PartOf root ns.dir d' t' d t ∨
    (∃ x ∈ hashed (root / config.buildDir) t w ns ++ hashed (root / config.buildDir) t' w' ns,
      ∃ y ∈ hashed (root / config.buildDir) t w ns ++ hashed (root / config.buildDir) t' w' ns,
        x ≠ y ∧ Sha256.hash x = Sha256.hash y) ∨
    Masked root (root / config.buildDir) ns d t w t' w' ∨
    Masked root (root / config.buildDir) ns d' t' w' t w := by
  obtain ⟨source, hs, lies⟩ := (Tree.Shaped.scan h.accepted).below ns h.mem
  obtain ⟨source', hs', lies'⟩ := (Tree.Shaped.scan h'.accepted).below ns' h'.mem
  obtain rfl : ns = ns' := by
    have dirs := same_iff.1 dir
    rw [lies.dir_eq, lies'.dir_eq] at dirs
    obtain ⟨rfl, e⟩ := Tree.namespaceIn_eq_of_parts apart hs hs' lies.isName lies'.isName dirs
    rw [Tree.eq_namespaceIn lies, Tree.eq_namespaceIn lies', e]
  obtain ⟨left, hc, built⟩ := h.sealed apart hs (direct source hs lies) lies
  obtain ⟨right, hc', built'⟩ := h'.sealed apart hs (direct source hs lies) lies
  by_contra no
  simp only [not_or, not_exists, not_and] at no
  obtain ⟨differ, collisions, unmasked, unmasked'⟩ := no
  have facing : Site.Facing (plainSite root config d t) (plainSite root config d' t') source w w' ns :=
    { left, right, root := rfl, config := rfl, unmasked, unmasked'
      faithful := fun x hx y hy e => by
        by_contra ne
        exact collisions x (List.mem_append_left _ hx) y (List.mem_append_right _ hy) ne e }
  obtain ⟨digest, known, read⟩ := left.exists_digest hc built
  obtain ⟨digest', known', read'⟩ := right.exists_digest hc' built'
  have agree : Site.Agree (plainSite root config d t) (plainSite root config d' t') source w w' ns := by
    refine ⟨hc, hc', built, built', ?_⟩
    have texts := Except.ok.inj (read.symm.trans (same.trans read'))
    rw [known, known', (String.append_left_inj _).1 (String.toByteArray_inj.1 texts)]
  exact differ (facing.partOf agree lies) (facing.symm.partOf agree.symm lies)

/-! ### Sample projects -/

/-- Whether a digest is some text. -/
def stampIs (config : Config) (ns : Namespace) (stamp : String) (w : World LocalState) : Bool :=
  (w.disk.readBytes (⟨"/p"⟩ / config.buildDir / ns.target .stamp)).toOption.any fun bytes =>
    decide (bytes.data = stamp.toUTF8.data)

theorem readBytes_of_stampIs {stamp : String} (h : stampIs config ns stamp w = true) :
    w.disk.readBytes (⟨"/p"⟩ / config.buildDir / ns.target .stamp) = .ok stamp.toUTF8 := by
  rw [stampIs] at h
  cases read : w.disk.readBytes (⟨"/p"⟩ / config.buildDir / ns.target .stamp) with
  | error e => simp [read, Except.toOption] at h
  | ok bytes =>
    rw [read] at h
    exact congrArg Except.ok (ByteArray.ext (of_decide_eq_true h))

/-- What is found by running a build of a digest. -/
theorem exists_cleanDigest {c : World LocalState → Bool} (sound : d.Sound) (plain : d.Plain)
    (accepted : Tree.scan d ⟨"/p"⟩ config = .ok t) (vacant : d.Vacant (⟨"/p"⟩ / config.buildDir))
    (mem : ns ∈ t.namespaces)
    (run : (Local.build (t.project ⟨"/p"⟩ config fun _ _ _ _ => .error .notFound) (ns.target .stamp)
      (newWorld d)).any (fun x => x.1.isOk && c x.2) = true) :
    ∃ w, CleanDigest ⟨"/p"⟩ config d t ns w ∧ c w = true := by
  obtain ⟨o, w, run, checked⟩ := exists_of_run (c := fun o w => o.isOk && c w) run
  obtain ⟨done, checked⟩ := Bool.and_eq_true_iff.1 checked
  cases o with
  | error failure => simp [Except.isOk, Except.toBool] at done
  | ok path =>
    exact ⟨w, ⟨sound, plain, accepted, vacant, mem, _, newWorld d, path, rfl, rfl, run⟩, checked⟩

/-- The namespace `foo` of a source directory. -/
def fooIn (source : String) : Namespace := Tree.namespaceIn ⟨source⟩ ["foo"]

/-- The small project, with one more source outside of `lib/foo`. -/
def widerDisk : Disk :=
  sampleDisk [["lib"], ["lib", "foo"]]
    [(["lib", "foo", "a.ml"], "let x = 1\n"), (["lib", "b.ml"], "let y = 2\n")]

set_option maxRecDepth 100000 in
/-- Two versions of a small project that differ outside of `lib/foo` only. -/
theorem digest_covers_subtree_smallDisk :
    let t := sampleTree smallDisk libConfig
    let t' := sampleTree widerDisk libConfig
    let buildDir := (⟨"/p"⟩ : Path) / libConfig.buildDir
    ∃ w w', CleanDigest ⟨"/p"⟩ libConfig smallDisk t (fooIn "lib") w ∧
      CleanDigest ⟨"/p"⟩ libConfig widerDisk t' (fooIn "lib") w' ∧
      w.disk.readBytes (buildDir / (fooIn "lib").target .stamp) =
        w'.disk.readBytes (buildDir / (fooIn "lib").target .stamp) ∧
      (Tree.PartOf ⟨"/p"⟩ (fooIn "lib").dir smallDisk t widerDisk t' ∧
          Tree.PartOf ⟨"/p"⟩ (fooIn "lib").dir widerDisk t' smallDisk t ∨
        (∃ x ∈ hashed buildDir t w (fooIn "lib") ++ hashed buildDir t' w' (fooIn "lib"),
          ∃ y ∈ hashed buildDir t w (fooIn "lib") ++ hashed buildDir t' w' (fooIn "lib"),
            x ≠ y ∧ Sha256.hash x = Sha256.hash y) ∨
        Masked ⟨"/p"⟩ buildDir (fooIn "lib") smallDisk t w t' w' ∨
        Masked ⟨"/p"⟩ buildDir (fooIn "lib") widerDisk t' w' t w) := by
  intro t t' buildDir
  have direct : ∀ source ∈ libConfig.sourceDirs, (fooIn "lib").LiesBelow source → source.Direct := by
    simp only [libConfig, List.mem_singleton, forall_eq]
    exact fun _ => ⟨by decide +kernel, by decide +kernel⟩
  let stamp := "84dff846bc8248973014155159bbc714893fd089e266adec44a1b1ad1b8d0728\n"
  have small : ∃ w, CleanDigest ⟨"/p"⟩ libConfig smallDisk t (fooIn "lib") w ∧
      stampIs libConfig (fooIn "lib") stamp w = true :=
    exists_cleanDigest (by decide +kernel) (sampleDisk_plain (by decide +kernel))
      (scan_sampleTree (by decide +kernel))
      (.missing (by decide +kernel) (by decide +kernel) (by decide +kernel)) (by decide +kernel)
      (by decide +kernel)
  have wider : ∃ w, CleanDigest ⟨"/p"⟩ libConfig widerDisk t' (fooIn "lib") w ∧
      stampIs libConfig (fooIn "lib") stamp w = true :=
    exists_cleanDigest (by decide +kernel) (sampleDisk_plain (by decide +kernel))
      (scan_sampleTree (by decide +kernel))
      (.missing (by decide +kernel) (by decide +kernel) (by decide +kernel)) (by decide +kernel)
      (by decide +kernel)
  obtain ⟨w, built, told⟩ := small
  obtain ⟨w', built', told'⟩ := wider
  have same := (readBytes_of_stampIs told).trans (readBytes_of_stampIs told').symm
  exact ⟨w, w', built, built', same,
    digest_covers_subtree (List.pairwise_singleton _ _) direct built built' (same_self _) same⟩

/-! ### What a digest does not tell -/

/-- A file of one version whose like is not in the other. -/
theorem not_partOf {dir : Path} (h : ∃ f ∈ t.files, dir.Under f.dir ∧ ∀ f' ∈ t'.files,
    f'.realPath = f.realPath → (d.readBytes (root / f.realPath)).toOption ≠
      (d'.readBytes (root / f.realPath)).toOption) : ¬ Tree.PartOf root dir d t d' t' := by
  intro part
  obtain ⟨f, hf, under, differ⟩ := h
  obtain ⟨f', hf', real, bytes, read, read'⟩ := part.files f hf under
  exact differ f' hf' real (by rw [read, read'])

/-- Two versions of a project in which the digest of a namespace is the same, although something below
it is in the first only and no two of the strings that were hashed have one hash. -/
def Untold (config : Config) (dir : Path) (d d' : Disk) : Prop :=
  Apart config.sourceDirs ∧ ∃ t t' ns w w', CleanDigest ⟨"/p"⟩ config d t ns w ∧ CleanDigest ⟨"/p"⟩ config d' t' ns w' ∧
    ns.dir = dir ∧
    w.disk.readBytes (⟨"/p"⟩ / config.buildDir / ns.target .stamp) =
      w'.disk.readBytes (⟨"/p"⟩ / config.buildDir / ns.target .stamp) ∧
    (∀ x ∈ hashed (⟨"/p"⟩ / config.buildDir) t w ns ++ hashed (⟨"/p"⟩ / config.buildDir) t' w' ns,
      ∀ y ∈ hashed (⟨"/p"⟩ / config.buildDir) t w ns ++ hashed (⟨"/p"⟩ / config.buildDir) t' w' ns,
        Sha256.hash x = Sha256.hash y → x = y) ∧
    ¬ Tree.PartOf ⟨"/p"⟩ ns.dir d t d' t'

/-- A build of a digest after which that is some text, and for which only some strings were hashed. -/
def DigestComes (config : Config) (d : Disk) (t : Tree) (ns : Namespace) (stamp : String)
    (strings : List String) : Prop :=
  ∃ w, CleanDigest ⟨"/p"⟩ config d t ns w ∧
    w.disk.readBytes (⟨"/p"⟩ / config.buildDir / ns.target .stamp) = .ok stamp.toUTF8 ∧
    ∀ x ∈ hashed (⟨"/p"⟩ / config.buildDir) t w ns, ∃ text ∈ strings, text.toUTF8 = x

theorem untold_of_comes {stamp : String} {strings : List String} (apart : Apart config.sourceDirs)
    (h : DigestComes config d t ns stamp strings) (h' : DigestComes config d' t' ns stamp strings)
    (distinct : (strings.map fun text => Sha256.hash text.toUTF8).Nodup)
    (differ : ∃ f ∈ t.files, ns.dir.Under f.dir ∧ ∀ f' ∈ t'.files, f'.realPath = f.realPath →
      (d.readBytes (⟨"/p"⟩ / f.realPath)).toOption ≠ (d'.readBytes (⟨"/p"⟩ / f.realPath)).toOption) :
    Untold config ns.dir d d' := by
  obtain ⟨w, built, read, known⟩ := h
  obtain ⟨w', built', read', known'⟩ := h'
  refine ⟨apart, t, t', ns, w, w', built, built', rfl, read.trans read'.symm, ?_, not_partOf differ⟩
  have all : ∀ x ∈ hashed (⟨"/p"⟩ / config.buildDir) t w ns ++
      hashed (⟨"/p"⟩ / config.buildDir) t' w' ns, ∃ text ∈ strings, text.toUTF8 = x :=
    fun x hx => (List.mem_append.1 hx).elim (known x) (known' x)
  intro x hx y hy same
  obtain ⟨text, mem, rfl⟩ := all x hx
  obtain ⟨text', mem', rfl⟩ := all y hy
  rw [List.inj_on_of_nodup_map distinct mem mem' same]

/-- Whether no strings but some were hashed for a digest. -/
def hashesAmong (config : Config) (t : Tree) (ns : Namespace) (strings : List String)
    (w : World LocalState) : Bool :=
  (hashed (⟨"/p"⟩ / config.buildDir) t w ns).all fun x =>
    decide (∃ text ∈ strings, text.toUTF8.data = x.data)

theorem digestComes_of_run {stamp : String} {strings : List String} (sound : d.Sound) (plain : d.Plain)
    (accepted : Tree.scan d ⟨"/p"⟩ config = .ok t) (vacant : d.Vacant (⟨"/p"⟩ / config.buildDir))
    (mem : ns ∈ t.namespaces)
    (run : (Local.build (t.project ⟨"/p"⟩ config fun _ _ _ _ => .error .notFound) (ns.target .stamp)
      (newWorld d)).any (fun x => x.1.isOk &&
        (stampIs config ns stamp x.2 && hashesAmong config t ns strings x.2)) = true) :
    DigestComes config d t ns stamp strings := by
  obtain ⟨w, built, checked⟩ := exists_cleanDigest (c := fun w =>
    stampIs config ns stamp w && hashesAmong config t ns strings w) sound plain accepted vacant mem run
  obtain ⟨told, among⟩ := Bool.and_eq_true_iff.1 checked
  simp only [hashesAmong, List.all_eq_true, decide_eq_true_eq] at among
  exact ⟨w, built, readBytes_of_stampIs told, fun x hx =>
    (among x hx).imp fun _ ⟨mem, same⟩ => ⟨mem, ByteArray.ext same⟩⟩

/-- A project with files in the namespace `foo` of the source `lib`. -/
def fooDisk (dirs : List String) (files : List (String × String)) : Disk :=
  sampleDisk (["lib"] :: ["lib", "foo"] :: dirs.map (["lib", "foo", ·]))
    (files.map fun (name, text) => (["lib", "foo", name], text))

/-- A project whose source and build directory are beside it. -/
def asideDisk (text : String) : Disk :=
  ⟨[(["p"], .dir), (["b"], .dir), (["lib"], .dir), (["lib", "foo"], .dir),
    (["lib", "foo", "a.ml"], .file text.toUTF8)]⟩

/-- Settings with one source directory. -/
def sourceConfig (source buildDir : String) : Config :=
  { sourceDirs := [⟨source⟩], buildDir := ⟨buildDir⟩ }

/-- The hash of nothing. -/
def emptyHash : String := "e3b0c44298fc1c149afbf4c8996fb92427ae41e4649b934ca495991b7852b855"

/-- The text of the root module of a namespace `foo/bar` with nothing in it. -/
def bareText : String := "(* namespace Foo__bar, digest " ++ emptyHash ++ " *)\n"

section

set_option maxRecDepth 100000

/-- A source file may hold the text of the root module of a sub-namespace with nothing in it. -/
theorem untold_text : Untold libConfig (fooIn "lib").dir (fooDisk [] [("bar.ml", bareText)])
    (fooDisk ["bar"] []) := by
  let listed := "F:lib/foo/foo__bar.ml:98d8d6401ed96620acab61146f7f3697ca8642926e5d864e22a52634e1b71c71\n"
  let stamp := "3e2e25f7543691b2960f123dbf8e836eb786d1d3d308f3d01b37817b44776140\n"
  have leaf : DigestComes libConfig (fooDisk [] [("bar.ml", bareText)])
      (sampleTree (fooDisk [] [("bar.ml", bareText)]) libConfig) (fooIn "lib") stamp
      ["", bareText, listed] :=
    digestComes_of_run (by decide +kernel) (sampleDisk_plain (by decide +kernel))
      (scan_sampleTree (by decide +kernel))
      (.missing (by decide +kernel) (by decide +kernel) (by decide +kernel)) (by decide +kernel)
      (by decide +kernel)
  have bare : DigestComes libConfig (fooDisk ["bar"] []) (sampleTree (fooDisk ["bar"] []) libConfig)
      (fooIn "lib") stamp ["", bareText, listed] :=
    digestComes_of_run (by decide +kernel) (sampleDisk_plain (by decide +kernel))
      (scan_sampleTree (by decide +kernel))
      (.missing (by decide +kernel) (by decide +kernel) (by decide +kernel)) (by decide +kernel)
      (by decide +kernel)
  exact untold_of_comes (List.pairwise_singleton _ _) leaf bare (by decide +kernel) (by decide +kernel)

theorem vacant_asideDisk (text : String) :
    (asideDisk text).Vacant (⟨"/p"⟩ / (sourceConfig "../lib" "../b").buildDir) := by
  refine .empty rfl fun names ne => ?_
  have place : Place.follow []
      ((⟨"/p"⟩ : Path) / (sourceConfig "../lib" "../b").buildDir).names = ["b"] := by
    decide
  rw [place]
  obtain ⟨name, rest, rfl⟩ := List.exists_cons_of_ne_nil ne
  rfl

theorem plain_asideDisk {text : String} (sound : (asideDisk text).Sound) : (asideDisk text).Plain :=
  sound.plain fun x hx link => by
    simp only [asideDisk, List.mem_cons, List.not_mem_nil, or_false] at hx
    rcases hx with rfl | rfl | rfl | rfl | rfl <;> simp

/-- A source file of a directory that is not relative is copied to where it is, and has nothing in it
then. -/
theorem untold_absolute : Untold (sourceConfig "/p/lib" "_build") (fooIn "/p/lib").dir
    (fooDisk [] [("a.ml", "let x = 1\n")]) (fooDisk [] [("a.ml", "let x = 2\n")]) := by
  have comes : ∀ text ∈ ["let x = 1\n", "let x = 2\n"],
      DigestComes (sourceConfig "/p/lib" "_build") (fooDisk [] [("a.ml", text)])
        (sampleTree (fooDisk [] [("a.ml", text)]) (sourceConfig "/p/lib" "_build")) (fooIn "/p/lib")
        "010e0a7abeea5cb883f5ad3387d3c0e8265e3df5a017ad1109085ba2b6f0232c\n"
        ["", "F:/p/lib/foo/foo__a.ml:" ++ emptyHash ++ "\n"] := by
    simp only [List.forall_mem_cons, List.not_mem_nil, false_imp_iff, implies_true, and_true]
    constructor <;>
      exact digestComes_of_run (by decide +kernel) (sampleDisk_plain (by decide +kernel))
        (scan_sampleTree (by decide +kernel))
        (.missing (by decide +kernel) (by decide +kernel) (by decide +kernel)) (by decide +kernel)
        (by decide +kernel)
  exact untold_of_comes (List.pairwise_singleton _ _) (comes _ (by decide)) (comes _ (by decide))
    (by decide +kernel) (by decide +kernel)

/-- So it is with a directory that is reached through `..` and lies beside the project as it does
beside the build directory. -/
theorem untold_upward : Untold (sourceConfig "../lib" "../b") (fooIn "../lib").dir
    (asideDisk "let x = 1\n") (asideDisk "let x = 2\n") := by
  have comes : ∀ text ∈ ["let x = 1\n", "let x = 2\n"],
      DigestComes (sourceConfig "../lib" "../b") (asideDisk text)
        (sampleTree (asideDisk text) (sourceConfig "../lib" "../b")) (fooIn "../lib")
        "ad07ac5cb450678ba5e4f5a61935e15e84dc7a5d12a36645304f6ea29e27a404\n"
        ["", "F:../lib/foo/foo__a.ml:" ++ emptyHash ++ "\n"] := by
    simp only [List.forall_mem_cons, List.not_mem_nil, false_imp_iff, implies_true, and_true]
    constructor <;>
      exact digestComes_of_run (by decide +kernel) (plain_asideDisk (by decide +kernel))
        (scan_sampleTree (by decide +kernel)) (vacant_asideDisk _) (by decide +kernel)
        (by decide +kernel)
  exact untold_of_comes (List.pairwise_singleton _ _) (comes _ (by decide)) (comes _ (by decide))
    (by decide +kernel) (by decide +kernel)

end

end Local
end FlatModules
