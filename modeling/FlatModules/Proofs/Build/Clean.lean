import FlatModules.Proofs.Build.Correct

/-!
# Build — clean builds

What artifacts hold that are built from an empty build directory, in whatever order: a source file
under its flat name what its original holds, and digests and root modules each other's, down the
namespaces (`clean_build`).  Every artifact is built there if all their paths are ones that a disk
takes (`Tree.Roomy`); the names of files under their flat names may be too long for that.
-/

namespace FlatModules

open Naming Path Tree

namespace Disk

/-- A disk without links. -/
def Plain (d : Disk) : Prop := ∀ q text, d.entryAt? q ≠ some (.link text)

theorem Sound.plain {d : Disk} (h : d.Sound) (none_ : ∀ x ∈ d.entries, ∀ text, x.2 ≠ .link text) :
    d.Plain :=
  fun _ text link => none_ _ (h.mem_of_link link) text rfl

/-- Whether a directory is empty, or not there yet but can be made. -/
inductive Vacant (d : Disk) (dir : Path) : Prop
  | empty (there : d.isDir dir = true)
      (nothing : ∀ names, names ≠ [] → d.entryAt? (Place.follow [] dir.names ++ names) = none)
  | missing (nothing : d.entryAt? (Place.follow [] dir.names) = none)
      (way : d.Open (Place.trail [] dir.names)) (noUp : ".." ∉ dir.names)

namespace Vacant

variable {d : Disk} {dir : Path}

theorem entryAt?_eq (h : d.Vacant dir) (sound : d.Sound) {names : List String} (ne : names ≠ []) :
    d.entryAt? (Place.follow [] dir.names ++ names) = none := by
  cases h with
  | empty _ nothing => exact nothing names ne
  | missing nothing => exact sound.none_of_not_dir (by simp [nothing]) ne

theorem open_trail (h : d.Vacant dir) (sound : d.Sound) (plain : d.Plain) :
    d.Open (Place.trail [] dir.names) := by
  cases h with
  | empty there => exact fun q mem => .inr (((isDir_iff sound fun q _ => plain q).1 there).2 q mem)
  | missing _ way => exact way

/-- The way to a vacant directory does not lead through it. -/
theorem notMem_trail (h : d.Vacant dir) (sound : d.Sound) (plain : d.Plain) {names : List String}
    (ne : names ≠ []) : Place.follow [] dir.names ++ names ∉ Place.trail [] dir.names := by
  intro mem
  cases h with
  | empty there nothing =>
    have dirs := ((isDir_iff sound fun q _ => plain q).1 there).2
    simpa [nothing names ne] using dirs _ mem
  | missing _ _ noUp =>
    obtain ⟨front, -, pre, e⟩ := (Place.mem_trail_of_noUp noUp).1 mem
    rw [Place.follow_of_noUp noUp, List.append_assoc] at e
    obtain rfl := List.append_cancel_left e
    have longer := pre.length_le
    have := List.length_pos_of_ne_nil ne
    rw [List.length_append] at longer
    omega

end Vacant

end Disk

namespace Tree

variable (t : Tree)

/-- Whether the paths of artifacts, in the project and in the build directory, are ones that a disk
takes. -/
structure Roomy (root buildDir : Path) : Prop where
  file : ∀ f ∈ t.files, (root / f.realPath).Fits ∧ (buildDir / f.realPath).Fits ∧
    (buildDir / f.virtualPath).Fits
  namespace_ : ∀ ns ∈ t.namespaces, ∀ r ∈ [Rule.stamp, Rule.root, Rule.aliases],
    (buildDir / ns.target r).Fits

/-- The text of the root module of a namespace, by digests of namespaces. -/
def rootModule (digest : Namespace → String) (ns : Namespace) : String :=
  "(* namespace " ++ ns.moduleName ++ ", digest " ++ digest ns ++ " *)\n" ++
    aliasLines (t.members ns)

/-- What a file that a digest covers holds: a source file what its original does, and a root module
its text. -/
def memberBytes (original : NamespacedFile → ByteArray) (digest : Namespace → String) (q : Path) :
    ByteArray :=
  match t.fileAt? q with
  | some f => original f
  | none =>
    match t.namespaces.find? (·.rootFile.same q) with
    | some ns => (t.rootModule digest ns).toUTF8
    | none => ByteArray.empty

/-- Whether digests are of what the namespaces cover. -/
def Digests (original : NamespacedFile → ByteArray) (digest : Namespace → String) : Prop :=
  ∀ ns ∈ t.namespaces, digest ns =
    Digest.digestOf ((t.closure ns).map fun q => (q, t.memberBytes original digest q))

/-- What an artifact holds, by what originals hold and the digests of namespaces; of dependencies
nothing is said. -/
def cleanBytes (original : NamespacedFile → ByteArray) (digest : Namespace → String) :
    Artifact → ByteArray
  | .original f | .virtual f => original f
  | .stamp ns => (digest ns ++ "\n").toUTF8
  | .root ns => (t.rootModule digest ns).toUTF8
  | .aliases ns => (aliasLines (t.members ns)).toUTF8
  | .depends _ => ByteArray.empty

variable {t}

theorem Roomy.fits {root buildDir : Path} (h : t.Roomy root buildDir) {a : Artifact} (ha : t.Has a)
    (plain : ∀ b, a ≠ .depends b) : (buildDir / a.path).Fits := by
  cases a with
  | original f => exact (h.file f ha).2.1
  | virtual f => exact (h.file f ha).2.2
  | stamp ns | root ns | aliases ns => exact h.namespace_ ns ha _ (by simp)
  | depends b => exact absurd rfl (plain b)

end Tree

namespace Local

/-- The worlds that building artifacts of a tree comes to, one after the other. -/
inductive Built (p : Project) (t : Tree) (w₀ : World LocalState) : World LocalState → Prop
  | start : Built p t w₀ w₀
  | build {w a o w'} (hw : Built p t w₀ w) (ha : t.Has a)
      (run : Local.build p a.path w = some (o, w')) : Built p t w₀ w'

end Local

namespace Site

variable {s : Site} {used : List Path} {a : Artifact} {w w' : World LocalState}
  {programs : Analyzer.Programs}

/-- With no source marked, sources that lead straight down are prepared. -/
theorem prepared_of_unmarked (clean : s.Clean) (accepted : Tree.scan s.disk s.root s.config = .ok s.tree)
    (apart : Apart s.config.sourceDirs) (direct : ∀ source ∈ s.config.sourceDirs, source.Direct)
    (unmarked : Unmarked s.config.sourceDirs) : s.Prepared s.config.sourceDirs where
  clean := clean
  accepted := accepted
  apart := apart
  sub := List.Subset.refl _
  apart_used := apart
  direct := direct
  aside source hs _ _ _ lies _ hm := aside_of_unmarked unmarked (lies.straight (direct source hs)) hm

/-- A world whose engine is new is in order if its disk is. -/
theorem Tended.works (h : s.Tended used w.disk) (new : w.own = {}) : s.Works used w where
  tended := h
  came a _ o e := by simp [new, lookupPath?] at e
  busy a _ e := by simp [new, listsPath] at e
  untagged a _ _ := by simp [new, lookupPath?]

theorem Clean.works (h : s.Clean) (used : List Path) (disk : w.disk = s.disk) (new : w.own = {}) :
    s.Works used w :=
  Tended.works (disk ▸ h.tended used) new

/-- What is built of a tree keeps a world in order. -/
theorem Works.built (prepared : s.Prepared used) (tidy : ∀ a, s.tree.Has a → s.tree.HasIn used a)
    (answers : s.answered → s.Answers programs) {w₀ : World LocalState} (works : s.Works used w₀)
    (idle : w₀.own.inProgress = []) (built : Local.Built (s.project programs) s.tree w₀ w) :
    s.Works used w ∧ w.own.inProgress = [] := by
  induction built with
  | start => exact ⟨works, idle⟩
  | build hw ha run ih =>
    obtain ⟨o, w', run', works', idle', -⟩ :=
      Local.build_correct prepared answers ih.1 ih.2 (tidy _ ha)
    obtain ⟨rfl, rfl⟩ := Prod.mk.inj (Option.some.inj (run.symm.trans run'))
    exact ⟨works', idle'⟩

/-- What is built of an artifact whose target is not usable: nothing. -/
theorem content?_eq_none (prepared : s.Prepared used) (ha : s.tree.Has a)
    (plain : ∀ b, a ≠ .depends b) (unusable : ¬ s.Usable a.path) : s.content? a = none := by
  cases a with
  | original f | virtual f | aliases ns => exact if_neg unusable
  | stamp ns =>
    have none_ : s.digest? ns = none := by
      rw [digest?_eq prepared.tidy prepared.apart ha]
      exact if_neg fun both => unusable both.1
    rw [content?, none_, Option.map_none]
  | root ns =>
    rw [content?]
    cases s.digest? ns <;> exact if_neg unusable
  | depends b => exact absurd rfl (plain b)

section Roomy

variable (prepared : s.Prepared s.config.sourceDirs) (vacant : s.disk.Vacant s.buildDir)
  (roomy : s.tree.Roomy s.root s.buildDir)

include prepared vacant roomy

theorem usable (ha : s.tree.Has a) (plain : ∀ b, a ≠ .depends b) : s.Usable a.path := by
  have sound := prepared.clean.sound
  refine ⟨roomy.fits ha plain, vacant.open_trail sound prepared.clean.plain,
    vacant.notMem_trail sound prepared.clean.plain ?_⟩
  obtain ⟨-, source, -, components, base, extension, sits⟩ := prepared.tidy.hasIn ha
  rw [sits.lies.names]
  simp

/-- The originals of source files are there. -/
theorem exists_original {f : NamespacedFile} (hf : f ∈ s.tree.files) :
    ∃ bytes, s.disk.readBytes (s.root / f.realPath) = .ok bytes ∧
      s.content? (.original f) = some bytes := by
  obtain ⟨source, components, stem, entry, hs, done, ne, lies, -⟩ := prepared.tidy.file f hf
  have has : s.tree.Has (.original f) := hf
  have sits : Artifact.Sits (.original f) source components (flatName [stem]) f.kind.extension :=
    .original lies
  obtain ⟨-, there⟩ := done.2.exists_place prepared.clean.sound prepared.clean.plain
  rw [← List.append_assoc, ← flatName_singleton stem] at there
  cases entry with
  | dir => exact absurd rfl ne
  | link text => exact absurd there (prepared.clean.plain _ text)
  | file bytes =>
    have read : s.disk.readBytes (s.root / f.realPath) = .ok bytes :=
      prepared.readBytes_root has hs sits (roomy.file f hf).1 there
    have usable : s.Usable f.realPath :=
      usable prepared vacant roomy (a := .original f) has (by simp)
    refine ⟨bytes, read, ?_⟩
    rw [content?, copied, placed, if_pos usable, read]
    rfl

/-- What the original of a source file holds. -/
theorem seen_eq {f : NamespacedFile} (hf : f ∈ s.tree.files) :
    s.seen f = s.content? (.original f) :=
  if_pos (usable prepared vacant roomy (a := .virtual f) hf (by simp))

theorem rootOf_eq {ns : Namespace} (hn : ns ∈ s.tree.namespaces) (digest : String) :
    s.rootOf ns (some digest) =
      some (rootText ns.moduleName digest (aliasLines (s.tree.members ns))).toUTF8 :=
  if_pos (usable prepared vacant roomy (a := .root ns) hn (by simp))

/-- Every namespace has a digest.  By induction on the levels below it: the sub-namespaces that it
covers have theirs. -/
theorem exists_digest (n : Nat) : ∀ {ns : Namespace}, ns ∈ s.tree.namespaces →
    s.tree.height < ns.components.length + n → ∃ digest, s.digest? ns = some digest := by
  induction n with
  | zero =>
    intro ns hn low
    have := s.tree.length_le_height hn
    omega
  | succ n ih =>
    intro ns hn low
    have tidy := prepared.tidy
    have each (q : Path) (hq : q ∈ s.tree.closure ns) : (s.memberOf s.digest? q).isSome := by
      obtain ⟨a, -, rfl, lower, ⟨f, hf, rfl⟩ | ⟨c, hc, rfl⟩⟩ :=
        tidy.exists_member prepared.apart (List.Subset.refl _) (tidy.hasIn (a := .stamp ns) hn) hq
      · obtain ⟨bytes, -, content⟩ := exists_original prepared vacant roomy hf
        rw [Artifact.path, memberOf_virtual tidy.shaped hf, seen_eq prepared vacant roomy hf, content]
        rfl
      · have := s.tree.length_le_height hn
        have := s.tree.length_le_height hc
        simp only [Artifact.rank] at lower
        obtain ⟨digest, found⟩ := ih hc (by omega)
        rw [memberOf_root tidy prepared.apart hc, found, rootOf_eq prepared vacant roomy hc]
        rfl
    refine ⟨_, (digest?_eq tidy prepared.apart hn).trans (if_pos ⟨?_, each⟩)⟩
    exact usable prepared vacant roomy (a := .stamp ns) hn (by simp)

/-- What every artifact comes to, but for dependencies. -/
theorem content?_eq {original : NamespacedFile → ByteArray} {digest : Namespace → String}
    (originals : ∀ f ∈ s.tree.files, s.content? (.original f) = some (original f))
    (digests : ∀ ns ∈ s.tree.namespaces, s.digest? ns = some (digest ns)) (ha : s.tree.Has a)
    (plain : ∀ b, a ≠ .depends b) :
    s.content? a = some (s.tree.cleanBytes original digest a) := by
  cases a with
  | original f => exact originals f ha
  | virtual f => exact (seen_eq prepared vacant roomy ha).trans (originals f ha)
  | stamp ns => rw [content?, digests ns ha, cleanBytes, Option.map_some]
  | root ns => rw [content?, digests ns ha, rootOf_eq prepared vacant roomy ha, cleanBytes]; rfl
  | aliases ns => exact if_pos (usable prepared vacant roomy (a := .aliases ns) ha (by simp))
  | depends b => exact absurd rfl (plain b)

/-- What a digest covers is as the namespaces' digests have it. -/
theorem memberOf_eq {original : NamespacedFile → ByteArray} {digest : Namespace → String}
    (originals : ∀ f ∈ s.tree.files, s.content? (.original f) = some (original f))
    (digests : ∀ ns ∈ s.tree.namespaces, s.digest? ns = some (digest ns)) {ns : Namespace}
    (hn : ns ∈ s.tree.namespaces) {q : Path} (hq : q ∈ s.tree.closure ns) :
    s.memberOf s.digest? q = some (s.tree.memberBytes original digest q) := by
  have tidy := prepared.tidy
  unfold memberOf memberBytes
  cases file : s.tree.fileAt? q with
  | some f =>
    have hf : f ∈ s.tree.files := List.mem_of_find?_eq_some file
    exact (seen_eq prepared vacant roomy hf).trans (originals f hf)
  | none =>
    cases found : s.tree.namespaces.find? (·.rootFile.same q) with
    | some c =>
      have hc := List.mem_of_find?_eq_some found
      simp only [Option.bind_some, digests c hc, rootOf_eq prepared vacant roomy hc]
      rfl
    | none =>
      exfalso
      obtain ⟨a, -, rfl, -, ⟨f, hf, rfl⟩ | ⟨c, hc, rfl⟩⟩ :=
        tidy.exists_member prepared.apart (List.Subset.refl _) (tidy.hasIn (a := .stamp ns) hn) hq
      · rw [Artifact.path, tidy.shaped.fileAt?_virtualPath hf] at file
        simp at file
      · obtain ⟨source, -, lies⟩ := tidy.shaped.below c hc
        have no := List.find?_eq_none.1 found c hc
        rw [lies.rootFile_eq] at no
        exact no (same_self _)

theorem digests {original : NamespacedFile → ByteArray} {digest : Namespace → String}
    (originals : ∀ f ∈ s.tree.files, s.content? (.original f) = some (original f))
    (digests : ∀ ns ∈ s.tree.namespaces, s.digest? ns = some (digest ns)) :
    s.tree.Digests original digest := by
  intro ns hn
  have member (q : Path) (hq : q ∈ s.tree.closure ns) :=
    memberOf_eq prepared vacant roomy originals digests hn hq
  have files : (s.tree.closure ns).map (fun q => (q, (s.memberOf s.digest? q).getD ByteArray.empty)) =
      (s.tree.closure ns).map fun q => (q, s.tree.memberBytes original digest q) :=
    List.map_congr_left fun q hq => by rw [member q hq, Option.getD_some]
  have usable : s.Usable (ns.target .stamp) :=
    usable prepared vacant roomy (a := .stamp ns) hn (by simp)
  have covered := (digests ns hn).symm.trans (digest?_eq prepared.tidy prepared.apart hn)
  simp only [digestOf] at covered
  rw [if_pos ⟨usable, fun q hq => by simp [member q hq]⟩, files] at covered
  exact Option.some.inj covered

end Roomy

end Site

namespace Local

variable {t : Tree} {root : Path} {config : Config} {programs : Analyzer.Programs}

/-- What the building of an artifact comes to in a clean build. -/
structure BuiltClean (p : Project) (t : Tree) (original : NamespacedFile → ByteArray)
    (digest : Namespace → String) (a : Artifact) (o : Outcome) (w' : World LocalState) : Prop where
  built : o = .ok a.path
  holds : w'.disk.readBytes (p.buildDir / a.path) = .ok (t.cleanBytes original digest a)
  link : ∀ f, a = .virtual f → ∃ name, f.realPath.fileName? = some name ∧
    w'.disk.entryAt? (Place.follow [] (p.buildDir / a.path).names) = some (.link name)

/-- Whatever artifacts were built, in whatever order, since the build directory was empty, every one
of the others can be built and holds what a clean build makes it. -/
theorem clean_build {d : Disk} (sound : d.Sound) (plain : d.Plain)
    (accepted : Tree.scan d root config = .ok t) (apart : Apart config.sourceDirs)
    (direct : ∀ source ∈ config.sourceDirs, source.Direct) (unmarked : Unmarked config.sourceDirs)
    (vacant : d.Vacant (root / config.buildDir)) (roomy : t.Roomy root (root / config.buildDir))
    {w₀ : World LocalState} (disk : w₀.disk = d) (new : w₀.own = {}) :
    ∃ original digest, (∀ f ∈ t.files, d.readBytes (root / f.realPath) = .ok (original f)) ∧
      t.Digests original digest ∧
      ∀ w, Built (t.project root config programs) t w₀ w →
        ∀ a, t.Has a → (∀ b, a ≠ .depends b) → ∃ o w',
          Local.build (t.project root config programs) a.path w = some (o, w') ∧
            BuiltClean (t.project root config programs) t original digest a o w' := by
  -- nothing is taken of what the analyzer answers
  let s : Site := ⟨root, config, d, t, fun _ _ _ => .error .notFound, False⟩
  have clean : s.Clean := ⟨sound, plain, fun q ⟨names, ne, e⟩ => e ▸ vacant.entryAt?_eq sound ne⟩
  have prepared : s.Prepared config.sourceDirs :=
    Site.prepared_of_unmarked (s := s) clean accepted apart direct unmarked
  have originals (f : NamespacedFile) (hf : f ∈ t.files) :=
    Site.exists_original (s := s) prepared vacant roomy hf
  have digests (ns : Namespace) (hn : ns ∈ t.namespaces) : ∃ digest, s.digest? ns = some digest :=
    Site.exists_digest (s := s) prepared vacant roomy (t.height + 1) hn
      (Nat.lt_add_left _ (Nat.lt_succ_self _))
  choose! original read content using originals
  choose! digest known using digests
  refine ⟨original, digest, read,
    Site.digests (s := s) prepared vacant roomy content known, fun w built a ha other => ?_⟩
  have tidy (b : Artifact) (hb : t.Has b) : s.tree.HasIn config.sourceDirs b :=
    prepared.tidy.hasIn hb
  have answers : s.answered → s.Answers programs := False.elim
  obtain ⟨works, idle⟩ := Site.Works.built (s := s) prepared tidy answers
    (clean.works _ disk new) (by rw [new]) built
  obtain ⟨o, w', run, works', -, came⟩ :=
    Local.build_correct (s := s) prepared answers works idle (tidy a ha)
  have has := Site.content?_eq (s := s) prepared vacant roomy content known ha other
  refine ⟨o, w', run, ?_⟩
  cases o with
  | error failure =>
    have none_ : s.content? a = none := Site.Tells.eq came other
    simp [none_] at has
  | ok path =>
    have stands : s.Stands _ _ _ a path := came
    obtain ⟨bytes, tells, holds⟩ := stands.held
    obtain rfl := Option.some.inj (has.symm.trans (tells.eq other))
    obtain ⟨-, source, hs, components, base, extension, sits⟩ := tidy a ha
    have target := Site.target_of_lies (s := s) apart hs (direct source hs) sits.lies
    refine ⟨by rw [stands.path_eq], holds.readBytes works'.tended clean target, fun f e => ?_⟩
    obtain ⟨name, named, link⟩ := stands.link f e
    exact ⟨name, named, target.follow ▸ link⟩

/-! ### Sample projects -/

theorem sampleDisk_plain {dirs : List Place} {files : List (Place × String)}
    (sound : (sampleDisk dirs files).Sound) : (sampleDisk dirs files).Plain := by
  refine sound.plain fun x hx text => ?_
  simp only [sampleDisk, List.cons_append, List.mem_cons, List.mem_append, List.mem_map] at hx
  rcases hx with rfl | ⟨y, -, rfl⟩ | ⟨y, -, rfl⟩ <;> simp

/-- A project with a namespace in a namespace, and no build directory. -/
def deepDisk : Disk :=
  sampleDisk [["lib"], ["lib", "foo"], ["lib", "foo", "bar"]]
    [(["lib", "foo", "a.ml"], "let x = 1\n"), (["lib", "foo", "bar", "c.ml"], "let z = 3\n")]

theorem direct_libConfig : ∀ source ∈ libConfig.sourceDirs, source.Direct := by
  simp only [libConfig, List.mem_singleton, forall_eq]
  exact ⟨by decide +kernel, by decide +kernel⟩

theorem unmarked_libConfig : Unmarked libConfig.sourceDirs := by
  unfold Unmarked
  decide +kernel

set_option maxRecDepth 100000 in
/-- The root module of the outer namespace of that project, in a clean build. -/
theorem clean_build_deepDisk :
    let t := sampleTree deepDisk libConfig
    let p := t.project ⟨"/p"⟩ libConfig fun _ _ _ _ => .error .notFound
    ∃ ns ∈ t.namespaces, ns.target .root = ⟨"lib/foo.ml"⟩ ∧
      ∃ original digest, t.Digests original digest ∧
        ∃ o w', Local.build p (ns.target .root) (newWorld deepDisk) = some (o, w') ∧
          BuiltClean p t original digest (.root ns) o w' := by
  have sound : deepDisk.Sound := by decide +kernel
  have accepted := scan_sampleTree (d := deepDisk) (c := libConfig) (by decide +kernel)
  have apart : Apart libConfig.sourceDirs := List.pairwise_singleton _ _
  have vacant : deepDisk.Vacant (⟨"/p"⟩ / libConfig.buildDir) :=
    .missing (by decide +kernel) (by decide +kernel) (by decide +kernel)
  have roomy : (sampleTree deepDisk libConfig).Roomy ⟨"/p"⟩ (⟨"/p"⟩ / libConfig.buildDir) :=
    ⟨by decide +kernel, by decide +kernel⟩
  obtain ⟨ns, hn, named⟩ : ∃ ns ∈ (sampleTree deepDisk libConfig).namespaces,
      ns.target .root = ⟨"lib/foo.ml"⟩ := by
    decide +kernel
  have disk : (newWorld deepDisk).disk = deepDisk := rfl
  obtain ⟨original, digest, -, digests, built⟩ := clean_build sound (sampleDisk_plain sound) accepted
    apart direct_libConfig unmarked_libConfig vacant roomy disk rfl
  exact ⟨ns, hn, named, original, digest, digests, built _ .start (.root ns) hn (by simp)⟩

/-- An artifact is not built if its path is none that a disk takes. -/
theorem failed_of_not_fits {s : Site} {used : List Path} (prepared : s.Prepared used)
    (answers : s.answered → s.Answers programs) {w : World LocalState} (works : s.Works used w)
    (idle : w.own.inProgress = []) {a : Artifact} (ha : s.tree.HasIn used a)
    (plain : ∀ b, a ≠ .depends b) (long : ¬ (s.buildDir / a.path).Fits) :
    ∃ failure w', Local.build (s.project programs) a.path w = some (.error failure, w') := by
  obtain ⟨o, w', run, -, -, came⟩ := build_correct prepared answers works idle ha
  have none_ := Site.content?_eq_none prepared ha.1 plain fun usable => long usable.1
  cases o with
  | error failure => exact ⟨failure, w', run⟩
  | ok path =>
    have stands : s.Stands _ _ _ a path := came
    obtain ⟨bytes, tells, -⟩ := stands.held
    simp [tells.eq plain] at none_

/-- A name of as many letters. -/
def longName (n : Nat) : String := String.ofList (List.replicate n 'a')

theorem hasPair_replicate {mark c : Char} (h : c ≠ mark) (n : Nat) :
    hasPair mark (List.replicate n c) = false := by
  induction n with
  | zero => rfl
  | succ n ih => cases n <;> simp_all [hasPair, List.replicate_succ]

theorem isComponent_longName (n : Nat) : isComponent (longName (n + 1)) = true := by
  have pair := hasPair_replicate (show 'a' ≠ '_' by decide) (n + 1)
  rw [List.replicate_succ] at pair
  have last : ('a' :: List.replicate n 'a').getLast? = some 'a' := by
    rw [← List.replicate_succ, List.getLast?_replicate]
    simp
  have all : (List.replicate n 'a').all isComponentChar = true := by
    rw [List.all_replicate]
    split
    · rfl
    · decide
  rw [isComponent, longName, String.toList_ofList, List.replicate_succ]
  simp only [all, pair, last]
  decide

theorem utf8ByteSize_longName (n : Nat) : (longName n).utf8ByteSize = n := by
  induction n with
  | zero => rfl
  | succ n ih =>
    have push : longName (n + 1) = (longName n).push 'a' := by
      apply String.toList_inj.1
      simp [longName, List.replicate_succ']
    rw [push, String.utf8ByteSize_push, ih]
    rfl

/-- A project with one namespace that has nothing in it. -/
def bareDisk (name : String) : Disk := sampleDisk [["lib"], ["lib", name]] []

theorem sound_bareDisk {name : String} (h : isComponent name = true) : (bareDisk name).Sound := by
  have isName := isName_of_isComponent h
  have p : IsName "p" := by decide
  have lib : IsName "lib" := by decide
  refine ⟨?_, ?_, ?_⟩
  · simp [bareDisk, sampleDisk]
  · simp [bareDisk, sampleDisk, isName, p, lib]
  · intro x hx
    simp only [bareDisk, sampleDisk, List.map_cons, List.map_nil, List.append_nil, List.mem_cons,
      List.not_mem_nil, or_false] at hx
    rcases hx with rfl | rfl | rfl <;> rfl

theorem scan_bareDisk {name : String} (h : isComponent name = true) :
    ∃ t, Tree.scan (bareDisk name) ⟨"/p"⟩ libConfig = .ok t ∧
      t.namespaces = [namespaceIn ⟨"lib"⟩ [name]] := by
  have located : (bareDisk name).locate .target (⟨"/p"⟩ / ⟨"lib"⟩) = .ok ["p", "lib"] := rfl
  have dir : (bareDisk name).isDir (⟨"/p"⟩ / ⟨"lib"⟩) = true := rfl
  have below : ((bareDisk name).below ["p", "lib"]).filter (fun x => isVisible x.1 x.2) =
      [([name], .dir)] := by
    have all : (bareDisk name).below ["p", "lib"] = [([name], .dir)] := rfl
    simp [all, isVisible, h]
  have added (t : Tree) : t.addSourceDir (bareDisk name) ⟨"/p"⟩ ⟨"lib"⟩ =
      t.addNamespace (belowRoot ⟨"lib"⟩ [name]) [name] := by
    unfold addSourceDir
    dsimp only
    rw [dir, located]
    dsimp only
    rw [below, List.foldlM_cons]
    exact bind_pure (t.addNamespace (belowRoot ⟨"lib"⟩ [name]) [name])
  rw [Tree.scan, libConfig, List.foldlM_cons, added]
  exact ⟨_, rfl, rfl⟩

theorem vacant_bareDisk (name : String) :
    (bareDisk name).Vacant (⟨"/p"⟩ / libConfig.buildDir) := by
  have trail : Place.trail [] ((⟨"/p"⟩ : Path) / libConfig.buildDir).names =
      [["p"], ["p", "_build"]] := by
    decide +kernel
  refine .missing rfl (fun q mem => ?_) (by decide +kernel)
  rw [trail, List.mem_cons, List.mem_singleton] at mem
  rcases mem with rfl | rfl
  · exact .inr rfl
  · exact .inl rfl

/-- The digest of that namespace is not built if its name is too long. -/
theorem failed_bareDisk {name : String} (h : isComponent name = true)
    (accepted : Tree.scan (bareDisk name) ⟨"/p"⟩ libConfig = .ok t)
    (hn : namespaceIn ⟨"lib"⟩ [name] ∈ t.namespaces)
    (long : Disk.nameLimit < name.utf8ByteSize + ("." ++ Rule.stampExtension).utf8ByteSize) :
    ∃ failure w', Local.build (t.project ⟨"/p"⟩ libConfig programs)
      ((namespaceIn ⟨"lib"⟩ [name]).target .stamp) (newWorld (bareDisk name)) =
        some (.error failure, w') := by
  let s : Site := ⟨⟨"/p"⟩, libConfig, bareDisk name, t, fun _ _ _ => .error .notFound, False⟩
  have sound := sound_bareDisk h
  have clean : s.Clean :=
    ⟨sound, sampleDisk_plain sound, fun q ⟨names, ne, e⟩ => e ▸ (vacant_bareDisk name).entryAt?_eq sound ne⟩
  have direct : Path.Direct ⟨"lib"⟩ := direct_libConfig _ List.mem_cons_self
  have prepared : s.Prepared libConfig.sourceDirs :=
    Site.prepared_of_unmarked (s := s) clean accepted (List.pairwise_singleton _ _)
      direct_libConfig unmarked_libConfig
  have lies : (namespaceIn ⟨"lib"⟩ [name]).LiesBelow ⟨"lib"⟩ :=
    namespaceIn_lies (by simp) (by simpa using h)
  have sits := Artifact.Sits.stamp lies
  have answers : s.answered → s.Answers programs := False.elim
  have works : s.Works libConfig.sourceDirs (newWorld (bareDisk name)) := clean.works _ rfl rfl
  have ha : s.tree.HasIn libConfig.sourceDirs (.stamp (namespaceIn ⟨"lib"⟩ [name])) :=
    prepared.tidy.hasIn (a := .stamp (namespaceIn ⟨"lib"⟩ [name])) hn
  have not_fits : ¬ (s.buildDir / (Artifact.stamp (namespaceIn ⟨"lib"⟩ [name])).path).Fits := by
    intro fits
    have names := (sits.lies.straight direct).names_div s.buildDir
    have short := fits.short _ (names ▸ List.mem_append_right _ List.mem_cons_self)
    rw [lies.flatName_eq, namespaceIn_components, flatName_singleton, String.append_assoc,
      String.utf8ByteSize_append] at short
    exact absurd short (Nat.not_le.2 long)
  have failed := failed_of_not_fits prepared answers works rfl ha (by simp) not_fits
  exact failed

/-- Settings with a second source directory that begins like the target of a signal. -/
def markedConfig : Config := { sourceDirs := [⟨"a/f___aliases.ml"⟩, ⟨"<<nsbuild:inapplicable:a"⟩] }

/-- A project with a file at the target of a signal, in the second source. -/
def markedDisk : Disk :=
  sampleDisk
    [["a"], ["a", "f___aliases.ml"], ["a", "f___aliases.ml", "n"], ["<<nsbuild:inapplicable:a"],
      ["<<nsbuild:inapplicable:a", "f"], ["<<nsbuild:inapplicable:a", "f___aliases.ml"]]
    [(["<<nsbuild:inapplicable:a", "f___aliases.ml",
        "n___aliases.ml:not_a_namespaced_file>>"], "stray\n")]

/-- Whether a target is not built by an engine that was asked for another one before. -/
def blocks (p : Project) (asked q : Path) (w : World LocalState) : Bool :=
  ((Local.build p asked w).bind fun built => Local.build p q built.2).any fun x => !x.1.isOk

set_option maxRecDepth 100000 in
/-- The target of a signal has made a directory where aliases belong. -/
theorem blocks_markedDisk :
    blocks (sampleProject markedDisk markedConfig) ⟨"a/f___aliases.ml/n___aliases.ml"⟩
      ⟨"<<nsbuild:inapplicable:a/f___aliases.ml"⟩ (newWorld markedDisk) = true := by
  decide +kernel

set_option maxRecDepth 100000 in
/-- A clean build may fail: the digest of an empty namespace is not built if its name is too long, and
aliases are not if the target of a signal has made a directory where they belong. -/
theorem failed_bareDisk_markedDisk :
    (∃ t, Tree.scan (bareDisk (longName 250)) ⟨"/p"⟩ libConfig = .ok t ∧
      (bareDisk (longName 250)).Vacant (⟨"/p"⟩ / libConfig.buildDir) ∧
      ∃ ns ∈ t.namespaces, ∃ failure w',
        Local.build (t.project ⟨"/p"⟩ libConfig fun _ _ _ _ => .error .notFound) (ns.target .stamp)
          (newWorld (bareDisk (longName 250))) = some (.error failure, w')) ∧
    Tree.scan markedDisk ⟨"/p"⟩ markedConfig = .ok (sampleTree markedDisk markedConfig) ∧
      Apart markedConfig.sourceDirs ∧ markedDisk.Vacant (⟨"/p"⟩ / markedConfig.buildDir) ∧
      ∃ n ∈ (sampleTree markedDisk markedConfig).namespaces,
        n.target .aliases = ⟨"a/f___aliases.ml/n___aliases.ml"⟩ ∧
      ∃ f ∈ (sampleTree markedDisk markedConfig).namespaces,
        f.target .aliases = ⟨"<<nsbuild:inapplicable:a/f___aliases.ml"⟩ ∧
        ∃ o w', (Local.build (sampleProject markedDisk markedConfig)
              ⟨"a/f___aliases.ml/n___aliases.ml"⟩ (newWorld markedDisk)).bind
            (fun built => Local.build (sampleProject markedDisk markedConfig)
              ⟨"<<nsbuild:inapplicable:a/f___aliases.ml"⟩ built.2) = some (o, w') ∧
          (!o.isOk) = true := by
  constructor
  · have valid : isComponent (longName 250) = true := isComponent_longName 249
    obtain ⟨t, accepted, namespaces⟩ := scan_bareDisk valid
    have hn : namespaceIn ⟨"lib"⟩ [longName 250] ∈ t.namespaces := by simp [namespaces]
    refine ⟨t, accepted, vacant_bareDisk _, _, hn, failed_bareDisk valid accepted hn ?_⟩
    rw [utf8ByteSize_longName]
    decide
  · refine ⟨scan_sampleTree (by decide +kernel), by unfold Apart; decide +kernel,
      .missing (by decide +kernel) (by decide +kernel) (by decide +kernel), ?_⟩
    obtain ⟨n, hn, named, f, hf, named'⟩ : ∃ n ∈ (sampleTree markedDisk markedConfig).namespaces,
        n.target .aliases = ⟨"a/f___aliases.ml/n___aliases.ml"⟩ ∧
          ∃ f ∈ (sampleTree markedDisk markedConfig).namespaces,
            f.target .aliases = ⟨"<<nsbuild:inapplicable:a/f___aliases.ml"⟩ := by
      decide +kernel
    exact ⟨n, hn, named, f, hf, named', exists_of_run (c := fun o _ => !o.isOk) blocks_markedDisk⟩

end Local
end FlatModules
