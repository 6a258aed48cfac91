import FlatModules.Proofs.Build.Subtree
import FlatModules.Proofs.Tree.Entities
import FlatModules.Proofs.Tree.Originals

/-!
# Build — what a digest does not tell

A digest that comes to something is built, and what was hashed for it are the files that it covers and
their listing (`Site.Sealed.hashedFor_eq`).  So two versions of a project have one digest if what is
covered is the same (`Local.Untold`): where the root module of a sub-namespace is a file of the
project's own, its digest is told nowhere, and what is in the sub-namespace does not count
(`Local.untold_ownDisk`).
-/

namespace FlatModules

open Naming FlatModules.Path FlatModules.Tree

namespace Site.Sealed

variable {s : Site} {source : Path} {w : World LocalState} {c : Namespace} (h : s.Sealed source w)

include h

theorem hashedFor_eq (hc : s.tree.HasIn [source] (.stamp c))
    (built : w.own.HasBuilt (c.target .stamp)) :
    Local.hashedFor s.buildDir s.tree w c = (s.tree.closure c).map s.bytesOf ++
      [(Digest.listing ((s.tree.closure c).map fun q => (q, Sha256.hash (s.bytesOf q)))).toUTF8] := by
  have read : (s.tree.closure c).filterMap (fun q => (w.disk.readBytes (s.buildDir / q)).toOption) =
      (s.tree.closure c).map s.bytesOf := by
    rw [← List.filterMap_eq_map]
    exact List.filterMap_congr fun q hq => by
      rw [(h.member hc built hq).2]
      rfl
  rw [Local.hashedFor, read, h.hashFiles_eq hc built]
  rfl

/-- What is not to come to anything was not built. -/
theorem not_hasBuilt (hc : s.tree.HasIn [source] (.stamp c)) (none_ : s.digest? c = none) :
    ¬ w.own.HasBuilt (c.target .stamp) := fun built => by
  obtain ⟨digest, known, -⟩ := h.exists_digest hc built
  rw [none_] at known
  simp at known

end Site.Sealed

namespace Local

variable {root source : Path} {config : Config} {d d' : Disk} {t t' : Tree} {ns : Namespace}
  {w : World LocalState}

/-- A digest is built if it comes to something. -/
theorem exists_cleanDigest_of_digest? (sound : d.Sound) (plain : d.Plain)
    (accepted : Tree.scan d root config = .ok t) (vacant : d.Vacant (root / config.buildDir))
    (apart : Apart config.sourceDirs) (hs : source ∈ config.sourceDirs) (direct : source.Direct)
    (lies : ns.LiesBelow source) (mem : ns ∈ t.namespaces) {digest : String}
    (known : (plainSite root config d t).digest? ns = some digest) :
    ∃ w, CleanDigest root config d t ns w := by
  have prepared := prepared_plainSite sound plain accepted vacant apart hs direct
  have ha : t.HasIn [source] (.stamp ns) := ⟨mem, source, by simp, _, _, _, .stamp lies⟩
  let programs : Analyzer.Programs := fun _ _ _ _ => .error .notFound
  have answers : (plainSite root config d t).answered → (plainSite root config d t).Answers programs :=
    False.elim
  have works := prepared.clean.works [source] (w := newWorld d) rfl rfl
  obtain ⟨o, w, run, -, -, came⟩ := build_correct prepared answers works rfl ha
  cases o with
  | ok path =>
    exact ⟨w, sound, plain, accepted, vacant, mem, programs, newWorld d, path, rfl, rfl, run⟩
  | error failure =>
    have none_ : (plainSite root config d t).content? (.stamp ns) = none :=
      Site.Tells.eq came (by simp)
    simp [Site.content?, known] at none_

/-! ### A file of the project's own in the place of a root module -/

/-- A project with a source file in the sub-namespace `name` of `foo`, and a file of its own where the
root module of that belongs. -/
def ownDisk (name text : String) : Disk :=
  sampleDisk [["lib"], ["lib", "foo"], ["lib", "foo", name]]
    [(["lib", "foo", flatName ["foo", name] ++ ".ml"], "(* mine *)\n"),
      (["lib", "foo", name, "x.ml"], text)]

/-- What is listed for the digest of the outer namespace. -/
def ownListing (name : String) : String :=
  Digest.listing
    [((namespaceIn ⟨"lib"⟩ ["foo", name]).target .root, Sha256.hash "(* mine *)\n".toUTF8)]

section Own

variable {name text : String} (valid : isComponent name = true)

include valid

theorem isComponent_own : ∀ c ∈ ["foo", name], isComponent c = true := by
  simp [valid, show isComponent "foo" = true by decide]

theorem isName_own : ∀ n ∈ ["foo", name], IsName n :=
  fun n hn => isName_of_isComponent (isComponent_own valid n hn)

theorem lies_own : (namespaceIn ⟨"lib"⟩ ["foo", name]).LiesBelow ⟨"lib"⟩ :=
  namespaceIn_lies (by simp) (isComponent_own valid)

theorem parent_own : (namespaceIn ⟨"lib"⟩ ["foo", name]).parent =
    some (namespaceIn ⟨"lib"⟩ ["foo"]).dir := by
  rw [namespaceIn_parent (isName_own valid)]
  rfl

theorem sound_ownDisk : (ownDisk name text).Sound := by
  have isName := isName_of_isComponent valid
  have stem : IsStem (flatName ["foo", name]) := isStem_flatName (by simp) (isComponent_own valid)
  have file : IsName (flatName ["foo", name] ++ ".ml") := stem.append (by decide)
  have ne : name ≠ flatName ["foo", name] ++ ".ml" := by
    intro e
    have dot := dot_notMem_of_isComponent valid
    rw [e] at dot
    simp at dot
  have p : IsName "p" := by decide
  have lib : IsName "lib" := by decide
  have foo : IsName "foo" := by decide
  have x : IsName "x.ml" := by decide
  refine ⟨?_, ?_, ?_⟩
  · simp [ownDisk, sampleDisk, ne]
  · simp [ownDisk, sampleDisk, isName, file, p, lib, foo, x]
  · intro x hx
    simp only [ownDisk, sampleDisk, List.map_cons, List.map_nil, List.cons_append, List.nil_append,
      List.mem_cons, List.not_mem_nil, or_false] at hx
    rcases hx with rfl | rfl | rfl | rfl | rfl | rfl <;>
      simp [Disk.entryAt?, ownDisk, sampleDisk, List.lookup]

/-- What there is in that project. -/
theorem mem_ownDisk {names : List String} {entry : Entry} (ne : names ≠ [])
    (h : (ownDisk name text).entryAt? (["p", "lib"] ++ names) = some entry) :
    names = ["foo"] ∧ entry = .dir ∨ names = ["foo", name] ∧ entry = .dir ∨
      names = ["foo", flatName ["foo", name] ++ ".ml"] ∨ names = ["foo", name, "x.ml"] := by
  have mem := ((sound_ownDisk valid).entryAt?_eq_some_iff (by simp)).1 h
  simp only [ownDisk, sampleDisk, List.map_cons, List.map_nil, List.cons_append, List.nil_append,
    List.mem_cons, List.not_mem_nil, or_false, Prod.mk.injEq, List.cons.injEq, true_and] at mem
  simp only [reduceCtorEq, false_and, ne, false_or] at mem
  rcases mem with mem | mem | mem | mem
  · exact .inl mem
  · exact .inr (.inl mem)
  · exact .inr (.inr (.inl mem.1))
  · exact .inr (.inr (.inr mem.1))

omit valid in
theorem eq_of_dirAt_ownDisk {place : Place} (h : (ownDisk name text).DirAt (⟨"/p"⟩ / ⟨"lib"⟩) place) :
    place = ["p", "lib"] := by
  have located : (ownDisk name text).locate .target (⟨"/p"⟩ / ⟨"lib"⟩) = .ok ["p", "lib"] := rfl
  exact Except.ok.inj (h.2.symm.trans located)

theorem eq_of_hasSource_ownDisk {components : List String} {stem : String} {kind : SourceKind}
    (h : HasSource (ownDisk name text) ⟨"/p"⟩ ⟨"lib"⟩ components stem kind) :
    components = ["foo", name] ∧ stem = "x" ∧ kind = .implementation := by
  obtain ⟨place, entry, dirAt, comps, component, there, file⟩ := h
  obtain rfl := eq_of_dirAt_ownDisk dirAt
  have ml {stem' : String} (isStem : IsStem stem')
      (e : stem ++ "." ++ kind.extension = stem' ++ ".ml") : stem = stem' ∧ kind = .implementation := by
    obtain ⟨rfl, ext⟩ := (isStem_of_isComponent component).inj isStem
      (show _ = stem' ++ "." ++ "ml" by rw [e, String.append_assoc]; rfl)
    exact ⟨rfl, by cases kind <;> simp [SourceKind.extension] at ext ⊢⟩
  rcases mem_ownDisk valid (by simp) there with ⟨-, rfl⟩ | ⟨-, rfl⟩ | e | e
  · exact absurd rfl file
  · exact absurd rfl file
  · -- the project's own file is none that a scan takes
    obtain ⟨rfl, last⟩ := List.append_inj' (show components ++ [_] = ["foo"] ++ [_] from e) rfl
    have stem_ : IsStem (flatName ["foo", name]) := isStem_flatName (by simp) (isComponent_own valid)
    obtain ⟨rfl, -⟩ := ml stem_ (List.singleton_inj.1 last)
    have same : [flatName ["foo", name]] = ["foo", name] := flatName_inj (by simp) (by simp)
      (by simpa using component) (isComponent_own valid) (flatName_singleton _)
    simp at same
  · obtain ⟨rfl, last⟩ := List.append_inj' (show components ++ [_] = ["foo", name] ++ [_] from e) rfl
    have x : IsStem "x" := isStem_of_isComponent (by decide)
    obtain ⟨rfl, rfl⟩ := ml x (List.singleton_inj.1 last)
    exact ⟨rfl, rfl, rfl⟩

theorem eq_of_hasEntity_ownDisk {e : Entity} (h : HasEntity (ownDisk name text) ⟨"/p"⟩ [⟨"lib"⟩] e) :
    e = .directory ⟨"lib"⟩ ["foo"] ∨ e = .directory ⟨"lib"⟩ ["foo", name] ∨
      e = .sources ⟨"lib"⟩ ["foo", name] "x" := by
  cases h with
  | directory hs enters ne =>
    obtain rfl := List.mem_singleton.1 hs
    obtain ⟨place, dirAt, there, comps⟩ := enters
    obtain rfl := eq_of_dirAt_ownDisk dirAt
    rcases mem_ownDisk valid ne there with ⟨rfl, -⟩ | ⟨rfl, -⟩ | rfl | rfl
    · exact .inl rfl
    · exact .inr (.inl rfl)
    · have := comps (flatName ["foo", name] ++ ".ml") (by simp)
      exact absurd (dot_notMem_of_isComponent this) (by simp)
    · exact absurd (comps "x.ml" (by simp)) (by decide)
  | sources hs has =>
    obtain rfl := List.mem_singleton.1 hs
    obtain ⟨rfl, rfl, rfl⟩ := eq_of_hasSource_ownDisk valid has
    exact .inr (.inr rfl)

theorem not_clashing_ownDisk : ¬ Clashing (ownDisk name text) ⟨"/p"⟩ [⟨"lib"⟩] := by
  rintro ⟨e, e', he, he', ne, same⟩
  have names {e : Entity} (h : HasEntity (ownDisk name text) ⟨"/p"⟩ [⟨"lib"⟩] e) :
      ∃ rest, e.names = "foo" :: rest ∧ ∀ c ∈ "foo" :: rest, isComponent c = true := by
    have x : isComponent "x" = true := by decide
    have foo : isComponent "foo" = true := by decide
    rcases eq_of_hasEntity_ownDisk valid h with rfl | rfl | rfl
    · exact ⟨[], rfl, by simp [foo]⟩
    · exact ⟨[name], rfl, isComponent_own valid⟩
    · exact ⟨[name, "x"], rfl, by simp [foo, x, valid]⟩
  -- flat names that begin with one letter are told apart by the module names
  have flat (rest : List String) : ∃ tail, (flatName ("foo" :: rest)).toList = 'f' :: tail := by
    cases rest <;> exact ⟨_, by simp [flatName, Text.joinWith]; rfl⟩
  obtain ⟨rest, eq, comps⟩ := names he
  obtain ⟨rest', eq', comps'⟩ := names he'
  rw [Entity.module, Entity.module, eq, eq'] at same
  obtain ⟨tail, first⟩ := flat rest
  obtain ⟨tail', first'⟩ := flat rest'
  have tails := congrArg String.toList same
  rw [moduleName_eq first, moduleName_eq first'] at tails
  have spelled := String.toList_inj.1 (first.trans ((List.cons.inj tails).2 ▸ first'.symm))
  have list := flatName_inj (by simp) (by simp) comps comps' spelled
  have : e.names = e'.names := by rw [eq, eq', list]
  rcases eq_of_hasEntity_ownDisk valid he with rfl | rfl | rfl <;>
    rcases eq_of_hasEntity_ownDisk valid he' with rfl | rfl | rfl <;>
      simp [Entity.names] at this ne

variable (text) in
/-- The namespaces and the only file of that project. -/
theorem scan_ownDisk : ∃ t, Tree.scan (ownDisk name text) ⟨"/p"⟩ libConfig = .ok t ∧
    (∀ ns, ns ∈ t.namespaces ↔
      ns = namespaceIn ⟨"lib"⟩ ["foo"] ∨ ns = namespaceIn ⟨"lib"⟩ ["foo", name]) ∧
    ∀ f, f ∈ t.files ↔ f = recordOf ⟨"lib"⟩ ["foo", name] "x" .implementation := by
  have disjoint : Disjoint (ownDisk name text) ⟨"/p"⟩ libConfig.sourceDirs :=
    .of_apart (List.pairwise_singleton _ _)
  have sound : (ownDisk name text).Sound := sound_ownDisk valid
  have scattered := disjoint.scattered
  obtain ⟨t, ok⟩ :=
    (scan_ok_iff sound scattered).2 ⟨not_clashing_ownDisk valid, by simp [libConfig]⟩
  have after := After.scan sound ok
  have dirAt : (ownDisk name text).DirAt (⟨"/p"⟩ / ⟨"lib"⟩) ["p", "lib"] := ⟨rfl, rfl⟩
  have foo : isComponent "foo" = true := by decide
  refine ⟨t, ok, fun ns => (namespaces_iff sound scattered after).trans ⟨?_, ?_⟩,
    fun f => (files_iff sound scattered after).trans ⟨?_, ?_⟩⟩
  · rintro ⟨s, cs, has, rfl⟩
    rcases eq_of_hasEntity_ownDisk valid has with e | e | e <;> cases e <;> simp
  · rintro (rfl | rfl)
    · exact ⟨_, _, .directory List.mem_cons_self ⟨_, dirAt, rfl, by simp [foo]⟩ (by simp), rfl⟩
    · refine ⟨_, _, .directory List.mem_cons_self ⟨_, dirAt, ?_, isComponent_own valid⟩ (by simp), rfl⟩
      simp [Disk.entryAt?, ownDisk, sampleDisk, List.lookup]
  · rintro ⟨s, hs, cs, stem, kind, ne, has, rfl⟩
    obtain rfl := List.mem_singleton.1 hs
    obtain ⟨rfl, rfl, rfl⟩ := eq_of_hasSource_ownDisk valid has
    rfl
  · rintro rfl
    refine ⟨_, List.mem_cons_self, _, _, _, by simp, ⟨_, .file text.toUTF8, dirAt, isComponent_own valid,
      by decide, ?_, by simp⟩, rfl⟩
    have last : "x" ++ "." ++ SourceKind.implementation.extension = "x.ml" := by decide
    refine ((sound_ownDisk valid).entryAt?_eq_some_iff (by simp)).2 ?_
    rw [last]
    simp [ownDisk, sampleDisk]

section Stamp

variable {t : Tree} (accepted : Tree.scan (ownDisk name text) ⟨"/p"⟩ libConfig = .ok t)

include accepted

theorem closure_ownDisk : t.closure (namespaceIn ⟨"lib"⟩ ["foo"]) =
    [(namespaceIn ⟨"lib"⟩ ["foo", name]).target .root] := by
  obtain ⟨t', accepted', namespaces, files⟩ := scan_ownDisk text valid
  obtain rfl : t = t' := Except.ok.inj (accepted.symm.trans accepted')
  have sound : (ownDisk name text).Sound := sound_ownDisk valid
  have apart : Apart libConfig.sourceDirs := List.pairwise_singleton _ _
  have tidy := Tidy.scan sound apart accepted
  have after := After.scan sound accepted
  have nodup := after.nodup_closure (itinerary_visits sound _ _) (.of_apart tidy.shaped apart) tidy
    ((namespaces _).2 (.inl rfl))
  have isName := isName_own valid
  have lies := lies_own valid
  have mem (q : Path) : q ∈ t.closure (namespaceIn ⟨"lib"⟩ ["foo"]) ↔
      q = (namespaceIn ⟨"lib"⟩ ["foo", name]).target .root := by
    rw [tidy.mem_closure ((namespaces _).2 (.inl rfl))]
    constructor
    · rintro (⟨f, hf, dir, -⟩ | ⟨c, hc, above, rfl⟩)
      · obtain rfl := (files f).1 hf
        have names := congrArg Path.names dir
        change (Path.below ⟨"lib"⟩ ["foo", name]).names = (Path.below ⟨"lib"⟩ ["foo"]).names at names
        rw [names_below isName, names_below fun n hn => isName n (by simp_all)] at names
        simp at names
      · rcases (namespaces c).1 hc with rfl | rfl
        · rw [namespaceIn_parent fun n hn => isName n (by simp_all)] at above
          simp at above
        · exact lies.rootFile_eq
    · rintro rfl
      exact .inr ⟨_, (namespaces _).2 (.inr rfl), parent_own valid, lies.rootFile_eq.symm⟩
  have perm := (List.perm_ext_iff_of_nodup nodup (List.nodup_singleton _)).2 (by simpa using mem)
  exact List.perm_singleton.1 perm

omit valid accepted in
theorem vacant_ownDisk : (ownDisk name text).Vacant (⟨"/p"⟩ / libConfig.buildDir) := by
  have trail : Place.trail [] ((⟨"/p"⟩ : Path) / libConfig.buildDir).names =
      [["p"], ["p", "_build"]] := by
    decide
  refine .missing rfl (fun q mem => ?_) (by decide)
  rw [trail, List.mem_cons, List.mem_singleton] at mem
  rcases mem with rfl | rfl
  · exact .inr rfl
  · exact .inl rfl

omit accepted in
theorem target_own {r : Rule} (noSlash : '/' ∉ r.ending.toList) :
    (namespaceIn ⟨"lib"⟩ ["foo", name]).target r =
      ⟨"lib/foo"⟩ / ⟨flatName ["foo", name] ++ r.ending⟩ := by
  have lies := lies_own valid
  have above : (namespaceIn ⟨"lib"⟩ ["foo", name]).above = ⟨"lib/foo"⟩ :=
    lies.above_of_parent (parent_own valid)
  rw [Namespace.target, lies.rootPath_append noSlash, above, lies.flatName_eq, namespaceIn_components]

omit valid accepted in
theorem direct_own : Path.Direct ⟨"lib"⟩ := ⟨by decide, by decide⟩

theorem prepared_own : (plainSite ⟨"/p"⟩ libConfig (ownDisk name text) t).Prepared [⟨"lib"⟩] :=
  prepared_plainSite (sound_ownDisk valid) (sampleDisk_plain (sound_ownDisk valid)) accepted
    vacant_ownDisk (List.pairwise_singleton _ _) List.mem_cons_self direct_own

variable (short : (flatName ["foo", name] ++ ".ml").utf8ByteSize ≤ Disk.nameLimit)
  (long : Disk.nameLimit < (flatName ["foo", name] ++ ".stamp").utf8ByteSize)

include short long

/-- The root module of the inner namespace is the project's own file, as there is no digest. -/
theorem memberOf_own :
    let s := plainSite ⟨"/p"⟩ libConfig (ownDisk name text) t
    s.digest? (namespaceIn ⟨"lib"⟩ ["foo", name]) = none ∧
      s.memberOf s.digest? ((namespaceIn ⟨"lib"⟩ ["foo", name]).target .root) =
        some "(* mine *)\n".toUTF8 := by
  intro s
  obtain ⟨t', accepted', namespaces, files⟩ := scan_ownDisk text valid
  obtain rfl : t = t' := Except.ok.inj (accepted.symm.trans accepted')
  have sound : (ownDisk name text).Sound := sound_ownDisk valid
  have prepared : s.Prepared [⟨"lib"⟩] := prepared_own valid accepted
  have hc := (namespaces _).2 (.inr rfl)
  have lies := lies_own valid
  have none_ : s.digest? (namespaceIn ⟨"lib"⟩ ["foo", name]) = none := by
    rw [Site.digest?_eq prepared.tidy prepared.apart hc, Site.digestOf, if_neg]
    rintro ⟨⟨fits, -⟩, -⟩
    have straight := (Artifact.Sits.stamp lies).lies.straight direct_own
    have name_ := fits.short _
      (straight.names_div s.buildDir ▸ List.mem_append_right _ List.mem_cons_self)
    rw [lies.flatName_eq, namespaceIn_components, String.append_assoc] at name_
    exact absurd name_ (Nat.not_le.2 long)
  refine ⟨none_, ?_⟩
  have root := Site.memberOf_root prepared.tidy prepared.apart hc s.digest?
  rw [none_] at root
  refine root.trans ?_
  have zero : '\x00' ∉ (flatName ["foo", name] ++ ".ml").toList := by
    have chars : '\x00' ∉ (flatName ["foo", name]).toList := fun mem =>
      absurd (isComponentChar_of_mem_flatName (isComponent_own valid) mem) (by decide)
    simpa using chars
  have isName : IsName (flatName ["foo", name] ++ ".ml") :=
    lies.flatName_eq ▸ lies.isStem.append (by decide)
  have target : (namespaceIn ⟨"lib"⟩ ["foo", name]).target .root =
      ⟨"lib/foo"⟩ / ⟨flatName ["foo", name] ++ ".ml"⟩ := target_own valid (by decide)
  have fits {base : Path} (hb : (base / ⟨"lib/foo"⟩).Fits)
      (len : (base / ⟨"lib/foo"⟩).text.utf8ByteSize ≤ 100) :
      (base / (namespaceIn ⟨"lib"⟩ ["foo", name]).target .root).Fits := by
    rw [target, Path.div_div isName (by decide) (by decide)]
    have limit : Disk.nameLimit = 255 ∧ Disk.pathLimit = 4095 := ⟨rfl, rfl⟩
    exact hb.div isName zero (by omega) short
  have project : (⟨"/p"⟩ / ⟨"lib/foo"⟩ : Path).Fits ∧
      (⟨"/p"⟩ / ⟨"lib/foo"⟩ : Path).text.utf8ByteSize ≤ 100 :=
    ⟨by decide, by decide⟩
  have build : (⟨"/p/_build"⟩ / ⟨"lib/foo"⟩ : Path).Fits ∧
      (⟨"/p/_build"⟩ / ⟨"lib/foo"⟩ : Path).text.utf8ByteSize ≤ 100 :=
    ⟨by decide, by decide⟩
  have sits := Artifact.Sits.root lies
  have has : s.tree.Has (.root (namespaceIn ⟨"lib"⟩ ["foo", name])) := hc
  have names : (s.root / (⟨"lib"⟩ : Path)).names = ["p", "lib"] := by
    change ((⟨"/p"⟩ : Path) / ⟨"lib"⟩).names = _
    decide
  have file : flatName ["foo", name] ++ "." ++ SourceKind.implementation.extension =
      flatName ["foo", name] ++ ".ml" := String.append_assoc
  have read : s.disk.readBytes (s.root / (namespaceIn ⟨"lib"⟩ ["foo", name]).target .root) =
      .ok "(* mine *)\n".toUTF8 := by
    refine prepared.readBytes_root has List.mem_cons_self sits (fits project.1 project.2) ?_
    rw [names, lies.flatName_eq, namespaceIn_components, file]
    refine (sound.entryAt?_eq_some_iff (by simp)).2 ?_
    simp [ownDisk, sampleDisk, Place.follow, Place.step]
  have buildDir : s.buildDir = ⟨"/p/_build"⟩ := by
    change (⟨"/p"⟩ / ⟨"_build"⟩ : Path) = _
    decide
  have usable : s.Usable ((namespaceIn ⟨"lib"⟩ ["foo", name]).target .root) := by
    refine ⟨buildDir ▸ fits build.1 build.2, vacant_ownDisk.open_trail sound prepared.clean.plain,
      vacant_ownDisk.notMem_trail sound prepared.clean.plain ?_⟩
    have names := sits.lies.names
    rw [Artifact.path] at names
    simp [names]
  rw [Site.rootOf, Site.copied, Site.placed, if_pos usable, read]
  rfl

/-- The digest of the outer namespace is that of the project's own file. -/
theorem digest?_own :
    (plainSite ⟨"/p"⟩ libConfig (ownDisk name text) t).digest? (namespaceIn ⟨"lib"⟩ ["foo"]) =
      some (Sha256.hash (ownListing name).toUTF8) := by
  obtain ⟨t', accepted', namespaces, -⟩ := scan_ownDisk text valid
  obtain rfl : t = t' := Except.ok.inj (accepted.symm.trans accepted')
  have sound : (ownDisk name text).Sound := sound_ownDisk valid
  have prepared := prepared_own valid accepted
  obtain ⟨-, member⟩ := memberOf_own valid accepted short long
  have target : (namespaceIn ⟨"lib"⟩ ["foo"]).target .stamp = ⟨"lib/foo.stamp"⟩ := by decide
  have fits : (⟨"/p"⟩ / ⟨"_build"⟩ / ⟨"lib/foo.stamp"⟩ : Path).Fits := by decide
  have usable : (plainSite ⟨"/p"⟩ libConfig (ownDisk name text) t).Usable
      ((namespaceIn ⟨"lib"⟩ ["foo"]).target .stamp) := by
    rw [target]
    exact ⟨fits, vacant_ownDisk.open_trail sound prepared.clean.plain,
      vacant_ownDisk.notMem_trail sound prepared.clean.plain (by decide)⟩
  have covered : (plainSite ⟨"/p"⟩ libConfig (ownDisk name text) t).tree.closure
      (namespaceIn ⟨"lib"⟩ ["foo"]) = [(namespaceIn ⟨"lib"⟩ ["foo", name]).target .root] := closure_ownDisk valid accepted
  rw [Site.digest?_eq prepared.tidy prepared.apart ((namespaces _).2 (.inl rfl)), Site.digestOf, covered,
    if_pos ⟨usable, by simp [member]⟩, List.map_singleton, member, Option.getD_some, Digest.digestOf]
  rfl

/-- What is hashed for that digest: the project's own file, and the listing of it. -/
theorem digestComes_own : DigestComes libConfig (ownDisk name text) t (namespaceIn ⟨"lib"⟩ ["foo"])
    (Sha256.hash (ownListing name).toUTF8 ++ "\n") ["(* mine *)\n", ownListing name] := by
  obtain ⟨t', accepted', namespaces, -⟩ := scan_ownDisk text valid
  obtain rfl : t = t' := Except.ok.inj (accepted.symm.trans accepted')
  have sound : (ownDisk name text).Sound := sound_ownDisk valid
  have apart : Apart libConfig.sourceDirs := List.pairwise_singleton _ _
  have lies : (namespaceIn ⟨"lib"⟩ ["foo"]).LiesBelow ⟨"lib"⟩ := namespaceIn_lies (by simp) (by decide)
  have known := digest?_own valid accepted short long
  obtain ⟨inner, member⟩ := memberOf_own valid accepted short long
  obtain ⟨w, built⟩ := exists_cleanDigest_of_digest? sound (sampleDisk_plain sound) accepted
    vacant_ownDisk apart List.mem_cons_self direct_own lies ((namespaces _).2 (.inl rfl)) known
  obtain ⟨left, hc, done⟩ := built.sealed apart List.mem_cons_self direct_own lies
  obtain ⟨digest, told, read⟩ := left.exists_digest hc done
  obtain rfl := Option.some.inj (known.symm.trans told)
  refine ⟨w, built, read, fun x hx => ?_⟩
  obtain ⟨c, hc', hx⟩ := List.mem_flatMap.1 hx
  obtain ⟨mem, cond⟩ := List.mem_filter.1 hc'
  obtain ⟨-, done'⟩ := of_decide_eq_true cond
  rcases (namespaces c).1 mem with rfl | rfl
  · have covered : (plainSite ⟨"/p"⟩ libConfig (ownDisk name text) t).tree.closure
        (namespaceIn ⟨"lib"⟩ ["foo"]) = [(namespaceIn ⟨"lib"⟩ ["foo", name]).target .root] :=
      closure_ownDisk valid accepted
    have own : (plainSite ⟨"/p"⟩ libConfig (ownDisk name text) t).bytesOf
        ((namespaceIn ⟨"lib"⟩ ["foo", name]).target .root) = "(* mine *)\n".toUTF8 := by
      rw [Site.bytesOf, member, Option.getD_some]
    have mem_ := (left.hashedFor_eq hc done) ▸ hx
    rw [covered, List.map_singleton, List.map_singleton, own] at mem_
    simpa [ownListing, eq_comm] using mem_
  · have ha : t.HasIn [⟨"lib"⟩] (.stamp (namespaceIn ⟨"lib"⟩ ["foo", name])) :=
      ⟨mem, _, by simp, _, _, _, .stamp (lies_own valid)⟩
    exact absurd done' (left.not_hasBuilt ha inner)

end Stamp

/-- The source file in the inner namespace is read as it is. -/
theorem readBytes_own (fits : name.utf8ByteSize ≤ Disk.nameLimit) :
    (ownDisk name text).readBytes
      (⟨"/p"⟩ / (recordOf ⟨"lib"⟩ ["foo", name] "x" .implementation).realPath) = .ok text.toUTF8 := by
  obtain ⟨t, accepted, -, files⟩ := scan_ownDisk text valid
  have sound : (ownDisk name text).Sound := sound_ownDisk valid
  have prepared := prepared_own valid accepted
  have has : t.Has (.original (recordOf ⟨"lib"⟩ ["foo", name] "x" .implementation)) := (files _).2 rfl
  obtain ⟨source, components, stem, entry, hs, done, ne, lies, -⟩ := prepared.tidy.file _ has
  obtain rfl := List.mem_singleton.1 hs
  obtain ⟨-, there⟩ := done.2.exists_place sound prepared.clean.plain
  have names : Place.follow [] ((⟨"/p"⟩ : Path) / ⟨"lib"⟩).names = ["p", "lib"] := by decide
  have source : HasSource (ownDisk name text) ⟨"/p"⟩ ⟨"lib"⟩ components stem .implementation :=
    ⟨["p", "lib"], entry, ⟨rfl, rfl⟩, fun c hc => lies.made.valid c (List.mem_append_left _ hc),
      lies.made.valid stem (by simp), names ▸ there, ne⟩
  obtain ⟨rfl, rfl, -⟩ := eq_of_hasSource_ownDisk valid source
  have sits := Artifact.Sits.original lies
  have isName := isName_own valid
  have noZero : '\x00' ∉ name.toList := fun mem =>
    absurd (isComponentChar_of_isComponent valid mem) (by decide)
  have real :
      (⟨"/p"⟩ / (recordOf ⟨"lib"⟩ ["foo", name] "x" .implementation).realPath : Path).Fits := by
    have last : IsName "x.ml" := by decide
    have foo : (⟨"lib"⟩ / ⟨"foo"⟩ : Path).isAbsolute = false ∧ (⟨"lib"⟩ / ⟨"foo"⟩ : Path).text ≠ "" :=
      ⟨by decide, by decide⟩
    have named := isName name (by simp)
    have outer : (⟨"/p"⟩ / (⟨"lib"⟩ / ⟨"foo"⟩) : Path).Fits := by decide
    have size : (⟨"/p"⟩ / (⟨"lib"⟩ / ⟨"foo"⟩) : Path).text.utf8ByteSize = 10 := by decide
    have limits : Disk.nameLimit = 255 ∧ Disk.pathLimit = 4095 := ⟨rfl, rfl⟩
    have inner : (⟨"/p"⟩ / (⟨"lib"⟩ / ⟨"foo"⟩) / ⟨name⟩ : Path).Fits :=
      outer.div named noZero (by omega) fits
    have size' : (⟨"/p"⟩ / (⟨"lib"⟩ / ⟨"foo"⟩) / ⟨name⟩ : Path).text.utf8ByteSize ≤ 300 := by
      rw [div_eq named, String.utf8ByteSize_append]
      have : (⟨"/p"⟩ / (⟨"lib"⟩ / ⟨"foo"⟩) : Path).front.utf8ByteSize = 11 := by decide
      omega
    have path : (recordOf ⟨"lib"⟩ ["foo", name] "x" .implementation).realPath =
        ⟨"lib"⟩ / ⟨"foo"⟩ / ⟨name⟩ / ⟨"x.ml"⟩ := by
      have file : "x" ++ "." ++ SourceKind.implementation.extension = "x.ml" := by decide
      rw [recordOf, fileFor, file]
      rfl
    rw [path, Path.div_div last (isAbsolute_div named foo.1) (text_div_ne_empty named),
      Path.div_div named foo.1 foo.2]
    exact inner.div last (by decide) (by have : "x.ml".utf8ByteSize = 4 := rfl; omega) (by decide)
  refine prepared.readBytes_root has List.mem_cons_self sits real ?_
  have last : "x" ++ "." ++ SourceKind.implementation.extension = "x.ml" := by decide
  change (ownDisk name text).entryAt? (Place.follow [] ((⟨"/p"⟩ : Path) / ⟨"lib"⟩).names ++
    ["foo", name] ++ [flatName ["x"] ++ "." ++ SourceKind.implementation.extension]) = _
  rw [names, flatName_singleton, last]
  refine (sound.entryAt?_eq_some_iff (by simp)).2 ?_
  simp [ownDisk, sampleDisk]

/-- What is in a sub-namespace does not count for the digest around it, if the name is too long for a
digest of its own. -/
theorem untold_ownDisk {text' : String}
    (short : (flatName ["foo", name] ++ ".ml").utf8ByteSize ≤ Disk.nameLimit)
    (long : Disk.nameLimit < (flatName ["foo", name] ++ ".stamp").utf8ByteSize)
    (fits : name.utf8ByteSize ≤ Disk.nameLimit)
    (distinct : (["(* mine *)\n", ownListing name].map fun text => Sha256.hash text.toUTF8).Nodup)
    (ne : text ≠ text') :
    Untold libConfig (namespaceIn ⟨"lib"⟩ ["foo"]).dir (ownDisk name text) (ownDisk name text') := by
  obtain ⟨t, accepted, -, files⟩ := scan_ownDisk text valid
  obtain ⟨t', accepted', -, files'⟩ := scan_ownDisk text' valid
  refine untold_of_comes (List.pairwise_singleton _ _) (digestComes_own valid accepted short long)
    (digestComes_own valid accepted' short long) distinct ⟨_, (files _).2 rfl, ?_, fun f' hf' _ => ?_⟩
  · have isName := isName_own valid
    change (Path.below ⟨"lib"⟩ ["foo"]).names <+: (Path.below ⟨"lib"⟩ ["foo", name]).names
    rw [names_below isName, names_below fun n hn => isName n (by simp_all)]
    exact ⟨[name], by simp⟩
  · rw [readBytes_own valid fits, readBytes_own valid fits]
    simpa [Except.toOption, String.toByteArray_inj] using ne

end Own

theorem flatName_foo (name : String) : flatName ["foo", name] = "foo__" ++ name :=
  String.toList_inj.1 (by simp [flatName, Text.joinWith, separator])

set_option maxRecDepth 100000 in
/-- The name of a sub-namespace may be too long for its digest, but not for its root module. -/
theorem untold_own : Untold libConfig (fooIn "lib").dir (ownDisk (longName 245) "let x = 1\n")
    (ownDisk (longName 245) "let x = 2\n") := by
  have valid : isComponent (longName 245) = true := isComponent_longName 244
  have size : (flatName ["foo", longName 245]).utf8ByteSize = 250 := by
    rw [flatName_foo, String.utf8ByteSize_append, utf8ByteSize_longName]
    rfl
  refine untold_ownDisk valid ?_ ?_ ?_ ?_ (by decide)
  · rw [String.utf8ByteSize_append, size]
    decide
  · rw [String.utf8ByteSize_append, size]
    decide
  · rw [utf8ByteSize_longName]
    decide
  · have isName : IsName (flatName ["foo", longName 245] ++ ".ml") :=
      (isStem_flatName (by simp) (isComponent_own valid)).append (by decide)
    have target : (namespaceIn ⟨"lib"⟩ ["foo", longName 245]).target .root =
        ⟨"lib/foo/" ++ ("foo__" ++ longName 245 ++ ".ml")⟩ := by
      rw [target_own valid (by decide), ← flatName_foo]
      exact div_eq isName
    rw [ownListing, target]
    decide +kernel

/-- Versions of projects that a digest does not tell apart. -/
theorem untold_samples :
    Untold libConfig (fooIn "lib").dir (fooDisk [] [("bar.ml", bareText)]) (fooDisk ["bar"] []) ∧
    Untold libConfig (fooIn "lib").dir (ownDisk (longName 245) "let x = 1\n")
      (ownDisk (longName 245) "let x = 2\n") ∧
    Untold (sourceConfig "/p/lib" "_build") (fooIn "/p/lib").dir (fooDisk [] [("a.ml", "let x = 1\n")])
      (fooDisk [] [("a.ml", "let x = 2\n")]) ∧
    Untold (sourceConfig "../lib" "../b") (fooIn "../lib").dir (asideDisk "let x = 1\n")
      (asideDisk "let x = 2\n") :=
  ⟨untold_text, untold_own, untold_absolute, untold_upward⟩

end Local
end FlatModules
