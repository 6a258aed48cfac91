import FlatModules.Proofs.Tree.Closure
import FlatModules.Proofs.Tree.Library
import FlatModules.Proofs.Tree.Shadows

/-!
# Trees — originals and virtual paths

Each record is found again at its virtual path, and each source file below a directory that is a
namespace has a record.  Where no source directory is a namespace, it has one record only, and the
one namespace of its directory lists it once (`Tree.originals_of_scan`).  A source directory that is
a namespace of another one gives its files a second name (`Tree.two_records_innerDisk`).

The directories of two namespaces at one path then have the same names below their sources
(`Tree.After.names_eq`), so that a file is named in one way; and what is listed has been visited since
the directory was visited last, once each.
-/

namespace FlatModules

open Naming FlatModules.Path

namespace Tree

variable {d : Disk} {root : Path} {sources : List Path} {vs : List Visit} {t : Tree}

/-- Around what is visited, directories are visited. -/
theorem Itinerary.mem_of_prefix (it : Itinerary sources vs) {v : Visit} (hv : v ∈ vs)
    {front back : List String} (names : v.names = front ++ back) (ne : front ≠ []) (ne' : back ≠ []) :
    ⟨v.source, front, .dir⟩ ∈ vs := by
  induction back using List.reverseRecOn generalizing v with
  | nil => exact absurd rfl ne'
  | append_singleton back last ih =>
    rw [← List.append_assoc] at names
    obtain ⟨before, after, split⟩ := List.append_of_mem hv
    obtain ⟨first, between, enter, -⟩ := it.entered split names (by simp [ne])
    have above : ⟨v.source, front ++ back, .dir⟩ ∈ vs := by
      rw [split, enter]
      simp
    by_cases nil : back = []
    · simpa [nil] using above
    · exact ih (v := ⟨v.source, front ++ back, .dir⟩) above rfl nil

/-- Whether no source directory is a namespace. -/
def Outermost (sources : List Path) (t : Tree) : Prop :=
  ∀ source ∈ sources, t.scopeAt? source = none

/-- No source directory is a namespace of another one if they are apart. -/
theorem Outermost.of_apart (h : t.Shaped sources) (apart : Apart sources) : Outermost sources t := by
  intro source hs
  cases found : t.scopeAt? source with
  | none => rfl
  | some s =>
    unfold scopeAt? at found
    obtain ⟨source', hs', lies⟩ := h.below s.ns (List.mem_map_of_mem (List.mem_of_find?_eq_some found))
    have same := List.find?_some found
    have parts := same_iff.1 same
    rw [lies.parts_dir] at parts
    have parts : source'.parts ++ s.ns.components.map Part.name =
        source.parts ++ ([] : List String).map Part.name := by
      simpa using parts
    exact absurd (apart.eq_of_parts hs' hs parts).2 lies.ne_nil

namespace After

/-- No directory is visited at the path of a source directory. -/
theorem parts_ne_source (h : After sources vs t) (outer : Outermost sources t) {u : Visit}
    (hu : u ∈ vs) (dir : u.entry = .dir) {source : Path} (hs : source ∈ sources) :
    u.path.parts ≠ source.parts := by
  intro e
  obtain ⟨s, mem, parts⟩ := h.scope_of_dir u hu dir
  have found := h.shaped.scopeAt?_eq mem (e.symm.trans parts.symm)
  rw [outer source hs] at found
  simp at found

/-- Directories visited at one path have the same names below sources of one path. -/
theorem names_eq (h : After sources vs t) (it : Itinerary sources vs) (outer : Outermost sources t)
    {u w : Visit} (hu : u ∈ vs) (hw : w ∈ vs) (dir : u.entry = .dir) (dir' : w.entry = .dir)
    (e : u.path.parts = w.path.parts) : u.names = w.names ∧ u.source.parts = w.source.parts := by
  -- otherwise the source of one is a directory on the way to the other
  have inner {u w : Visit} (hu : u ∈ vs) (hw : w ∈ vs) (dir : u.entry = .dir)
      {mid : List Part} (parts : w.source.parts = u.source.parts ++ mid)
      (names : u.names.map Part.name = mid ++ w.names.map Part.name) : mid = [] := by
    by_contra ne
    obtain ⟨front, back, split, front_, back_⟩ := List.map_eq_append_iff.1 names
    have ne_front : front ≠ [] := by
      rintro rfl
      exact ne front_.symm
    have ne_back : back ≠ [] := by
      rintro rfl
      exact it.ne_nil w hw (List.map_eq_nil_iff.1 back_.symm)
    have mem := it.mem_of_prefix hu split ne_front ne_back
    refine h.parts_ne_source outer mem rfl (it.source w hw) ?_
    rw [Visit.parts_path (it.isName _ mem), parts, ← front_]
  have names {us ws : List String} (e : us.map Part.name = ws.map Part.name) : us = ws :=
    List.map_injective_iff.2 (fun _ _ => Part.name.inj) e
  rw [u.parts_path (it.isName u hu), w.parts_path (it.isName w hw)] at e
  rcases List.append_eq_append_iff.1 e with ⟨mid, source, rest⟩ | ⟨mid, source, rest⟩
  · obtain rfl := inner hu hw dir source rest
    exact ⟨names rest, by simpa using source.symm⟩
  · obtain rfl := inner hw hu dir' source rest
    exact ⟨(names rest).symm, by simpa using source⟩

/-- A source file in a directory that is a namespace is below that directory's visit. -/
theorem names_of_virtualIn? (h : After sources vs t) (it : Itinerary sources vs)
    (outer : Outermost sources t) {u v : Visit} (hu : u ∈ vs) (hv : v ∈ vs) (dir : u.entry = .dir)
    (here : v.above.parts = u.path.parts) : ∃ last, v.names = u.names ++ [last] ∧
      v.source.parts = u.source.parts := by
  obtain ⟨names, last, e⟩ := (List.eq_nil_or_concat' v.names).resolve_left (it.ne_nil v hv)
  have isName := it.isName v hv
  have ne : names ≠ [] := by
    rintro rfl
    have parts := v.parts_above e isName
    rw [here, List.map_nil, List.append_nil] at parts
    exact h.parts_ne_source outer hu dir (it.source v hv) parts
  have above := it.mem_of_prefix hv e ne (by simp)
  have parts : (⟨v.source, names, .dir⟩ : Visit).path.parts = u.path.parts := by
    rw [← here, v.above_eq e isName ne]
    rfl
  obtain ⟨same, source⟩ := h.names_eq it outer above hu rfl dir parts
  exact ⟨last, same ▸ e, source⟩

theorem lies (_ : After sources vs t) (it : Itinerary sources vs) {u : Visit} (hu : u ∈ vs)
    (dir : u.entry = .dir) : u.ns.LiesBelow u.source :=
  namespaceIn_lies (it.ne_nil u hu) (by simpa [isVisible, dir] using it.visible u hu)

/-- Records of one file are one. -/
theorem eq_of_realPath (h : After sources vs t) (it : Itinerary sources vs)
    (outer : Outermost sources t) {f g : NamespacedFile} (hf : f ∈ t.files) (hg : g ∈ t.files)
    (e : f.realPath.parts = g.realPath.parts) : f = g := by
  refine h.shaped.eq_of_virtualPath hf hg ?_
  obtain ⟨v, hv, u, hu, kind, stem, dir, here, source, rfl, -⟩ := h.file f hf
  obtain ⟨w, hw, x, hx, kind', stem', dir', here', source', rfl, -⟩ := h.file g hg
  have e : v.path.parts = w.path.parts := e
  rw [v.parts_of_source? (it.isName v hv) (it.ne_nil v hv) source,
    w.parts_of_source? (it.isName w hw) (it.ne_nil w hw) source'] at e
  obtain ⟨above, names⟩ := List.append_inj' e rfl
  obtain ⟨-, -, -, component⟩ := Visit.source?_eq_some_iff.1 source
  obtain ⟨-, -, -, component'⟩ := Visit.source?_eq_some_iff.1 source'
  obtain ⟨rfl, extension⟩ := (isStem_of_isComponent component).inj
    (isStem_of_isComponent component') (Part.name.inj (List.singleton_inj.1 names))
  have kinds : kind = kind' := by
    cases kind <;> cases kind' <;> first | rfl | simp [SourceKind.extension] at extension
  have parts : u.path.parts = x.path.parts := here.trans (above.trans here'.symm)
  obtain ⟨same, -⟩ := h.names_eq it outer hu hx dir dir' parts
  have components : u.ns.components = x.ns.components := same
  rw [v.parts_fileIn (h.lies it hu dir) source, w.parts_fileIn (h.lies it hx dir') source',
    components, kinds, above]

/-- A namespace lists no path twice. -/
theorem nodup_files (h : After sources vs t) (it : Itinerary sources vs)
    (outer : Outermost sources t) {s : Scope} (hs : s ∈ t.scopes) :
    ((s.leaves.flatMap Leaf.files).map Path.parts).Nodup := by
  obtain ⟨before, u, after, latest, ns, filled⟩ := h.scope s hs
  have u_here : s.ns.dir.parts = u.path.parts := by
    rw [ns]
    rfl
  have mem {v : Visit} (hv : v ∈ after) : v ∈ vs := by
    rw [latest.eq]
    simp [hv]
  have lies : s.ns.LiesBelow u.source := ns ▸ h.lies it latest.mem latest.dir
  rw [(filled.files.map Path.parts).nodup_iff, List.map_filterMap]
  refine List.pairwise_filterMap.2 ((latest.pairwise_names it).imp_of_mem ?_)
  intro v w hv hw ne p hp q hq
  -- what both are listed as tells their names apart
  have listed {v : Visit} {p : List Part} (hv : v ∈ after)
      (hp : (v.virtualIn? s.ns).map Path.parts = some p) : ∃ kind stem,
        v.source? = some (kind, stem) ∧ v.above.parts = u.path.parts ∧
          (v.fileIn s.ns kind stem).virtualPath.parts = p ∧
          v.names = u.names ++ [stem ++ "." ++ kind.extension] := by
    obtain ⟨path, virtual, rfl⟩ := Option.map_eq_some_iff.1 hp
    unfold Visit.virtualIn? at virtual
    split at virtual
    case h_1 kind stem source =>
      split at virtual
      case isTrue here =>
        have here := here.trans u_here
        obtain ⟨last, names, -⟩ := h.names_of_virtualIn? it outer latest.mem (mem hv) latest.dir here
        obtain ⟨front, named⟩ :=
          Visit.last_of_source? (it.isName v (mem hv)) (it.ne_nil v (mem hv)) source
        obtain ⟨-, rfl⟩ : front = u.names ∧ last = stem ++ "." ++ kind.extension := by
          have := List.append_inj' (named.symm.trans names) rfl
          exact ⟨this.1, (List.singleton_inj.1 this.2).symm⟩
        exact ⟨kind, stem, source, here, by rw [← Option.some.inj virtual], names⟩
      case isFalse => simp at virtual
    case h_2 => simp at virtual
  obtain ⟨kind, stem, source, here, rfl, names⟩ := listed hv hp
  obtain ⟨kind', stem', source', here', rfl, names'⟩ := listed hw hq
  intro same
  obtain ⟨-, -, rfl, kinds⟩ :=
    (v.made_fileIn lies source).eq_of_parts (w.made_fileIn lies source') same
  obtain rfl : kind = kind' := kinds
  have long : 1 < w.names.length := by
    have := List.length_pos_of_ne_nil (it.ne_nil u latest.mem)
    rw [names', List.length_append, List.length_singleton]
    omega
  exact ne long here' (names.trans names'.symm)

/-- The namespace of a file's directory lists the file. -/
theorem mem_files (sound : d.Sound) (h : After sources (visits d root sources) t)
    (outer : Outermost sources t) {f : NamespacedFile} (hf : f ∈ t.files) {s : Scope}
    (hs : s ∈ t.scopes) (here : s.ns.dir.parts = f.dir.parts) :
    f.virtualPath.parts ∈ (s.leaves.flatMap Leaf.files).map Path.parts := by
  have it := itinerary_visits sound root sources
  obtain ⟨before, u, after, latest, ns, filled⟩ := h.scope s hs
  obtain ⟨v, hv, x, hx, kind, stem, dir, x_here, source, rfl, -⟩ := h.file f hf
  have u_here : u.path.parts = v.above.parts := by
    rw [← show s.ns.dir.parts = v.above.parts from here, ns]
    rfl
  obtain ⟨last, names, sources_⟩ :=
    h.names_of_virtualIn? it outer latest.mem hv latest.dir u_here.symm
  obtain ⟨same, -⟩ := h.names_eq it outer hx latest.mem dir latest.dir (x_here.trans u_here.symm)
  -- the file is found below the source of the directory's last visit, too
  have found : Found d root u.source (u.names ++ [last]) v.entry := by
    have enters := (mem_visits.1 latest.mem).2.enters_nil
    have inner := (mem_visits.1 hv).2
    rw [names] at inner
    simpa using inner.of_parts sound enters (by simpa using sources_)
  have again := mem_of_visits_eq sound latest.eq found
  generalize twin : (⟨u.source, u.names ++ [last], v.entry⟩ : Visit) = w at again
  have hw : w ∈ visits d root sources := by
    rw [latest.eq]
    simp [again]
  have w_names : w.names = u.names ++ [last] := by rw [← twin]
  have parts : w.path.parts = v.path.parts := by
    rw [w.parts_path (it.isName w hw), v.parts_path (it.isName v hv), names, sources_, w_names,
      ← twin]
  have above : w.above.parts = v.above.parts := by
    rw [w.parts_path_above w_names (it.isName w hw), v.parts_path_above names (it.isName v hv)]
      at parts
    exact List.append_inj_left' parts rfl
  have source' : w.source? = some (kind, stem) := by
    obtain ⟨ne, -, -, component⟩ := Visit.source?_eq_some_iff.1 source
    rw [v.parts_of_source? (it.isName v hv) (it.ne_nil v hv) source] at parts
    have stem_ := isStem_of_isComponent component
    exact Visit.source?_eq_some_iff.2 ⟨by rwa [← twin], ofPath?_of_parts stem_ kind parts,
      fileStem?_of_parts stem_ kind.noDot_extension parts, component⟩
  have listed : w.virtualIn? s.ns = some (w.fileIn s.ns kind stem).virtualPath := by
    have here : w.above.parts = s.ns.dir.parts := above.trans here.symm
    simp [Visit.virtualIn?, source', here]
  have components : s.ns.components = x.ns.components := by
    rw [ns]
    exact same.symm
  have lies : s.ns.LiesBelow u.source := ns ▸ h.lies it latest.mem latest.dir
  refine List.mem_map.2 ⟨_, filled.files.mem_iff.2 (List.mem_filterMap.2 ⟨w, again, listed⟩), ?_⟩
  rw [w.parts_fileIn lies source', v.parts_fileIn (h.lies it hx dir) source, components, above]

/-- A digest covers no file twice. -/
theorem nodup_closure (h : After sources vs t) (it : Itinerary sources vs)
    (outer : Outermost sources t) {Done : Path → List String → Entry → Prop}
    (tidy : Tidy sources Done t) {ns : Namespace} (hn : ns ∈ t.namespaces) :
    (t.closure ns).Nodup := by
  obtain ⟨s, hs, rfl, -⟩ := tidy.exists_scope hn
  have child {c : Scope} (hc : c ∈ t.childScopes s) := (h.parts_childScopes it hs hc).1
  rw [(tidy.closure_perm hs).nodup_iff]
  refine List.nodup_append.2 ⟨.of_map _ (h.nodup_files it outer hs), ?_, ?_⟩
  · refine List.pairwise_map.2 ((h.pairwise_childScopes it hs).imp_of_mem fun {c c'} hc hc' ne same => ?_)
    obtain ⟨source, -, lies⟩ := h.shaped.below c.ns (List.mem_map_of_mem (child hc))
    obtain ⟨source', -, lies'⟩ := h.shaped.below c'.ns (List.mem_map_of_mem (child hc'))
    rw [lies.rootFile_eq, lies'.rootFile_eq] at same
    have names := congrArg Path.fileName? same
    rw [lies.fileName?_target (by decide), lies'.fileName?_target (by decide)] at names
    have flat := (String.append_left_inj _).1 (Option.some.inj names)
    have := tidy.scope_eq_of_moduleName (child hc) (child hc')
      (by rw [lies.moduleName_eq, lies'.moduleName_eq, flat])
    exact ne (by rw [this])
  · -- no file is seen where a root module belongs
    rintro q hl _ hr rfl
    obtain ⟨l, hl, hq⟩ := List.mem_flatMap.1 hl
    obtain ⟨f, hf, -, -, rfl⟩ := (tidy.leaf_iff s hs l.stem q).1 ⟨l, hl, rfl, hq⟩
    obtain ⟨c, hc, same⟩ := List.mem_map.1 hr
    obtain ⟨source, -, lies⟩ := h.shaped.below c.ns (List.mem_map_of_mem (child hc))
    have none_ := h.shaped.fileAt?_target (List.mem_map_of_mem (child hc)) (.inl rfl)
    rw [← lies.rootFile_eq, same, h.shaped.fileAt?_virtualPath hf] at none_
    simp at none_

end After

/-- Each record is found at its virtual path, each source file below a namespace has one, and where no
source directory is a namespace, it is the only one, and its namespace alone lists it, and once. -/
theorem originals_of_scan {config : Config} (sound : d.Sound) (ok : scan d root config = .ok t) :
    (∀ f ∈ t.files, t.fileAt? f.virtualPath = some f) ∧
    (∀ v ∈ visits d root config.sourceDirs, v.source?.isSome → 1 < v.names.length →
      ∃ f ∈ t.files, f.realPath.parts = v.path.parts) ∧
    (Outermost config.sourceDirs t →
      (∀ f ∈ t.files, ∀ g ∈ t.files, f.realPath.parts = g.realPath.parts → f = g) ∧
      ∀ f ∈ t.files, ∃ s ∈ t.scopes, s.ns.dir.parts = f.dir.parts ∧
        (∀ s' ∈ t.scopes, s'.ns.dir.parts = f.dir.parts → s' = s) ∧
        (s.leaves.flatMap Leaf.files).countP (·.same f.virtualPath) = 1) := by
  have h := After.scan sound ok
  have it := itinerary_visits sound root config.sourceDirs
  refine ⟨fun f hf => h.shaped.fileAt?_virtualPath hf, fun v hv source long => ?_, fun outer =>
    ⟨fun f hf g hg => h.eq_of_realPath it outer hf hg, fun f hf => ?_⟩⟩
  · obtain ⟨⟨kind, stem⟩, source⟩ := Option.isSome_iff_exists.1 source
    exact (h.plain_or_recorded it hv source).resolve_left fun plain =>
      absurd plain.direct (by omega)
  · obtain ⟨s, hs, here⟩ := h.exists_scope hf
    refine ⟨s, hs, here, fun s' hs' here' => ?_, ?_⟩
    · have found := h.shaped.scopeAt?_eq hs' here'.symm
      rw [h.shaped.scopeAt?_eq hs here.symm] at found
      exact (Option.some.inj found).symm
    · have one := List.count_eq_one_of_mem (h.nodup_files it outer hs)
        (h.mem_files sound outer hf hs here)
      rwa [List.count, List.countP_map] at one

/-- A project with a source directory, a namespace in it and a namespace in that one. -/
def innerDisk : Disk :=
  sampleDisk [["lib"], ["lib", "foo"], ["lib", "foo", "bar"]]
    [(["lib", "foo", "a.ml"], ""), (["lib", "foo", "bar", "c.ml"], "")]

set_option maxRecDepth 100000 in
/-- The records of that project are one for each source, if its only source directory is the outer
one. -/
theorem originals_innerDisk :
    innerDisk.Sound ∧ scan innerDisk ⟨"/p"⟩ libConfig = .ok (sampleTree innerDisk libConfig) ∧
      Outermost libConfig.sourceDirs (sampleTree innerDisk libConfig) ∧
        ∀ f ∈ (sampleTree innerDisk libConfig).files, ∀ g ∈ (sampleTree innerDisk libConfig).files,
          f.realPath.parts = g.realPath.parts → f = g := by
  have sound : innerDisk.Sound := by decide +kernel
  have accepted := scan_sampleTree (d := innerDisk) (c := libConfig) (by decide +kernel)
  have outer : Outermost libConfig.sourceDirs (sampleTree innerDisk libConfig) := by
    unfold Outermost
    decide +kernel
  exact ⟨sound, accepted, outer, ((originals_of_scan sound accepted).2.2 outer).1⟩

set_option maxRecDepth 100000 in
/-- If the namespace is a source directory, too, one file of that project has two records. -/
theorem two_records_innerDisk :
    (scan innerDisk ⟨"/p"⟩ nestedConfig).toOption.isSome = true ∧
      ∃ f ∈ (sampleTree innerDisk nestedConfig).files,
        ∃ g ∈ (sampleTree innerDisk nestedConfig).files,
          f.realPath.parts = g.realPath.parts ∧ f.virtualPath.parts ≠ g.virtualPath.parts := by
  decide +kernel

end Tree

end FlatModules
