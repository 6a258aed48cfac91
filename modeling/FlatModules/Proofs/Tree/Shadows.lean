import FlatModules.Proofs.Tree.FlatSpace

/-!
# Trees — files in the place of made ones

A project may have a file where a source file is to be seen under its flat name, or where a root or
alias module is to be made.  A scan refuses such a file only if its stem is a component, as it does
not look at others: a file in the place of a made one has a stem that is none
(`Tree.not_component_of_isFile`).  So the root module of a namespace directly below a source
directory, which is named by a component, is at the path of no file; one that is named by more can be
(`Tree.virtual_is_file_shadowDisk`).
-/

namespace FlatModules

open Naming Path

/-- A name with one dot is split there. -/
theorem Path.IsStem.splitExtension_append {stem extension : String} (h : IsStem stem)
    (noDot : '.' ∉ extension.toList) :
    Path.splitExtension (stem ++ "." ++ extension).toList = (stem.toList, some extension.toList) := by
  simpa using Path.splitExtension_append h.isName.ne_nil noDot

theorem SourceKind.noDot_extension (kind : SourceKind) : '.' ∉ kind.extension.toList := by
  cases kind <;> decide

section Named

variable {p : Path} {front : List Part} {stem : String}

theorem fileStem?_of_parts {extension : String} (h : IsStem stem) (noDot : '.' ∉ extension.toList)
    (parts : p.parts = front ++ [.name (stem ++ "." ++ extension)]) : p.fileStem? = some stem := by
  rw [fileStem?, fileName?_of_parts parts, Option.map_some, h.splitExtension_append noDot,
    String.ofList_toList]

theorem ofPath?_of_parts (h : IsStem stem) (kind : SourceKind)
    (parts : p.parts = front ++ [.name (stem ++ "." ++ kind.extension)]) :
    SourceKind.ofPath? p = some kind := by
  have extension : p.extension? = some kind.extension := by
    rw [extension?, fileName?_of_parts parts, Option.bind_some,
      h.splitExtension_append kind.noDot_extension, Option.map_some, String.ofList_toList]
  rw [SourceKind.ofPath?, extension]
  cases kind <;> rfl

end Named

/-- A name written below a path is the last one of it below any other path. -/
theorem Path.endsIn_div_div (base q : Path) {name : String} (h : IsName name) :
    (base / (q / ⟨name⟩)).EndsIn name := by
  cases absolute : (q / ⟨name⟩).isAbsolute with
  | true =>
    have itself : base / (q / ⟨name⟩) = q / ⟨name⟩ := if_pos absolute
    rw [itself]
    exact endsIn_div h
  | false => exact (endsIn_div h).div absolute base

namespace Tree

variable {d : Disk} {root : Path} {sources : List Path} {t : Tree}

/-- A flat name of more than one component is none itself. -/
theorem not_isComponent_flatName {cs : List String} (valid : ∀ c ∈ cs, isComponent c = true)
    (long : 1 < cs.length) : isComponent (flatName cs) = false := by
  rw [Bool.eq_false_iff]
  intro component
  have one : [flatName cs] = cs := flatName_inj (by simp) (by rintro rfl; simp at long)
    (by simpa using component) valid (flatName_singleton _)
  rw [← one] at long
  simp at long

/-- A file directly in a source directory in which anything is found is visited. -/
theorem exists_visit_of_isFile (sound : d.Sound) {u : Visit} (hu : u ∈ visits d root sources)
    {q : Path} (parts : q.parts = u.source.parts) {name : String} (isName : IsName name)
    (file : d.isFile (root / (q / ⟨name⟩)) = true) :
    ∃ v ∈ visits d root sources, v.source = u.source ∧ v.names = [name] ∧ v.entry ≠ .dir := by
  obtain ⟨listed, place, isDir, located, -⟩ := mem_visits.1 hu
  have below : (q / ⟨name⟩).parts = u.source.parts ++ [name].map Part.name := by
    rw [parts_div isName, parts]
    rfl
  have dirAt : d.DirAt (root / u.source) place := ⟨isDir, located⟩
  obtain ⟨entry, there, ne⟩ := dirAt.exists_entry_of_isFile (endsIn_div_div root q isName)
    isName.ne_up (names_div_of_parts below root) file
  refine ⟨⟨u.source, [name], entry⟩, mem_visits.2 ⟨listed, place, isDir, located, ?_, ?_⟩, rfl, rfl, ne⟩
  · exact mem_below.2 ⟨by simp, (sound.entryAt?_eq_some_iff (by simp)).1 there⟩
  · cases entry with
    | dir => exact absurd rfl ne
    | file bytes => rfl
    | link text => rfl

/-- The root module of a namespace directly below its source directory is at the path of no file. -/
theorem After.not_isFile_root (sound : d.Sound) (h : After sources (visits d root sources) t)
    {ns : Namespace} (hn : ns ∈ t.namespaces) (top : ns.components.length = 1) :
    d.isFile (root / ns.target .root) = false := by
  rw [Bool.eq_false_iff]
  intro file
  have it := itinerary_visits sound root sources
  obtain ⟨u, hu, dir, rfl, -⟩ := h.exists_visit hn
  obtain ⟨last, names⟩ := List.length_eq_one_iff.1 (show u.names.length = 1 from top)
  have valid : ∀ n ∈ u.names, isComponent n = true := by
    simpa [isVisible, dir] using it.visible u hu
  have stem : IsStem last := isStem_of_isComponent (valid last (by simp [names]))
  have lies : u.ns.LiesBelow u.source := namespaceIn_lies (it.ne_nil u hu) valid
  have flat : u.ns.flatName = last := by
    rw [lies.flatName_eq, ← flatName_singleton last, ← names]
    rfl
  have above : u.ns.above.parts = u.source.parts := by
    have top : u.ns.components.dropLast = [] := by
      rw [show u.ns.components = [last] from names]
      rfl
    rw [lies.parts_above, top, List.map_nil, List.append_nil]
  have target : u.ns.target .root =
      u.ns.above / ⟨last ++ "." ++ SourceKind.implementation.extension⟩ := by
    rw [Namespace.target, lies.rootPath_append (by decide), flat, String.append_assoc]
    rfl
  have isName : IsName (last ++ "." ++ SourceKind.implementation.extension) := by
    rw [String.append_assoc]
    exact stem.append (by decide)
  -- a file there would be a source file that the scan registers
  rw [target] at file
  obtain ⟨v, hv, source, names', ne⟩ := exists_visit_of_isFile sound hu above isName file
  have v_above : v.above.parts = u.ns.above.parts := by
    have := v.parts_above (show _ = [] ++ _ from names') (it.isName v hv)
    rw [this, source, above, List.map_nil, List.append_nil]
  have parts := v.parts_path_above (show _ = [] ++ _ from names') (it.isName v hv)
  have registered : v.source? = some (.implementation, last) :=
    Visit.source?_eq_some_iff.2 ⟨ne, ofPath?_of_parts stem _ parts,
      fileStem?_of_parts stem (by decide) parts, valid last (by simp [names])⟩
  exact h.no_source_at_root sound hn hv registered v_above flat.symm

/-- Where there is a file in the place of a source file under its flat name, of a root module or of
an alias module, its stem is no component. -/
theorem not_component_of_isFile {config : Config} (sound : d.Sound)
    (ok : scan d root config = .ok t) {o : Output} (ho : t.Makes o)
    (listed : ∀ ns r, o = .generated ns r → r = .root ∨ r = .aliases)
    (file : d.isFile (root / o.path) = true) :
    ∃ stem, o.path.fileStem? = some stem ∧ isComponent stem = false := by
  have h := After.scan sound ok
  cases ho with
  | @virtual f hf =>
    obtain ⟨cs, last, made⟩ := h.shaped.made f hf
    have parts : f.virtualPath.parts =
        f.dir.parts ++ [.name (flatName (cs ++ [last]) ++ "." ++ f.kind.extension)] := by
      rw [made.virtualPath_eq, parts_div made.isName]
    have long := List.length_pos_of_ne_nil made.ne_nil
    exact ⟨_, fileStem?_of_parts made.isStem f.kind.noDot_extension parts,
      not_isComponent_flatName made.valid (by simpa using long)⟩
  | @generated ns r hn hr =>
    obtain ⟨source, -, lies⟩ := h.shaped.below ns hn
    obtain ⟨base, parts⟩ := lies.parts_target hr
    have noDot : ∀ r ∈ namespaceRules, '.' ∉ (nameEnd r).2.toList := by decide
    refine ⟨_, fileStem?_of_parts base (noDot r hr) parts, ?_⟩
    rcases listed ns r rfl with rfl | rfl
    · change isComponent (ns.flatName ++ "") = false
      rw [String.append_empty, lies.flatName_eq]
      by_cases top : ns.components.length = 1
      · exact absurd file (by rw [Output.path, h.not_isFile_root sound hn top]; simp)
      · have some_ := List.length_pos_of_ne_nil lies.ne_nil
        exact not_isComponent_flatName lies.valid (by omega)
    · rw [Bool.eq_false_iff]
      intro component
      have valid : ∀ c ∈ [ns.flatName ++ (nameEnd .aliases).1], isComponent c = true := by
        simpa using component
      exact flatName_ne_append_aliases valid ns.flatName (flatName_singleton _)

/-- A project with a file where one of its sources is to be seen under its flat name. -/
def shadowDisk : Disk :=
  sampleDisk [["lib"], ["lib", "foo"]]
    [(["lib", "foo", "a.ml"], ""), (["lib", "foo", "foo__a.ml"], "")]

set_option maxRecDepth 100000 in
/-- The project is accepted. -/
theorem virtual_is_file_shadowDisk :
    (scan shadowDisk ⟨"/p"⟩ libConfig).toOption.isSome = true ∧
      ∃ f ∈ (sampleTree shadowDisk libConfig).files,
        shadowDisk.isFile (⟨"/p"⟩ / f.virtualPath) = true := by
  decide +kernel

set_option maxRecDepth 100000 in
/-- The stem of the file in the place is no component. -/
theorem not_component_shadowDisk :
    shadowDisk.Sound ∧ scan shadowDisk ⟨"/p"⟩ libConfig = .ok (sampleTree shadowDisk libConfig) ∧
      ∃ f ∈ (sampleTree shadowDisk libConfig).files,
        shadowDisk.isFile (⟨"/p"⟩ / f.virtualPath) = true ∧
          ∃ stem, f.virtualPath.fileStem? = some stem ∧ isComponent stem = false := by
  have sound : shadowDisk.Sound := by decide +kernel
  have accepted := scan_sampleTree (d := shadowDisk) (c := libConfig) (by decide +kernel)
  have seen : ∃ f ∈ (sampleTree shadowDisk libConfig).files,
      shadowDisk.isFile (⟨"/p"⟩ / f.virtualPath) = true := by decide +kernel
  obtain ⟨f, hf, file⟩ := seen
  have made : (sampleTree shadowDisk libConfig).Makes (.virtual f) := .virtual hf
  have stem := not_component_of_isFile sound accepted made (fun _ _ e => nomatch e) file
  exact ⟨sound, accepted, f, hf, file, stem⟩

end Tree

end FlatModules
