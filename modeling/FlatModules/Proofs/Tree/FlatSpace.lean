import FlatModules.Proofs.Naming.ModuleName
import FlatModules.Proofs.Tree.History

/-!
# Trees — the flat space

What has a name in the flat space of an accepted project (`Tree.Occupies`) and what is made for it
(`Tree.Makes`).  Different occupants have different module names, and the files that are made are at
different paths, none of them that of a source file that the scan registers
(`Tree.flat_space_of_scan`).

Occupants that claim their names differ as claims do.  Alias modules claim nothing; their names end
as no flat name does.  That a root module is at the path of no source file is a matter of claims only
where both lie in one source directory.  Where source directories lie in each other the file claims
another name, and it is the directory beside it that claims that one
(`Tree.After.no_source_at_root`).
-/

namespace FlatModules

open Naming Path

/-- A source file directly in a source directory that is no namespace when it is visited. -/
structure Visit.Plain (vs : List Visit) (v : Visit) (stem : String) : Prop where
  source : ∃ kind, v.source? = some (kind, stem)
  direct : v.names.length = 1
  alone : ∃ before after, vs = before ++ v :: after ∧
    ∀ u ∈ before, u.entry = .dir → u.path.parts ≠ v.source.parts

namespace Tree

/-- What something in the flat space is. -/
inductive Role where
  /-- A source file of a namespace, or two of one stem. -/
  | leaf
  /-- A source file that keeps its own name. -/
  | plain
  /-- The root module of a namespace. -/
  | namespaceRoot
  /-- The alias module of a namespace. -/
  | aliases
deriving DecidableEq

/-- What has a module name in the flat space: its role, and the path that it is told apart by. -/
inductive Occupies (vs : List Visit) (t : Tree) : Role → Path → String → Prop
  | leaf {f} (hf : f ∈ t.files) : Occupies vs t .leaf (f.realPath.withExtension "") f.virtualModule
  | plain {v : Visit} {stem} (h : v.Plain vs stem) :
      Occupies vs t .plain (v.path.withExtension "") (moduleName stem)
  | namespaceRoot {ns} (hn : ns ∈ t.namespaces) : Occupies vs t .namespaceRoot ns.dir ns.moduleName
  | aliases {ns} (hn : ns ∈ t.namespaces) :
      Occupies vs t .aliases ns.dir (moduleOfPath (ns.target .aliases))

/-- The rules that make a file for each namespace. -/
def namespaceRules : List Rule := [.root, .aliases, .stamp, .manifest]

/-- A file that is made for a tree. -/
inductive Output where
  /-- A source file under its flat name. -/
  | virtual (file : NamespacedFile)
  /-- What a rule generates for a namespace. -/
  | generated (ns : Namespace) (r : Rule)

/-- Where a file is made. -/
def Output.path : Output → Path
  | virtual f => f.virtualPath
  | generated ns r => ns.target r

/-- The files that are made for a tree. -/
inductive Makes (t : Tree) : Output → Prop
  | virtual {f} (hf : f ∈ t.files) : t.Makes (.virtual f)
  | generated {ns r} (hn : ns ∈ t.namespaces) (hr : r ∈ namespaceRules) :
      t.Makes (.generated ns r)

/-- What such a rule writes after a flat name, before the first dot and after it. -/
def nameEnd : Rule → String × String
  | .aliases => (aliasesSuffix, SourceKind.implementation.extension)
  | .stamp => ("", Rule.stampExtension)
  | .manifest => ("", "mllib")
  | _ => ("", SourceKind.implementation.extension)

theorem ending_eq {r : Rule} (h : r ∈ namespaceRules) :
    r.ending = (nameEnd r).1 ++ "." ++ (nameEnd r).2 := by
  revert r
  decide

theorem nameEnd_inj {r r' : Rule} (h : r ∈ namespaceRules) (h' : r' ∈ namespaceRules)
    (e : nameEnd r = nameEnd r') : r = r' := by
  have all : ∀ r ∈ namespaceRules, ∀ r' ∈ namespaceRules, nameEnd r = nameEnd r' → r = r' := by
    decide
  exact all r h r' h' e

theorem lead_eq_or (r : Rule) : (nameEnd r).1 = "" ∨ (nameEnd r).1 = aliasesSuffix := by
  unfold nameEnd
  split <;> simp

end Tree

/-! ### Names and paths -/

open Tree in
/-- A file of a namespace is beside the namespace's directory, and named before its first dot by the
flat name, with the mark of an alias module for one. -/
theorem Namespace.LiesBelow.parts_target {ns : Namespace} {source : Path} (h : ns.LiesBelow source)
    {r : Rule} (hr : r ∈ namespaceRules) :
    IsStem (ns.flatName ++ (nameEnd r).1) ∧ (ns.target r).parts = ns.above.parts ++
      [.name (ns.flatName ++ (nameEnd r).1 ++ "." ++ (nameEnd r).2)] := by
  have plain : ∀ r ∈ namespaceRules, '/' ∉ r.ending.toList ∧ '/' ∉ (nameEnd r).1.toList ∧
      '.' ∉ (nameEnd r).1.toList := by
    decide
  obtain ⟨slash, slash', dot⟩ := plain r hr
  refine ⟨⟨h.isStem.append slash', ?_⟩, ?_⟩
  · rw [String.toList_append, List.mem_append, not_or]
    exact ⟨h.isStem.noDot, dot⟩
  · rw [Namespace.target, h.rootPath_append slash, parts_div (h.isStem.append slash), ending_eq hr]
    simp only [String.append_assoc]

/-- The module of a file that is named by a stem. -/
theorem moduleOfPath_of_parts {p : Path} {front : List Part} {stem extension : String}
    (h : IsStem stem) (parts : p.parts = front ++ [.name (stem ++ "." ++ extension)]) :
    moduleOfPath p = moduleName stem := by
  have cut : (stem ++ "." ++ extension).toList.takeWhile (· != '.') = stem.toList := by
    rw [String.toList_append, String.toList_append, List.append_assoc,
      List.takeWhile_append_of_pos]
    · simp
    · intro c hc
      have ne : c ≠ '.' := by
        rintro rfl
        exact h.noDot hc
      simpa using ne
  rw [moduleOfPath, fileName?_of_parts parts, Option.getD_some, beforeDot, cut, String.ofList_toList]

namespace Tree

namespace After

variable {d : Disk} {root : Path} {sources : List Path} {vs : List Visit} {t : Tree}

/-- The namespace of a visit's directory, with the claim that it has. -/
theorem exists_visit (h : After sources vs t) {ns : Namespace} (hn : ns ∈ t.namespaces) :
    ∃ u ∈ vs, u.entry = .dir ∧ ns = u.ns ∧
      Held t.claims ns.moduleName .subNamespace ns.dir := by
  obtain ⟨s, hs, rfl⟩ := List.mem_map.1 hn
  obtain ⟨before, u, after, latest, ns, -⟩ := h.scope s hs
  refine ⟨u, latest.mem, latest.dir, ns, ?_⟩
  rw [ns]
  exact h.held u latest.mem latest.dir

/-- The record of a file, with the claim that it has. -/
theorem exists_record (h : After sources vs t) (it : Itinerary sources vs) {f : NamespacedFile}
    (hf : f ∈ t.files) : ∃ components stem, f.Made components stem ∧
      Held t.claims f.virtualModule .leafModule (f.realPath.withExtension "") := by
  obtain ⟨v, -, u, hu, kind, stem, dir, -, source, rfl, held⟩ := h.file f hf
  have lies : u.ns.LiesBelow u.source := namespaceIn_lies (it.ne_nil u hu)
    (by simpa [isVisible, dir] using it.visible u hu)
  exact ⟨_, stem, v.made_fileIn lies source, held⟩

theorem eq_of_moduleName (h : After sources vs t) {ns ns' : Namespace} (hn : ns ∈ t.namespaces)
    (hn' : ns' ∈ t.namespaces) (e : ns.moduleName = ns'.moduleName) : ns = ns' := by
  obtain ⟨-, -, -, -, held⟩ := h.exists_visit hn
  obtain ⟨-, -, -, -, held'⟩ := h.exists_visit hn'
  have dirs := (held.unique h.shaped.differ (e ▸ held')).2
  exact eq_of_pairwise_lt h.shaped.ordered hn hn' (order_eq_iff.2 dirs)

/-- No source file is where the root module of a namespace is made.  Around a directory in a source
directory that is a namespace itself, the file claims a name of that namespace; but then so does the
directory, which is visited below the outer source directory, too. -/
theorem no_source_at_root (sound : d.Sound) (h : After sources (visits d root sources) t)
    {ns : Namespace} (hn : ns ∈ t.namespaces) {v : Visit} (hv : v ∈ visits d root sources)
    {kind : SourceKind} {stem : String} (source : v.source? = some (kind, stem))
    (beside : v.above.parts = ns.above.parts) : stem ≠ ns.flatName := by
  intro flat
  have it := itinerary_visits sound root sources
  obtain ⟨u, hu, dir, rfl, held⟩ := h.exists_visit hn
  have valid : ∀ n ∈ u.names, isComponent n = true := by
    simpa [isVisible, dir] using it.visible u hu
  obtain ⟨-, -, -, component⟩ := Visit.source?_eq_some_iff.1 source
  have lies : u.ns.LiesBelow u.source := namespaceIn_lies (it.ne_nil u hu) valid
  -- a flat name that is a component is of one component
  have names : u.names = [stem] := by
    refine (flatName_inj (by simp) (it.ne_nil u hu) (by simpa using component) valid ?_).symm
    rw [flatName_singleton, flat]
    exact lies.flatName_eq
  have module_eq : u.ns.moduleName = moduleName (flatName [stem]) := by
    rw [← names]
    rfl
  obtain ⟨before, after, split⟩ := List.append_of_mem hv
  cases h.registered split source with
  | plain alone leaf =>
    rw [module_eq, flatName_singleton] at held
    exact absurd (held.unique h.shaped.differ leaf).1 (by decide)
  | @leaf w mem wdir here leaf =>
    have hw : w ∈ visits d root sources := by rw [split]; simp [mem]
    have found := (mem_visits.1 hw).2
    rw [wdir] at found
    have inner := (mem_visits.1 hu).2
    rw [dir, names] at inner
    have parts : u.source.parts = w.source.parts ++ w.names.map Part.name := by
      have above : u.ns.above.parts = u.source.parts ++ u.names.dropLast.map Part.name :=
        lies.parts_above
      have top : u.names.dropLast.map Part.name = [] := by rw [names]; rfl
      rw [top, List.append_nil] at above
      rw [← w.parts_path (it.isName w hw), here, beside, above]
    have twin : (⟨w.source, w.names ++ [stem], .dir⟩ : Visit) ∈ visits d root sources :=
      mem_visits.2 ⟨it.source w hw, inner.of_parts sound (found.enters sound) parts⟩
    exact absurd ((h.held _ twin rfl).unique h.shaped.differ leaf).1 (by decide)

theorem held_plain (h : After sources vs t) (it : Itinerary sources vs) {v : Visit} {stem : String}
    (plain : v.Plain vs stem) :
    Held t.claims (moduleName stem) .leafModule (v.path.withExtension "") := by
  obtain ⟨⟨kind, source⟩, direct, before, after, split, alone⟩ := plain
  obtain ⟨last, names⟩ := List.length_eq_one_iff.1 direct
  have parts : v.above.parts = v.source.parts := by
    have isName := it.isName v (by rw [split]; simp)
    simpa using v.parts_above (show _ = [] ++ _ from names) isName
  cases h.registered split source with
  | plain _ held => exact held
  | @leaf u mem dir here => exact absurd (here.trans parts) (alone u mem dir)

/-- A source file keeps its own name, or has a record. -/
theorem plain_or_recorded (h : After sources vs t) (it : Itinerary sources vs) {v : Visit}
    (hv : v ∈ vs) {kind : SourceKind} {stem : String} (source : v.source? = some (kind, stem)) :
    v.Plain vs stem ∨ ∃ f ∈ t.files, f.realPath.parts = v.path.parts := by
  obtain ⟨before, after, split⟩ := List.append_of_mem hv
  have isName := it.isName v hv
  obtain ⟨names, e⟩ := Visit.last_of_source? isName (it.ne_nil v hv) source
  cases h.registered split source with
  | leaf _ _ _ _ recorded => exact .inr recorded
  | plain alone held =>
    have direct : names = [] := by
      by_contra ne
      obtain ⟨first, between, enter, -⟩ := it.entered split e ne
      refine alone ⟨v.source, names, .dir⟩ (by rw [enter]; simp) rfl ?_
      rw [v.above_eq e isName ne]
      rfl
    subst direct
    have parts : v.above.parts = v.source.parts := by simpa using v.parts_above e isName
    exact .inl ⟨⟨kind, source⟩, by simp [e], before, after, split, parts ▸ alone⟩

end After

section Occupants

variable {d : Disk} {root : Path} {sources : List Path} {vs : List Visit} {t : Tree} {role role' : Role}
  {path path' : Path} {module : String}

/-- What claims its name: a flat name, of one component for a file that keeps its own. -/
theorem Occupies.held (h : After sources vs t) (it : Itinerary sources vs)
    (o : Occupies vs t role path module) (ne : role ≠ .aliases) :
    ∃ cs kind, cs ≠ [] ∧ (∀ c ∈ cs, isComponent c = true) ∧ module = moduleName (flatName cs) ∧
      Held t.claims module kind path ∧
      (role = .leaf ∧ kind = .leafModule ∧ 1 < cs.length ∨
        role = .plain ∧ kind = .leafModule ∧ cs.length = 1 ∨
        role = .namespaceRoot ∧ kind = .subNamespace) := by
  cases o with
  | leaf hf =>
    obtain ⟨cs, stem, made, held⟩ := h.exists_record it hf
    have long : 0 < cs.length := List.length_pos_of_ne_nil made.ne_nil
    exact ⟨cs ++ [stem], _, by simp, made.valid, made.virtualModule_eq, held, .inl ⟨rfl, rfl, by simpa using long⟩⟩
  | @plain v stem plain =>
    obtain ⟨kind, source⟩ := plain.source
    obtain ⟨-, -, -, component⟩ := Visit.source?_eq_some_iff.1 source
    exact ⟨[stem], _, by simp, by simpa using component, by rw [flatName_singleton],
      h.held_plain it plain, .inr (.inl ⟨rfl, rfl, rfl⟩)⟩
  | @namespaceRoot ns hn =>
    obtain ⟨-, -, -, -, held⟩ := h.exists_visit hn
    obtain ⟨source, -, lies⟩ := h.shaped.below ns hn
    exact ⟨ns.components, _, lies.ne_nil, lies.valid, by rw [lies.moduleName_eq, lies.flatName_eq],
      held, .inr (.inr ⟨rfl, rfl⟩)⟩
  | aliases hn => exact absurd rfl ne

/-- What is named after a namespace for its aliases. -/
theorem Occupies.exists_namespace (h : After sources vs t) (o : Occupies vs t .aliases path module) :
    ∃ ns ∈ t.namespaces, path = ns.dir ∧ module = moduleName (ns.flatName ++ aliasesSuffix) := by
  cases o with
  | @aliases ns hn =>
    obtain ⟨source, -, lies⟩ := h.shaped.below ns hn
    obtain ⟨stem, parts⟩ := lies.parts_target (r := .aliases) (by decide)
    exact ⟨ns, hn, rfl, moduleOfPath_of_parts stem parts⟩

/-- A name of the flat space is that of one occupant. -/
theorem Occupies.unique (h : After sources vs t) (it : Itinerary sources vs)
    (o : Occupies vs t role path module) (o' : Occupies vs t role' path' module) :
    role = role' ∧ path.parts = path'.parts := by
  -- an alias module shares its name with no other kind of occupant
  have apart {role : Role} {path path' : Path} (ne : role ≠ .aliases)
      (o : Occupies vs t role path module) (o' : Occupies vs t .aliases path' module) : False := by
    obtain ⟨cs, kind, nil, valid, rfl, -⟩ := o.held h it ne
    obtain ⟨ns, hn, -, e⟩ := o'.exists_namespace h
    obtain ⟨source, -, lies⟩ := h.shaped.below ns hn
    rw [lies.flatName_eq] at e
    exact moduleName_append_aliases_ne nil lies.ne_nil valid lies.valid e
  by_cases marked : role = .aliases
  · subst marked
    by_cases marked' : role' = .aliases
    · subst marked'
      obtain ⟨ns, hn, rfl, e⟩ := o.exists_namespace h
      obtain ⟨ns', hn', rfl, e'⟩ := o'.exists_namespace h
      obtain ⟨source, -, lies⟩ := h.shaped.below ns hn
      obtain ⟨source', -, lies'⟩ := h.shaped.below ns' hn'
      have modules := e.symm.trans e'
      rw [moduleName_append lies.isStem.isName.ne_empty,
        moduleName_append lies'.isStem.isName.ne_empty] at modules
      have same : ns.moduleName = ns'.moduleName := by
        rw [lies.moduleName_eq, lies'.moduleName_eq]
        exact (String.append_left_inj _).1 modules
      rw [h.eq_of_moduleName hn hn' same]
      exact ⟨rfl, rfl⟩
    · exact (apart marked' o' o).elim
  · by_cases marked' : role' = .aliases
    · subst marked'
      exact (apart marked o o').elim
    · obtain ⟨cs, kind, nil, valid, e, held, roles⟩ := o.held h it marked
      obtain ⟨ds, kind', nil', valid', e', held', roles'⟩ := o'.held h it marked'
      obtain ⟨rfl, paths⟩ := held.unique h.shaped.differ held'
      have length := length_eq_of_moduleName nil nil' valid valid' (e.symm.trans e')
      refine ⟨?_, paths⟩
      rcases roles with ⟨rfl, rfl, long⟩ | ⟨rfl, rfl, short⟩ | ⟨rfl, rfl⟩ <;>
        rcases roles' with ⟨rfl, kinds, long'⟩ | ⟨rfl, kinds, short'⟩ | ⟨rfl, kinds⟩ <;>
        first | rfl | (exfalso; omega) | simp at kinds

end Occupants

section Outputs

variable {d : Disk} {root : Path} {sources : List Path} {vs : List Visit} {t : Tree}

/-- Files that are generated at one path are the same file of one namespace. -/
theorem After.eq_of_target (h : After sources vs t) {ns ns' : Namespace} (hn : ns ∈ t.namespaces)
    (hn' : ns' ∈ t.namespaces) {r r' : Rule} (hr : r ∈ namespaceRules) (hr' : r' ∈ namespaceRules)
    (e : (ns.target r).parts = (ns'.target r').parts) : ns = ns' ∧ r = r' := by
  obtain ⟨source, -, lies⟩ := h.shaped.below ns hn
  obtain ⟨source', -, lies'⟩ := h.shaped.below ns' hn'
  obtain ⟨stem, parts⟩ := lies.parts_target hr
  obtain ⟨stem', parts'⟩ := lies'.parts_target hr'
  rw [parts, parts'] at e
  obtain ⟨-, names⟩ := List.append_inj' e rfl
  obtain ⟨bases, extensions⟩ := stem.inj stem' (Part.name.inj (List.singleton_inj.1 names))
  -- a mark after one flat name would be in the other
  have leads : (nameEnd r).1 = (nameEnd r').1 := by
    rcases lead_eq_or r with plain | marked <;> rcases lead_eq_or r' with plain' | marked'
    · rw [plain, plain']
    · rw [plain, marked', String.append_empty, lies.flatName_eq] at bases
      exact absurd bases (flatName_ne_append_aliases lies.valid _)
    · rw [marked, plain', String.append_empty, lies'.flatName_eq] at bases
      exact absurd bases.symm (flatName_ne_append_aliases lies'.valid _)
    · rw [marked, marked']
  rw [leads] at bases
  have flats := (String.append_left_inj _).1 bases
  refine ⟨h.eq_of_moduleName hn hn' ?_, nameEnd_inj hr hr' (Prod.ext leads extensions)⟩
  rw [lies.moduleName_eq, lies'.moduleName_eq, flats]

/-- No source file is seen where a file is generated. -/
theorem After.virtualPath_ne_target (h : After sources vs t) {f : NamespacedFile} (hf : f ∈ t.files)
    {ns : Namespace} (hn : ns ∈ t.namespaces) {r : Rule} (hr : r ∈ namespaceRules) :
    f.virtualPath.parts ≠ (ns.target r).parts := by
  intro e
  obtain ⟨cs, stem, made⟩ := h.shaped.made f hf
  obtain ⟨source, -, lies⟩ := h.shaped.below ns hn
  obtain ⟨base, parts⟩ := lies.parts_target hr
  rw [made.virtualPath_eq, parts_div made.isName, parts] at e
  obtain ⟨-, names⟩ := List.append_inj' e rfl
  obtain ⟨bases, -⟩ := made.isStem.inj base (Part.name.inj (List.singleton_inj.1 names))
  rcases lead_eq_or r with plain | marked
  · rw [plain, String.append_empty] at bases
    have leaf := h.shaped.file_claimed f hf
    rw [made.virtualModule_eq, bases, ← lies.moduleName_eq] at leaf
    exact absurd ((h.shaped.claimed ns hn).kind_eq h.shaped.differ leaf) (by decide)
  · rw [marked] at bases
    exact flatName_ne_append_aliases made.valid _ bases

theorem Makes.unique (h : After sources vs t) {o o' : Output} (ho : t.Makes o) (ho' : t.Makes o')
    (e : o.path.parts = o'.path.parts) : o = o' := by
  cases ho with
  | virtual hf =>
    cases ho' with
    | virtual hg => rw [h.shaped.eq_of_virtualPath hf hg e]
    | generated hn hr => exact absurd e (h.virtualPath_ne_target hf hn hr)
  | generated hn hr =>
    cases ho' with
    | virtual hf => exact absurd e.symm (h.virtualPath_ne_target hf hn hr)
    | generated hn' hr' =>
      obtain ⟨rfl, rfl⟩ := h.eq_of_target hn hn' hr hr' e
      rfl

/-- No file is made where a source file is that the scan registers. -/
theorem Makes.path_ne (sound : d.Sound) (h : After sources (visits d root sources) t) {o : Output}
    (ho : t.Makes o) {v : Visit} (hv : v ∈ visits d root sources) {kind : SourceKind}
    {stem : String} (source : v.source? = some (kind, stem)) : o.path.parts ≠ v.path.parts := by
  have it := itinerary_visits sound root sources
  obtain ⟨-, -, -, component⟩ := Visit.source?_eq_some_iff.1 source
  have stem_ := isStem_of_isComponent component
  have valid : ∀ c ∈ [stem], isComponent c = true := by simpa using component
  rw [v.parts_of_source? (it.isName v hv) (it.ne_nil v hv) source]
  intro e
  cases ho with
  | @virtual f hf =>
    obtain ⟨cs, last, made⟩ := h.shaped.made f hf
    rw [Output.path, made.virtualPath_eq, parts_div made.isName] at e
    obtain ⟨-, names⟩ := List.append_inj' e rfl
    obtain ⟨flat, -⟩ := made.isStem.inj stem_ (Part.name.inj (List.singleton_inj.1 names))
    rw [← flatName_singleton stem] at flat
    have one := congrArg List.length (flatName_inj (by simp) (by simp) made.valid valid flat)
    exact made.ne_nil (by simpa using one)
  | @generated ns r hn hr =>
    obtain ⟨src, -, lies⟩ := h.shaped.below ns hn
    obtain ⟨base, parts⟩ := lies.parts_target hr
    rw [Output.path, parts] at e
    obtain ⟨above, names⟩ := List.append_inj' e rfl
    obtain ⟨bases, -⟩ := base.inj stem_ (Part.name.inj (List.singleton_inj.1 names))
    rcases lead_eq_or r with plain | marked
    · rw [plain, String.append_empty] at bases
      exact h.no_source_at_root sound hn hv source above.symm bases.symm
    · rw [marked, ← flatName_singleton stem] at bases
      exact flatName_ne_append_aliases valid _ bases.symm

end Outputs

/-- What is in the flat space of an accepted project is told apart by its module name, and what is
made for it by its path; and nothing is made where a registered source file is. -/
theorem flat_space_of_scan {d : Disk} {root : Path} {config : Config} {t : Tree} (sound : d.Sound)
    (ok : scan d root config = .ok t) :
    (∀ {role role' path path' module},
      Occupies (visits d root config.sourceDirs) t role path module →
      Occupies (visits d root config.sourceDirs) t role' path' module →
        role = role' ∧ path.parts = path'.parts) ∧
    (∀ v ∈ visits d root config.sourceDirs, ∀ kind stem, v.source? = some (kind, stem) →
      v.Plain (visits d root config.sourceDirs) stem ∨
        ∃ f ∈ t.files, f.realPath.parts = v.path.parts) ∧
    (∀ o o', t.Makes o → t.Makes o' → o.path.parts = o'.path.parts → o = o') ∧
    ∀ o, t.Makes o → ∀ v ∈ visits d root config.sourceDirs, v.source?.isSome →
      o.path.parts ≠ v.path.parts := by
  have h := After.scan sound ok
  have it := itinerary_visits sound root config.sourceDirs
  refine ⟨fun o o' => o.unique h it o', fun v hv kind stem source =>
    h.plain_or_recorded it hv source, fun o o' ho ho' => ho.unique h ho', ?_⟩
  intro o ho v hv registered
  obtain ⟨⟨kind, stem⟩, source⟩ := Option.isSome_iff_exists.1 registered
  exact ho.path_ne sound h hv source

/-- A project of which one source directory lies in another, with a file directly in each. -/
def nestedDisk : Disk :=
  sampleDisk [["lib"], ["lib", "foo"]] [(["lib", "a.ml"], ""), (["lib", "foo", "a.ml"], "")]

/-- The settings of that project. -/
def nestedConfig : Config := { sourceDirs := [⟨"lib"⟩, ⟨"lib/foo"⟩] }

set_option maxRecDepth 100000 in
/-- What is made for that project is at paths of its own, and at none of its two sources. -/
theorem flat_space_nestedDisk :
    nestedDisk.Sound ∧ scan nestedDisk ⟨"/p"⟩ nestedConfig = .ok (sampleTree nestedDisk nestedConfig) ∧
      (∀ o o', (sampleTree nestedDisk nestedConfig).Makes o →
        (sampleTree nestedDisk nestedConfig).Makes o' → o.path.parts = o'.path.parts → o = o') ∧
      ∀ o, (sampleTree nestedDisk nestedConfig).Makes o →
        ∀ v ∈ visits nestedDisk ⟨"/p"⟩ nestedConfig.sourceDirs, v.source?.isSome →
          o.path.parts ≠ v.path.parts := by
  have sound : nestedDisk.Sound := by decide +kernel
  have accepted := scan_sampleTree (d := nestedDisk) (c := nestedConfig) (by decide +kernel)
  exact ⟨sound, accepted, (flat_space_of_scan sound accepted).2.2⟩

set_option maxRecDepth 100000 in
/-- A project is accepted though two files directly in source directories are of one module name:
the second one has only the name that its namespace gives it. -/
theorem own_names_meet_nestedDisk :
    (scan nestedDisk ⟨"/p"⟩ nestedConfig).toOption.isSome = true ∧
      ∃ v ∈ visits nestedDisk ⟨"/p"⟩ nestedConfig.sourceDirs,
        ∃ w ∈ visits nestedDisk ⟨"/p"⟩ nestedConfig.sourceDirs,
          v.names.length = 1 ∧ w.names.length = 1 ∧ v.path.parts ≠ w.path.parts ∧
            v.source? = some (.implementation, "a") ∧ w.source? = some (.implementation, "a") := by
  decide +kernel

end Tree

end FlatModules
