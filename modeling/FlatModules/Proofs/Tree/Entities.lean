import FlatModules.Proofs.Path.Beside
import FlatModules.Proofs.Tree.Shadows

/-!
# Tree — which projects are accepted

What a scan goes by are the directories below source directories and, for each stem, the source files
that share it (`Entity`).  Every entity claims one module name, which depends on nothing else in the
project, so that a scan is refused for a module name exactly if two entities have it, and accepted
otherwise if all libraries are directories that it found (`scan_outcome`).
-/

namespace FlatModules

open Naming FlatModules.Path

/-! ### Owners -/

/-- A path without its extension. -/
theorem Path.withExtension_empty {p : Path} {stem extension : String} (h : IsStem stem)
    (noDot : '.' ∉ extension.toList) (noSlash : '/' ∉ extension.toList) :
    (p / ⟨stem ++ "." ++ extension⟩).withExtension "" = p / ⟨stem⟩ := by
  have name : IsName (stem ++ "." ++ extension) := by
    rw [String.append_assoc]
    exact h.append (by simpa using noSlash)
  have dotted : IsName (stem ++ ".") := h.append (by decide)
  have spelled : (p / ⟨stem ++ "." ++ extension⟩).Spelled p.front (stem ++ "." ++ extension) :=
    ⟨by rw [div_eq name], name.noSlash, p.front_eq_or⟩
  have rest : (⟨p.front ++ String.ofList (stem.toList ++ ['.'])⟩ : Path) = p / ⟨stem ++ "."⟩ := by
    rw [div_eq dotted, Path.mk.injEq, ← String.toList_inj]
    simp
  have split : splitExtension (stem ++ ".").toList = (stem.toList, some []) := by
    have noDot : '.' ∉ "".toList := by simp
    simpa using h.splitExtension_append noDot
  have rev : (p / ⟨stem ++ "."⟩).segments.reverse = (stem ++ ".").toList :: p.lead.reverse := by
    rw [segments_div dotted]
    simp
  rw [withExtension_of_split spelled (fileName?_div name) (h.splitExtension_append noDot), rest]
  simp only [endStem, fileName?_div dotted, split, rev, dropIdle_cons_of_isName dotted, ofSegments]
  have spelled : (⟨String.ofList (Text.joinWith ['/'] (p.lead ++ [stem.toList]))⟩ : Path) = p / ⟨stem⟩ := by
    rw [← text_div h.isName]
  rw [if_neg (by simp), ← spelled]
  simp

/-! ### Entities -/

/-- What claims a module name: a directory, or the source files of one stem in a directory. -/
inductive Entity where
  | directory (source : Path) (components : List String)
  | sources (source : Path) (components : List String) (stem : String)
deriving DecidableEq

namespace Entity

/-- The source directory that the entity is below. -/
def source : Entity → Path
  | directory source _ => source
  | sources source _ _ => source

/-- The names from the source directory down to the entity, extensions apart. -/
def names : Entity → List String
  | directory _ components => components
  | sources _ components stem => components ++ [stem]

def kind : Entity → MemberKind
  | directory _ _ => .subNamespace
  | sources _ _ _ => .leafModule

/-- The path of the entity, extensions apart. -/
def path (e : Entity) : Path := e.source.below e.names

/-- The module name that the entity has in the flat space. -/
def module (e : Entity) : String := moduleName (flatName e.names)

end Entity

namespace Visit

variable {v : Visit} {source : Path} {components : List String} {stem : String}

/-- The entity that a visit comes upon. -/
def entity? (v : Visit) : Option Entity :=
  if v.entry = .dir then some (.directory v.source v.names)
  else v.source?.map fun x => .sources v.source v.names.dropLast x.2

theorem entity?_eq_directory_iff :
    v.entity? = some (.directory source components) ↔
      v.entry = .dir ∧ v.source = source ∧ v.names = components := by
  unfold entity?
  split <;> simp [*]

theorem entity?_eq_sources_iff :
    v.entity? = some (.sources source components stem) ↔
      v.source = source ∧ v.names.dropLast = components ∧ ∃ kind, v.source? = some (kind, stem) := by
  unfold entity?
  split
  case isTrue dir =>
    constructor
    · intro e
      simp at e
    · rintro ⟨-, -, kind, e⟩
      exact absurd dir (source?_eq_some_iff.1 e).1
  case isFalse =>
    constructor
    · intro e
      obtain ⟨⟨kind, stem'⟩, found, e⟩ := Option.map_eq_some_iff.1 e
      cases e
      exact ⟨rfl, rfl, kind, found⟩
    · rintro ⟨rfl, rfl, kind, found⟩
      rw [found]
      rfl

end Visit

namespace Tree

variable {d : Disk} {root source : Path} {sources : List Path} {components : List String}
  {stem : String} {kind : SourceKind} {entry : Entry} {v : Visit} {e e' : Entity} {t t' : Tree}

/-- Whether a file of a kind and a stem is in a directory that a scan enters from a source
directory. -/
def HasSource (d : Disk) (root source : Path) (components : List String) (stem : String)
    (kind : SourceKind) : Prop :=
  ∃ place entry, d.DirAt (root / source) place ∧ (∀ c ∈ components, isComponent c = true) ∧
    isComponent stem = true ∧
    d.entryAt? (place ++ (components ++ [stem ++ "." ++ kind.extension])) = some entry ∧ entry ≠ .dir

/-- What is below the source directories of a project: all directories that a scan enters, and all
source files in these or directly in a source directory. -/
inductive HasEntity (d : Disk) (root : Path) (sources : List Path) : Entity → Prop
  | directory {source : Path} {components : List String} (hs : source ∈ sources)
      (enters : Enters d root source components) (ne : components ≠ []) :
      HasEntity d root sources (.directory source components)
  | sources {source : Path} {components : List String} {stem : String} {kind : SourceKind}
      (hs : source ∈ sources) (has : HasSource d root source components stem kind) :
      HasEntity d root sources (.sources source components stem)

/-- Whether a scan comes from neither of two source directories to the other. -/
def Separate (d : Disk) (root s t : Path) : Prop :=
  Enters d root s [] → Enters d root t [] → ∀ names,
    (Enters d root s names → t.parts ≠ s.parts ++ names.map Part.name) ∧
    (Enters d root t names → s.parts ≠ t.parts ++ names.map Part.name)

/-- Whether a scan comes from no source directory to another one. -/
def Disjoint (d : Disk) (root : Path) (sources : List Path) : Prop :=
  sources.Pairwise (Separate d root)

instance : Std.Symm (Separate d root) :=
  ⟨fun _ _ h enters enters' names => (h enters' enters names).symm⟩

/-- Whether a scan comes from no source directory to a different one, however often each is listed. -/
def Scattered (d : Disk) (root : Path) (sources : List Path) : Prop :=
  {s | s ∈ sources}.Pairwise (Separate d root)

theorem Disjoint.scattered (h : Disjoint d root sources) : Scattered d root sources :=
  fun _ hs _ ht ne => h.forall hs ht ne

theorem Enters.of_append (sound : d.Sound) {names rest : List String}
    (h : Enters d root source (names ++ rest)) : Enters d root source names := by
  obtain ⟨place, dirAt, there, valid⟩ := h
  refine ⟨place, dirAt, ?_, fun n hn => valid n (List.mem_append_left _ hn)⟩
  by_cases nil : rest = []
  · simpa [nil] using there
  · rw [← List.append_assoc] at there
    exact sound.dir_of_prefix nil there

theorem Enters.isName {names : List String} (h : Enters d root source names) :
    ∀ n ∈ names, IsName n := by
  obtain ⟨place, -, -, valid⟩ := h
  exact fun n hn => isName_of_isComponent (valid n hn)

/-- Source directories none of which lies in another are such, whatever is on the disk. -/
theorem Disjoint.of_apart (h : Apart sources) : Disjoint d root sources := by
  have below {s t : Path} {names : List String} (enters : Enters d root s names)
      (e : t.parts = s.parts ++ names.map Part.name) : s.names <+: t.names := by
    rw [← parts_below enters.isName] at e
    rw [names_congr e, names_below enters.isName]
    exact List.prefix_append _ _
  refine h.imp fun apart _ _ names => ⟨fun enters e => apart.1 (below enters e),
    fun enters e => apart.2 (below enters e)⟩

/-- So are source directories at places none of which lies in another. -/
theorem Disjoint.of_places (sound : d.Sound) (h : sources.Pairwise fun s t => ∀ place place',
    d.DirAt (root / s) place → d.DirAt (root / t) place' → ¬ place <+: place' ∧ ¬ place' <+: place) :
    Disjoint d root sources := by
  have below {s t : Path} {names : List String} {place place' : Place} (enters : Enters d root s names)
      (at_s : d.DirAt (root / s) place) (at_t : d.DirAt (root / t) place')
      (e : t.parts = s.parts ++ names.map Part.name) : place <+: place' := by
    obtain ⟨q, dirAt, inner, valid⟩ := enters
    obtain rfl := at_s.place_eq sound dirAt rfl
    have isName := fun n hn => isName_of_isComponent (valid n hn)
    have noLinks := noLinks_trail sound inner isName
    rw [dirAt.place_eq_append sound at_t (names_div_of_parts e root) isName noLinks]
    exact List.prefix_append _ _
  refine h.imp fun apart enters enters' names => ?_
  obtain ⟨place, at_s, -⟩ := enters
  obtain ⟨place', at_t, -⟩ := enters'
  exact ⟨fun enters e => (apart place place' at_s at_t).1 (below enters at_s at_t e),
    fun enters e => (apart place place' at_s at_t).2 (below enters at_t at_s e)⟩

/-- Names that lead from source directories to one directory are the same. -/
theorem Scattered.eq (scattered : Scattered d root sources) (sound : d.Sound) {s t : Path}
    {cs ds : List String} (hs : s ∈ sources) (ht : t ∈ sources) (enters : Enters d root s cs)
    (enters' : Enters d root t ds)
    (e : s.parts ++ cs.map Part.name = t.parts ++ ds.map Part.name) : s = t ∧ cs = ds := by
  have nil {s : Path} {cs : List String} (enters : Enters d root s cs) : Enters d root s [] := by
    rw [← List.nil_append cs] at enters
    exact enters.of_append sound
  -- one of the source directories is spelled below the other one
  have below {s t : Path} {cs ds : List String} {parts : List Part} (hs : s ∈ sources)
      (ht : t ∈ sources) (enters : Enters d root s cs) (enters' : Enters d root t ds)
      (front : t.parts = s.parts ++ parts) (rest : cs.map Part.name = parts ++ ds.map Part.name) :
      s = t ∧ cs = ds := by
    obtain ⟨names, ds', rfl, rfl, same⟩ := List.map_eq_append_iff.1 rest
    obtain rfl := List.map_injective_iff.2 (fun _ _ => Part.name.inj) same
    by_cases eq : s = t
    · subst eq
      obtain rfl : names = [] := by simpa using front
      exact ⟨rfl, rfl⟩
    · have separate := scattered hs ht eq (nil enters) (nil enters') names
      exact absurd front (separate.1 (enters.of_append sound))
  rcases List.append_eq_append_iff.1 e with ⟨parts, front, rest⟩ | ⟨parts, front, rest⟩
  · exact below hs ht enters enters' front rest
  · obtain ⟨eq, same⟩ := below ht hs enters' enters front rest
    exact ⟨eq.symm, same.symm⟩

/-! ### What is visited -/

/-- A directory that a scan enters is visited. -/
theorem visited_of_enters (sound : d.Sound) (hs : source ∈ sources)
    (enters : Enters d root source components) (ne : components ≠ []) :
    (⟨source, components, .dir⟩ : Visit) ∈ visits d root sources := by
  obtain ⟨place, dirAt, there, valid⟩ := enters
  refine mem_visits.2 ⟨hs, place, dirAt.1, dirAt.2, mem_below.2 ⟨ne, ?_⟩, by simpa [isVisible] using valid⟩
  exact (sound.entryAt?_eq_some_iff (by simp [ne])).1 there

/-- A source file in a directory that a scan enters is visited. -/
theorem visited_of_hasSource (sound : d.Sound) (hs : source ∈ sources)
    (has : HasSource d root source components stem kind) :
    ∃ v ∈ visits d root sources, v.source = source ∧
      v.names = components ++ [stem ++ "." ++ kind.extension] ∧ v.source? = some (kind, stem) := by
  obtain ⟨place, entry, dirAt, valid, component, there, ne⟩ := has
  have isStem := isStem_of_isComponent component
  have isName : IsName (stem ++ "." ++ kind.extension) := by
    rw [String.append_assoc]
    exact isStem.append (by cases kind <;> decide)
  have parts : (source.below (components ++ [stem ++ "." ++ kind.extension])).parts =
      (source.below components).parts ++ [.name (stem ++ "." ++ kind.extension)] := by
    rw [below_append_singleton, parts_div isName]
  refine ⟨⟨source, components ++ [stem ++ "." ++ kind.extension], entry⟩,
    mem_visits.2 ⟨hs, place, dirAt.1, dirAt.2, mem_below.2 ⟨by simp, ?_⟩, ?_⟩, rfl, rfl,
    Visit.source?_eq_some_iff.2 ⟨ne, ofPath?_of_parts isStem kind parts,
      fileStem?_of_parts isStem kind.noDot_extension parts, component⟩⟩
  · exact (sound.entryAt?_eq_some_iff (by simp)).1 there
  · cases entry with
    | dir => exact absurd rfl ne
    | file bytes => simpa [isVisible] using valid
    | link text => simpa [isVisible] using valid

theorem hasSource_of_visit (sound : d.Sound) (hv : v ∈ visits d root sources)
    (source? : v.source? = some (kind, stem)) :
    HasSource d root v.source v.names.dropLast stem kind ∧
      v.names = v.names.dropLast ++ [stem ++ "." ++ kind.extension] := by
  have it := itinerary_visits sound root sources
  obtain ⟨names, e⟩ := Visit.last_of_source? (it.isName v hv) (it.ne_nil v hv) source?
  obtain ⟨ne, -, -, component⟩ := Visit.source?_eq_some_iff.1 source?
  obtain ⟨-, place, dir, located, mem, visible⟩ := mem_visits.1 hv
  obtain ⟨-, there⟩ := mem_below.1 mem
  rw [e, List.dropLast_concat]
  refine ⟨⟨place, v.entry, ⟨dir, located⟩, ?_, component, ?_, ne⟩, rfl⟩
  · cases entry : v.entry with
    | dir => exact absurd entry ne
    | file bytes => simpa [isVisible, entry, e] using visible
    | link text => simpa [isVisible, entry, e] using visible
  · rw [← e]
    exact (sound.entryAt?_eq_some_iff (by simp [e])).2 there

theorem HasSource.enters (sound : d.Sound) (has : HasSource d root source components stem kind) :
    Enters d root source components := by
  obtain ⟨place, entry, dirAt, valid, -, there, -⟩ := has
  refine ⟨place, dirAt, ?_, valid⟩
  rw [← List.append_assoc] at there
  exact sound.dir_of_prefix (by simp) there

/-- The entities of a project are what its visits come upon. -/
theorem hasEntity_iff (sound : d.Sound) :
    HasEntity d root sources e ↔ ∃ v ∈ visits d root sources, v.entity? = some e := by
  constructor
  · rintro (⟨hs, enters, ne⟩ | ⟨hs, has⟩)
    · exact ⟨_, visited_of_enters sound hs enters ne, Visit.entity?_eq_directory_iff.2 ⟨rfl, rfl, rfl⟩⟩
    · obtain ⟨v, hv, source, names, source?⟩ := visited_of_hasSource sound hs has
      exact ⟨v, hv, Visit.entity?_eq_sources_iff.2 ⟨source, by rw [names, List.dropLast_concat], _, source?⟩⟩
  · rintro ⟨v, hv, found⟩
    cases e with
    | directory source components =>
      obtain ⟨dir, rfl, rfl⟩ := Visit.entity?_eq_directory_iff.1 found
      obtain ⟨hs, found⟩ := mem_visits.1 hv
      exact .directory hs (Found.enters sound (dir ▸ found)) found.ne_nil
    | sources source components stem =>
      obtain ⟨rfl, rfl, kind, source?⟩ := Visit.entity?_eq_sources_iff.1 found
      exact .sources (mem_visits.1 hv).1 (hasSource_of_visit sound hv source?).1

theorem HasEntity.isName (h : HasEntity d root sources e) : ∀ n ∈ e.names, IsName n := by
  cases h with
  | directory _ enters => exact enters.isName
  | sources _ has =>
    obtain ⟨-, -, -, valid, component, -⟩ := has
    intro n hn
    rcases List.mem_append.1 hn with hn | hn
    · exact isName_of_isComponent (valid n hn)
    · exact List.mem_singleton.1 hn ▸ isName_of_isComponent component

/-- Entities are told apart by their kinds and paths. -/
theorem HasEntity.eq_of_parts (sound : d.Sound) (scattered : Scattered d root sources)
    (h : HasEntity d root sources e) (h' : HasEntity d root sources e') (kinds : e.kind = e'.kind)
    (paths : e.path.parts = e'.path.parts) : e = e' := by
  rw [Entity.path, Entity.path, parts_below h.isName, parts_below h'.isName] at paths
  cases h with
  | directory hs enters =>
    cases h' with
    | directory hs' enters' =>
      obtain ⟨rfl, rfl⟩ := scattered.eq sound hs hs' enters enters' paths
      rfl
    | sources => cases kinds
  | sources hs has =>
    cases h' with
    | directory => cases kinds
    | sources hs' has' =>
      simp only [Entity.source, Entity.names, List.map_append, List.map_cons, List.map_nil,
        ← List.append_assoc] at paths
      obtain ⟨front, last⟩ := List.append_inj' paths rfl
      obtain ⟨rfl, rfl⟩ := scattered.eq sound hs hs' (has.enters sound) (has'.enters sound) front
      obtain rfl := Part.name.inj (List.singleton_inj.1 last)
      rfl

/-! ### Claims -/

/-- A list of steps goes through, or ends at the first that fails. -/
theorem foldlM_cases {α β ε : Type} {f : α → β → Except ε α} {P : List β → α → Prop} {Q : ε → Prop}
    {xs : List β}
    (step : ∀ front x back a, xs = front ++ x :: back → P front a →
      (∃ a', f a x = .ok a' ∧ P (front ++ [x]) a') ∨ ∃ e, f a x = .error e ∧ Q e)
    {a : α} (start : P [] a) :
    (∃ a', xs.foldlM f a = .ok a' ∧ P xs a') ∨ ∃ e, xs.foldlM f a = .error e ∧ Q e := by
  suffices main : ∀ back front a, xs = front ++ back → P front a →
      (∃ a', back.foldlM f a = .ok a' ∧ P xs a') ∨ ∃ e, back.foldlM f a = .error e ∧ Q e from
    main xs [] a rfl start
  intro back
  induction back with
  | nil => exact fun front a split h => .inl ⟨a, rfl, by rwa [split, List.append_nil]⟩
  | cons x back ih =>
    intro front a split h
    rw [List.foldlM_cons]
    rcases step front x back a split h with ⟨a', ok, h'⟩ | ⟨e, error, he⟩
    · rw [ok]
      exact ih (front ++ [x]) a' (by simp [split]) h'
    · rw [error]
      exact .inr ⟨e, rfl, he⟩

/-- A claim fails only if another owner has the name, or the owner has it as something else. -/
theorem claim_cases (t : Tree) (module : String) (kind : MemberKind) (owner : Path) :
    (∃ t', t.claim module kind owner = .ok t' ∧ Held t'.claims module kind owner ∧
      t.claims ⊆ t'.claims ∧
      ∀ c ∈ t'.claims, c ∈ t.claims ∨ c = ⟨module, kind, owner⟩) ∨
    ∃ held ∈ t.claims, held.module = module ∧ ¬ (held.kind = kind ∧ held.owner.parts = owner.parts) ∧
      t.claim module kind owner = .error (.duplicateModule module held.owner owner) := by
  unfold claim
  cases found : t.claims.find? (·.module = module) with
  | none =>
    exact .inl ⟨_, rfl, ⟨_, List.mem_cons_self, rfl, rfl, rfl⟩, List.subset_cons_self _ _,
      fun c hc => (List.mem_cons.1 hc).symm⟩
  | some held =>
    have mem := List.mem_of_find?_eq_some found
    have named : held.module = module := by simpa using List.find?_some found
    by_cases same : held.kind = kind ∧ held.owner.parts = owner.parts
    · simp only [same_iff, same, and_self, ↓reduceIte]
      exact .inl ⟨t, rfl, ⟨held, mem, named, same⟩, List.Subset.refl _, fun c hc => .inl hc⟩
    · simp only [same_iff, same, ↓reduceIte]
      exact .inr ⟨held, mem, named, same, rfl⟩

theorem addVisit_eq (ne : v.names ≠ []) (isName : ∀ n ∈ v.names, IsName n) :
    t.addVisit v = match v.entry, SourceKind.ofPath? v.path with
      | .dir, _ => t.addNamespace v.path v.names
      | _, some kind => t.addSource v.path kind
      | _, none => .ok t := by
  have path : belowRoot v.source v.names = v.path := div_intercalate ne isName
  unfold addVisit addEntry
  dsimp only
  rw [path]
  cases v.entry <;> cases SourceKind.ofPath? v.path <;> rfl

theorem addVisit_of_other (ne : v.names ≠ []) (isName : ∀ n ∈ v.names, IsName n)
    (other : v.entry ≠ .dir) {kind : SourceKind} (hk : SourceKind.ofPath? v.path = some kind) :
    t.addVisit v = t.addSource v.path kind := by
  rw [addVisit_eq ne isName, hk]
  split
  · exact absurd ‹_› other
  · obtain rfl := Option.some.inj ‹_›
    rfl
  · simp at *

/-- A visit of no entity changes nothing. -/
theorem addVisit_of_none (ne : v.names ≠ []) (isName : ∀ n ∈ v.names, IsName n)
    (none : v.entity? = none) : t.addVisit v = .ok t := by
  have other : v.entry ≠ .dir := fun dir => by simp [Visit.entity?, dir] at none
  have source? : v.source? = Option.none := by simpa [Visit.entity?, other] using none
  cases hk : SourceKind.ofPath? v.path with
  | none =>
    rw [addVisit_eq ne isName, hk]
    split
    · exact absurd ‹_› other
    · simp at *
    · rfl
  | some kind =>
    rw [addVisit_of_other ne isName other hk, Tree.addSource]
    split
    · rfl
    · next stem hs =>
      have invalid : isComponent stem ≠ true := fun valid => by
        rw [Visit.source?_eq_some_iff.2 ⟨other, hk, hs, valid⟩] at source?
        simp at source?
      simp [invalid]
      rfl

/-- A directory that is visited at the path of the directory that an entry is in is that one. -/
theorem names_of_above (sound : d.Sound) (scattered : Scattered d root sources) {u : Visit}
    (hu : u ∈ visits d root sources) (dir : u.entry = .dir) (hv : v ∈ visits d root sources)
    (here : u.path.parts = v.above.parts) : u.source = v.source ∧ u.names = v.names.dropLast := by
  have it := itinerary_visits sound root sources
  obtain ⟨hs, found⟩ := mem_visits.1 hu
  obtain ⟨hs', found'⟩ := mem_visits.1 hv
  obtain ⟨names, last, e⟩ := (List.eq_nil_or_concat' v.names).resolve_left (it.ne_nil v hv)
  have enters : Enters d root v.source names := by
    by_cases top : names = []
    · exact top ▸ found'.enters_nil
    · exact ((e ▸ found').above sound top).enters sound
  rw [u.parts_path (it.isName u hu), v.parts_above e (it.isName v hv)] at here
  rw [e, List.dropLast_concat]
  exact scattered.eq sound hs hs' (Found.enters sound (dir ▸ found)) enters here

theorem bind_ok {α β ε : Type} (x : Except ε α) (f : α → β) :
    (x >>= fun a => (pure (f a) : Except ε β)) = x.map f := by
  cases x <;> rfl

/-- A visit of an entity is a claim of its module name, and goes through if that does. -/
theorem addVisit_of_entity (sound : d.Sound) (scattered : Scattered d root sources)
    {before : List Visit} (visited : ∀ u ∈ before, u ∈ visits d root sources)
    (hv : v ∈ visits d root sources) (it : Itinerary sources (before ++ [v]))
    (h : After sources before t) (found : v.entity? = some e) :
    ∃ owner g, owner.parts = e.path.parts ∧ (∀ t' : Tree, (g t').claims = t'.claims) ∧
      t.addVisit v = (t.claim e.module e.kind owner).map g := by
  have mem : v ∈ before ++ [v] := List.mem_append_right _ List.mem_cons_self
  have ne := it.ne_nil v mem
  have isName := it.isName v mem
  cases e with
  | directory source components =>
    obtain ⟨dir, rfl, rfl⟩ := Visit.entity?_eq_directory_iff.1 found
    rw [addVisit_eq ne isName, dir]
    refine ⟨v.path, _, rfl, fun t' => ?_, bind_ok (t.claim v.ns.moduleName .subNamespace v.path) _⟩
    cases (namespaceFor v.path v.names).parent <;> rfl
  | sources source components stem =>
    obtain ⟨rfl, rfl, kind, source?⟩ := Visit.entity?_eq_sources_iff.1 found
    obtain ⟨other, hk, hs, valid⟩ := Visit.source?_eq_some_iff.1 source?
    obtain ⟨has, names⟩ := hasSource_of_visit sound hv source?
    have isStem := isStem_of_isComponent valid
    have owner : (v.path.withExtension "").parts =
        (Entity.sources v.source v.names.dropLast stem).path.parts := by
      rw [v.path_eq names, Path.withExtension_empty isStem kind.noDot_extension
        (by cases kind <;> decide)]
      exact congrArg Path.parts (below_append_singleton _ _ _).symm
    rw [addVisit_of_other ne isName other hk, Tree.addSource]
    simp only [hs, valid, Bool.not_true, Bool.false_eq_true, ↓reduceIte]
    cases at_ : t.scopeAt? (v.path.parent?.getD Path.empty) with
    | none =>
      refine ⟨_, id, owner, fun _ => rfl, ?_⟩
      -- a file in a directory that is not the source directory has a scope
      have direct : v.names.dropLast = [] := by
        by_contra long
        obtain ⟨first, between, rfl, -⟩ := it.entered rfl names long
        obtain ⟨s, hs, here⟩ := h.scope_of_dir ⟨v.source, v.names.dropLast, .dir⟩ (by simp) rfl
        rw [Visit.path, ← v.above_eq names isName long] at here
        exact List.find?_eq_none.1 at_ s hs (same_iff.2 here)
      simp only [Entity.module, Entity.names, Entity.kind, direct, List.nil_append, flatName_singleton]
      cases t.claim (moduleName stem) .leafModule (v.path.withExtension "") <;> rfl
    | some s =>
      have ns_eq : s.ns = namespaceIn v.source v.names.dropLast ∧ v.names.dropLast ≠ [] := by
        obtain ⟨first, u, after, latest, ns_eq, -⟩ := h.scope s (List.mem_of_find?_eq_some at_)
        have hu := visited u latest.mem
        unfold scopeAt? at at_
        have here := List.find?_some at_
        rw [same_iff, ns_eq] at here
        obtain ⟨same, same'⟩ := names_of_above sound scattered hu latest.dir hv here
        rw [ns_eq, ← same, ← same']
        exact ⟨rfl, (mem_visits.1 hu).2.ne_nil⟩
      have module_eq : (Entity.sources v.source v.names.dropLast stem).module =
          (v.fileIn s.ns kind stem).virtualModule := by
        rw [Entity.module, Entity.names, flatName_append_singleton ns_eq.2, ns_eq.1]
        simp only [Visit.fileIn, fileFor, namespaceIn, namespaceFor]
      rw [module_eq]
      refine ⟨_, fun t : Tree => (t.updateScope v.above fun s' =>
        { s' with leaves := addToLeaf (v.leafIn s.ns kind stem) s'.leaves }).putFile
          (v.fileIn s.ns kind stem), owner, fun _ => rfl, ?_⟩
      exact bind_ok _ _

/-- What is claimed after visits: the module names of what they came upon, each by its entity. -/
structure Claimants (vs : List Visit) (t : Tree) : Prop where
  held : ∀ v ∈ vs, ∀ e, v.entity? = some e → Held t.claims e.module e.kind e.path
  entity : ∀ c ∈ t.claims, ∃ v ∈ vs, ∃ e, v.entity? = some e ∧ c.module = e.module ∧ c.kind = e.kind ∧
    c.owner.parts = e.path.parts

/-- Whether two entities of a project have one module name. -/
def Clashing (d : Disk) (root : Path) (sources : List Path) : Prop :=
  ∃ e e', HasEntity d root sources e ∧ HasEntity d root sources e' ∧ e ≠ e' ∧ e.module = e'.module

namespace Claimants

variable {vs : List Visit}

theorem start (executables : List ExecutableConfig) : Claimants [] { executables } where
  held v hv := by simp at hv
  entity c hc := by simp at hc

/-- One visit more goes through, or comes upon an entity whose module name another one has. -/
theorem step (sound : d.Sound) (scattered : Scattered d root sources)
    (visited : ∀ u ∈ vs, u ∈ visits d root sources) (hv : v ∈ visits d root sources)
    (it : Itinerary sources (vs ++ [v])) (after : After sources vs t) (h : Claimants vs t) :
    (∃ t', t.addVisit v = .ok t' ∧ Claimants (vs ++ [v]) t') ∨
      ∃ error, t.addVisit v = .error error ∧ (∃ m a b, error = .duplicateModule m a b) ∧
        Clashing d root sources := by
  cases found : v.entity? with
  | none =>
    have mem : v ∈ vs ++ [v] := List.mem_append_right _ List.mem_cons_self
    refine .inl ⟨t, addVisit_of_none (it.ne_nil v mem) (it.isName v mem) found, fun u hu e hue => ?_,
      fun c hc => ?_⟩
    · rcases List.mem_append.1 hu with hu | hu
      · exact h.held u hu e hue
      · obtain rfl := List.mem_singleton.1 hu
        simp [found] at hue
    · obtain ⟨u, hu, rest⟩ := h.entity c hc
      exact ⟨u, List.mem_append_left _ hu, rest⟩
  | some e =>
    obtain ⟨owner, g, parts, claims, step⟩ :=
      addVisit_of_entity sound scattered visited hv it after found
    rw [step]
    rcases claim_cases t e.module e.kind owner with ⟨t', ok, held, kept, only⟩ | ⟨c, hc, named, other, error⟩
    · rw [ok]
      refine .inl ⟨g t', rfl, fun u hu e' hue => ?_, fun c hc => ?_⟩
      · rw [claims]
        rcases List.mem_append.1 hu with hu | hu
        · exact (h.held u hu e' hue).mono kept
        · obtain rfl := List.mem_singleton.1 hu
          obtain rfl := Option.some.inj (found.symm.trans hue)
          obtain ⟨c, hc, named, kinds, owners⟩ := held
          exact ⟨c, hc, named, kinds, owners.trans parts⟩
      · rw [claims] at hc
        rcases only c hc with hc | rfl
        · obtain ⟨u, hu, rest⟩ := h.entity c hc
          exact ⟨u, List.mem_append_left _ hu, rest⟩
        · exact ⟨v, List.mem_append_right _ List.mem_cons_self, e, found, rfl, rfl, parts⟩
    · rw [error]
      refine .inr ⟨_, rfl, ⟨_, _, _, rfl⟩, ?_⟩
      obtain ⟨u, hu, e', found', named', kinds, owners⟩ := h.entity c hc
      refine ⟨e', e, (hasEntity_iff sound).2 ⟨u, visited u hu, found'⟩,
        (hasEntity_iff sound).2 ⟨v, hv, found⟩, fun same => ?_, named'.symm.trans named⟩
      rw [same] at kinds owners
      exact other ⟨kinds, owners.trans parts.symm⟩

/-- Where everything has its claim, no two entities have one module name. -/
theorem not_clashing (sound : d.Sound) (scattered : Scattered d root sources)
    (h : Claimants (visits d root sources) t) (differ : (t.claims.map Claim.module).Nodup) :
    ¬ Clashing d root sources := by
  rintro ⟨e, e', he, he', ne, same⟩
  obtain ⟨v, hv, found⟩ := (hasEntity_iff sound).1 he
  obtain ⟨v', hv', found'⟩ := (hasEntity_iff sound).1 he'
  obtain ⟨kinds, parts⟩ := (h.held v hv e found).unique differ (same ▸ h.held v' hv' e' found')
  exact ne (he.eq_of_parts sound scattered he' kinds parts)

end Claimants

/-- The visits of a project go through, or two of its entities have one module name. -/
theorem visits_cases (sound : d.Sound) (scattered : Scattered d root sources)
    (executables : List ExecutableConfig) :
    (∃ t, (visits d root sources).foldlM addVisit { executables } = .ok t ∧
      After sources (visits d root sources) t ∧ ¬ Clashing d root sources) ∨
    ∃ error, (visits d root sources).foldlM addVisit { executables } = .error error ∧
      (∃ m a b, error = .duplicateModule m a b) ∧ Clashing d root sources := by
  have it := itinerary_visits sound root sources
  refine (foldlM_cases (P := fun vs t => After sources vs t ∧ Claimants vs t) (fun front v back t split h => ?_)
    ⟨.start _ _, .start _⟩).imp ?_ id
  · have upTo : visits d root sources = (front ++ [v]) ++ back := by simp [split]
    have it' := (upTo ▸ it).of_append
    have visited (u : Visit) (hu : u ∈ front ++ [v]) : u ∈ visits d root sources :=
      upTo ▸ List.mem_append_left _ hu
    refine (h.2.step sound scattered (fun u hu => visited u (List.mem_append_left _ hu))
      (visited v (List.mem_append_right _ List.mem_cons_self)) it' h.1).imp ?_ id
    rintro ⟨t', ok, h'⟩
    exact ⟨t', ok, h.1.step it' ok, h'⟩
  · rintro ⟨t, ok, after, h⟩
    exact ⟨t, ok, after, h.not_clashing sound scattered after.shaped.differ⟩

/-- Marking libraries goes through if all are directories of namespaces, and ends at one that is
not. -/
theorem addLibraries_cases (t : Tree) (libraries : List Path) :
    (∃ marked, libraries.foldlM addLibrary t = .ok { t with libraries := marked } ∧
      ∀ l ∈ libraries, ∃ ns ∈ t.namespaces, ns.dir.parts = l.parts) ∨
    ∃ l ∈ libraries, libraries.foldlM addLibrary t = .error (.unknownLibrary l) ∧
      ∀ ns ∈ t.namespaces, ns.dir.parts ≠ l.parts := by
  have main : (∃ t', libraries.foldlM addLibrary t = .ok t' ∧
        (∃ marked, t' = { t with libraries := marked }) ∧
          ∀ l ∈ libraries, ∃ ns ∈ t.namespaces, ns.dir.parts = l.parts) ∨
      ∃ error, libraries.foldlM addLibrary t = .error error ∧
        ∃ l ∈ libraries, error = .unknownLibrary l ∧ ∀ ns ∈ t.namespaces, ns.dir.parts ≠ l.parts := by
    refine foldlM_cases (P := fun (front : List Path) t' =>
      (∃ marked, t' = { t with libraries := marked }) ∧ ∀ l ∈ front, ∃ ns ∈ t.namespaces, ns.dir.parts = l.parts) ?_ ⟨⟨t.libraries, rfl⟩, by simp⟩
    rintro front l back t' split ⟨⟨marked, rfl⟩, all⟩
    have same : ({ t with libraries := marked } : Tree).scopeAt? l =
        t.scopes.find? (·.ns.dir.same l) := rfl
    cases found : t.scopes.find? (·.ns.dir.same l) with
    | some s =>
      refine .inl ⟨{ t with libraries := l :: marked }, by simp [addLibrary, same, found],
        ⟨_, rfl⟩, fun l' hl' => ?_⟩
      rcases List.mem_append.1 hl' with hl' | hl'
      · exact all l' hl'
      · obtain rfl := List.mem_singleton.1 hl'
        have here := List.find?_some found
        rw [same_iff] at here
        exact ⟨s.ns, List.mem_map_of_mem (List.mem_of_find?_eq_some found), here⟩
    | none =>
      refine .inr ⟨.unknownLibrary l, by simp [addLibrary, same, found], l, split ▸ by simp, rfl,
        fun ns hns parts => ?_⟩
      obtain ⟨s, hs, rfl⟩ := List.mem_map.1 hns
      exact List.find?_eq_none.1 found s hs (same_iff.2 parts)
  rcases main with ⟨t', ok, ⟨marked, rfl⟩, all⟩ | ⟨error, e, l, hl, rfl, none⟩
  · exact .inl ⟨marked, ok, all⟩
  · exact .inr ⟨l, hl, e, none⟩

/-! ### What comes of a scan -/

/-- The record of a source file in a directory below a source directory. -/
def recordOf (source : Path) (components : List String) (stem : String) (kind : SourceKind) :
    NamespacedFile :=
  fileFor (namespaceIn source components) (source.below components)
    (source.below (components ++ [stem ++ "." ++ kind.extension])) stem kind

theorem recordOf_eq {last : String} (e : v.names = components ++ [last])
    (isName : ∀ n ∈ v.names, IsName n) (ne : components ≠ []) (last_eq : last = stem ++ "." ++ kind.extension) :
    v.fileIn (namespaceIn v.source components) kind stem = recordOf v.source components stem kind := by
  rw [Visit.fileIn, recordOf, v.above_eq e isName ne, Visit.path, e, last_eq]

section Outcome

variable {config : Config} (sound : d.Sound) (scattered : Scattered d root sources)
  (after : After sources (visits d root sources) t)
include sound scattered after

/-- The namespaces are the directories that a scan enters. -/
theorem namespaces_iff {ns : Namespace} : ns ∈ t.namespaces ↔
    ∃ s cs, HasEntity d root sources (.directory s cs) ∧ ns = namespaceIn s cs := by
  constructor
  · intro hns
    obtain ⟨u, hu, dir, rfl, -⟩ := after.exists_visit hns
    exact ⟨u.source, u.names, (hasEntity_iff sound).2 ⟨u, hu, Visit.entity?_eq_directory_iff.2 ⟨dir, rfl, rfl⟩⟩, rfl⟩
  · rintro ⟨s, cs, has, rfl⟩
    obtain ⟨v, hv, found⟩ := (hasEntity_iff sound).1 has
    obtain ⟨dir, rfl, rfl⟩ := Visit.entity?_eq_directory_iff.1 found
    obtain ⟨scope, hs, parts⟩ := after.scope_of_dir v hv dir
    obtain ⟨u, hu, dir', ns_eq, -⟩ := after.exists_visit (List.mem_map_of_mem hs)
    have has' : HasEntity d root sources (.directory u.source u.names) :=
      (hasEntity_iff sound).2 ⟨u, hu, Visit.entity?_eq_directory_iff.2 ⟨dir', rfl, rfl⟩⟩
    have same := has'.eq_of_parts sound scattered has rfl (by rw [ns_eq] at parts; exact parts)
    obtain ⟨source, names⟩ := Entity.directory.inj same
    have eq : scope.ns = namespaceIn v.source v.names := by
      rw [ns_eq, ← source, ← names]
      rfl
    exact eq ▸ List.mem_map_of_mem hs

/-- The files are those of the entities in these directories. -/
theorem files_iff {f : NamespacedFile} : f ∈ t.files ↔ ∃ s ∈ sources, ∃ cs stem kind,
    cs ≠ [] ∧ HasSource d root s cs stem kind ∧ f = recordOf s cs stem kind := by
  have it := itinerary_visits sound root sources
  have recorded {f : NamespacedFile} (hf : f ∈ t.files) : ∃ s ∈ sources, ∃ cs stem kind,
      cs ≠ [] ∧ HasSource d root s cs stem kind ∧ f = recordOf s cs stem kind := by
    obtain ⟨v, hv, u, hu, kind, stem, dir, here, source?, rfl, -⟩ := after.file f hf
    obtain ⟨has, names⟩ := hasSource_of_visit sound hv source?
    obtain ⟨same, same'⟩ := names_of_above sound scattered hu dir hv here
    have ne : v.names.dropLast ≠ [] := same' ▸ it.ne_nil u hu
    refine ⟨v.source, (mem_visits.1 hv).1, v.names.dropLast, stem, kind, ne, has, ?_⟩
    rw [← recordOf_eq names (it.isName v hv) ne rfl, ← same, ← same']
    rfl
  refine ⟨recorded, ?_⟩
  rintro ⟨s, hs, cs, stem, kind, ne, has, rfl⟩
  obtain ⟨v, hv, rfl, names, source?⟩ := visited_of_hasSource sound hs has
  obtain ⟨before, behind, split⟩ := List.append_of_mem hv
  cases after.registered split source? with
  | plain alone held =>
    -- the directory was visited before
    obtain ⟨first, between, rfl, -⟩ := it.entered split names ne
    refine absurd ?_ (alone ⟨v.source, cs, .dir⟩ (by simp) rfl)
    rw [v.above_eq names (it.isName v hv) ne]
    rfl
  | leaf hu dir here held recorded' =>
    obtain ⟨f, hf, real⟩ := recorded'
    obtain ⟨s', hs', cs', stem', kind', ne', has', rfl⟩ := recorded hf
    obtain ⟨v', hv', rfl, names', source?'⟩ := visited_of_hasSource sound hs' has'
    have real : v'.path.parts = v.path.parts := by
      rw [← real, Visit.path, names']
      rfl
    rw [v'.parts_path_above names' (it.isName v' hv'), v.parts_path_above names (it.isName v hv)] at real
    obtain ⟨above, last⟩ := List.append_inj' real rfl
    rw [v'.parts_above names' (it.isName v' hv'), v.parts_above names (it.isName v hv)] at above
    obtain ⟨sources_eq, rfl⟩ := scattered.eq sound hs' hs (has'.enters sound) (has.enters sound) above
    have component {s : Path} {cs : List String} {stem : String} {kind : SourceKind}
        (has : HasSource d root s cs stem kind) : IsStem stem := by
      obtain ⟨-, -, -, -, valid, -⟩ := has
      exact isStem_of_isComponent valid
    obtain ⟨rfl, extensions⟩ :=
      (component has').inj (component has) (Part.name.inj (List.singleton_inj.1 last))
    obtain rfl := SourceKind.extension_inj extensions
    exact sources_eq ▸ hf

end Outcome

/-- Whether a directory that a scan enters is at a path. -/
def Entered (d : Disk) (root : Path) (sources : List Path) (path : Path) : Prop :=
  ∃ s cs, HasEntity d root sources (.directory s cs) ∧ (s.below cs).same path = true

theorem entered_iff (sound : d.Sound) (scattered : Scattered d root sources)
    (after : After sources (visits d root sources) t) {path : Path} :
    Entered d root sources path ↔ ∃ ns ∈ t.namespaces, ns.dir.parts = path.parts := by
  constructor
  · rintro ⟨s, cs, has, same⟩
    exact ⟨_, (namespaces_iff sound scattered after).2 ⟨s, cs, has, rfl⟩, same_iff.1 same⟩
  · rintro ⟨ns, hns, parts⟩
    obtain ⟨s, cs, has, rfl⟩ := (namespaces_iff sound scattered after).1 hns
    exact ⟨s, cs, has, same_iff.2 parts⟩

theorem scan_cases {config : Config} (sound : d.Sound) (scattered : Scattered d root config.sourceDirs) :
    (∃ module first second, scan d root config = .error (.duplicateModule module first second)) ∧
      Clashing d root config.sourceDirs ∨
    (∃ library ∈ config.libraries, scan d root config = .error (.unknownLibrary library) ∧
      ¬ Entered d root config.sourceDirs library) ∧ ¬ Clashing d root config.sourceDirs ∨
    (∃ t, scan d root config = .ok t) ∧ ¬ Clashing d root config.sourceDirs ∧
      ∀ library ∈ config.libraries, Entered d root config.sourceDirs library := by
  have scanned : scan d root config =
      ((visits d root config.sourceDirs).foldlM addVisit { executables := config.executables } >>=
        config.libraries.foldlM addLibrary) := by
    rw [scan, foldlM_addSourceDir]
  rcases visits_cases sound scattered config.executables with
    ⟨t, run, after, apart⟩ | ⟨error, run, ⟨module, first, second, rfl⟩, clash⟩
  · rcases addLibraries_cases t config.libraries with ⟨marked, ok, known⟩ | ⟨library, hl, error, unknown⟩
    · refine .inr (.inr ⟨⟨_, by rw [scanned, run]; exact ok⟩, apart, fun library hl => ?_⟩)
      exact (entered_iff sound scattered after).2 (known library hl)
    · refine .inr (.inl ⟨⟨library, hl, by rw [scanned, run]; exact error, fun entered => ?_⟩, apart⟩)
      obtain ⟨ns, hns, parts⟩ := (entered_iff sound scattered after).1 entered
      exact unknown ns hns parts
  · exact .inl ⟨⟨module, first, second, by rw [scanned, run]; rfl⟩, clash⟩

/-- A scan succeeds exactly if no two entities have one module name and each library is a directory
that it enters. -/
theorem scan_ok_iff {config : Config} (sound : d.Sound)
    (scattered : Scattered d root config.sourceDirs) :
    (∃ t, scan d root config = .ok t) ↔ ¬ Clashing d root config.sourceDirs ∧
      ∀ library ∈ config.libraries, Entered d root config.sourceDirs library := by
  rcases scan_cases sound scattered with ⟨⟨module, first, second, error⟩, clash⟩ |
    ⟨⟨library, hl, error, unknown⟩, -⟩ | ⟨ok, apart, known⟩
  · simp [error, clash]
  · exact iff_of_false (by simp [error]) fun ⟨_, all⟩ => unknown (all library hl)
  · exact iff_of_true ok ⟨apart, known⟩

end Tree
end FlatModules
