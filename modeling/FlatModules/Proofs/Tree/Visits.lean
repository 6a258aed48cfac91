import FlatModules.Proofs.Disk.Routes
import FlatModules.Proofs.Path.Straight
import FlatModules.Proofs.Tree.Tidy

/-!
# Trees — the way of a scan

A scan goes through the source directories one after the other, and through what is below each in
the order of names.  The steps of that way are `visits`, and a scan is the run over them
(`exists_run_of_scan`).  A list of visits is an `Itinerary` if each entry of a directory comes after
the directory itself, with nothing but the rest of that directory's own source between; this is so
of the beginnings of `visits` (`itinerary_visits`), and what is in a directory is visited after each
visit of the directory (`mem_of_visits_eq`).
-/

namespace FlatModules

open Naming Path

/-- A step of a scan: an entry, by its names below a source directory. -/
structure Visit where
  source : Path
  names : List String
  entry : Entry

namespace Visit

/-- The path of the entry. -/
def path (v : Visit) : Path := v.source.below v.names

/-- The path of the directory that the entry is in. -/
def above (v : Visit) : Path := v.path.parent?.getD Path.empty

/-- The namespace that the entry stands for, if it is a directory. -/
def ns (v : Visit) : Namespace := Tree.namespaceIn v.source v.names

/-- The kind and the stem of a source file that a scan registers. -/
def source? (v : Visit) : Option (SourceKind × String) :=
  match v.entry, SourceKind.ofPath? v.path, v.path.fileStem? with
  | .dir, _, _ => none
  | _, some kind, some stem => if isComponent stem then some (kind, stem) else none
  | _, _, _ => none

theorem source?_eq_some_iff {v : Visit} {kind : SourceKind} {stem : String} :
    v.source? = some (kind, stem) ↔ v.entry ≠ .dir ∧ SourceKind.ofPath? v.path = some kind ∧
      v.path.fileStem? = some stem ∧ isComponent stem = true := by
  unfold source?
  cases v.entry <;> cases SourceKind.ofPath? v.path <;> cases v.path.fileStem? <;>
    simp <;> grind

end Visit

namespace Tree

/-- What is visited below a source directory. -/
def visitsIn (d : Disk) (root source : Path) : List Visit :=
  match d.isDir (root / source), d.locate .target (root / source) with
  | true, .ok place =>
    ((d.below place).filter fun x => isVisible x.1 x.2).map fun x => ⟨source, x.1, x.2⟩
  | _, _ => []

/-- What is visited below source directories. -/
def visits (d : Disk) (root : Path) (sources : List Path) : List Visit :=
  sources.flatMap (visitsIn d root)

/-- Adds what a visit comes upon. -/
def addVisit (t : Tree) (v : Visit) : Except ScanError Tree :=
  addEntry v.source t (v.names, v.entry)

variable {d : Disk} {root source : Path} {sources : List Path} {t t' : Tree}

theorem addSourceDir_eq : t.addSourceDir d root source = (visitsIn d root source).foldlM addVisit t := by
  dsimp only [addSourceDir, visitsIn]
  generalize d.isDir (root / source) = dir
  generalize d.locate .target (root / source) = located
  cases dir <;> cases located <;> simp [List.foldlM_map, addVisit] <;> rfl

theorem foldlM_addSourceDir :
    sources.foldlM (addSourceDir d root) t = (visits d root sources).foldlM addVisit t := by
  induction sources generalizing t with
  | nil => rfl
  | cons source sources ih =>
    rw [List.foldlM_cons, visits, List.flatMap_cons, List.foldlM_append, addSourceDir_eq]
    congr 1
    funext t₁
    exact ih

/-- Adding libraries changes nothing of what was found. -/
theorem addLibrary_ok {library : Path} (ok : t.addLibrary library = .ok t') :
    ∃ libraries, t' = { t with libraries } := by
  unfold addLibrary at ok
  split at ok
  · obtain rfl := Except.ok.inj ok
    exact ⟨_, rfl⟩
  · simp at ok

/-- A scan that succeeds is a run over the visits, up to the libraries. -/
theorem exists_run_of_scan {config : Config} (ok : Tree.scan d root config = .ok t) :
    ∃ t₀ libraries, t = { t₀ with libraries } ∧
      (visits d root config.sourceDirs).foldlM addVisit { executables := config.executables } =
        .ok t₀ := by
  unfold Tree.scan at ok
  cases run : config.sourceDirs.foldlM (addSourceDir d root)
      { executables := config.executables } with
  | error e => simp [run, bind, Except.bind] at ok
  | ok t₀ =>
    simp only [run, bind, Except.bind] at ok
    rw [foldlM_addSourceDir] at run
    obtain ⟨libraries, e⟩ : ∃ libraries, t = { t₀ with libraries } := by
      refine foldlM_ok_induction (P := fun t => ∃ libraries, t = { t₀ with libraries })
        (fun t₁ _ t₂ _ same ok => ?_) ⟨t₀.libraries, rfl⟩ ok
      obtain ⟨_, rfl⟩ := same
      obtain ⟨libraries, rfl⟩ := addLibrary_ok ok
      exact ⟨libraries, rfl⟩
    exact ⟨t₀, libraries, e, run⟩

/-- No visit changes the executables. -/
theorem executables_of_addVisit {v : Visit} (ok : t.addVisit v = .ok t') :
    t'.executables = t.executables := by
  have claimed {t t' : Tree} {module : String} {kind : MemberKind} {owner : Path}
      (ok : t.claim module kind owner = .ok t') : t'.executables = t.executables := by
    obtain ⟨claims, rfl, -⟩ := claim_ok ok
    rfl
  rcases addEntry_ok ok with ⟨-, ok⟩ | ⟨-, ⟨kind, -, ok⟩ | ⟨-, rfl⟩⟩
  · simp only [addNamespace] at ok
    generalize claim : t.claim _ _ _ = held at ok
    cases held with
    | error e => simp [bind, Except.bind] at ok
    | ok t₁ =>
      obtain rfl := Except.ok.inj ok
      rw [← claimed claim]
      split <;> rfl
  · unfold addSource at ok
    split at ok
    case h_1 => exact Except.ok.inj ok ▸ rfl
    case h_2 stem hs =>
      split at ok
      case isTrue => exact Except.ok.inj ok ▸ rfl
      case isFalse =>
        dsimp only at ok
        split at ok
        case h_1 => exact claimed ok
        case h_2 s found =>
          generalize claim : t.claim _ _ _ = held at ok
          cases held with
          | error e => simp [bind, Except.bind] at ok
          | ok t₁ =>
            have kept := claimed claim
            obtain rfl := Except.ok.inj ok
            exact kept
  · rfl

/-- A tree has the executables that its project declares. -/
theorem executables_of_scan {config : Config} (ok : Tree.scan d root config = .ok t) :
    t.executables = config.executables := by
  obtain ⟨t₀, libraries, rfl, run⟩ := exists_run_of_scan ok
  exact foldlM_ok_induction (P := fun t => t.executables = config.executables)
    (fun _ _ _ _ same ok => (executables_of_addVisit ok).trans same) rfl run

/-! ### The order of visits -/

theorem visitsIn_eq (dir : d.isDir (root / source) = true) {place : Place}
    (located : d.locate .target (root / source) = .ok place) :
    visitsIn d root source = ((d.below place).filter fun x => isVisible x.1 x.2).map fun x =>
      ⟨source, x.1, x.2⟩ := by
  unfold visitsIn
  simp only [dir, located]

theorem visitsIn_eq_nil (h : ∀ place, ¬(d.isDir (root / source) = true ∧
    d.locate .target (root / source) = .ok place)) : visitsIn d root source = [] := by
  unfold visitsIn
  split
  case h_1 place dir located => exact absurd ⟨dir, located⟩ (h place)
  case h_2 => rfl

theorem mem_visitsIn {v : Visit} :
    v ∈ visitsIn d root source ↔ v.source = source ∧ Found d root source v.names v.entry := by
  by_cases listed : ∃ place, d.isDir (root / source) = true ∧
      d.locate .target (root / source) = .ok place
  · obtain ⟨place, dir, located⟩ := listed
    rw [visitsIn_eq dir located, found_iff dir located, List.mem_map]
    constructor
    · rintro ⟨x, mem, rfl⟩
      exact ⟨rfl, mem⟩
    · rintro ⟨rfl, mem⟩
      exact ⟨_, mem, rfl⟩
  · rw [visitsIn_eq_nil (not_exists.1 listed)]
    refine iff_of_false (by simp) ?_
    rintro ⟨-, place, dir, located, -⟩
    exact listed ⟨place, dir, located⟩

theorem mem_visits {v : Visit} :
    v ∈ visits d root sources ↔ v.source ∈ sources ∧ Found d root v.source v.names v.entry := by
  simp only [visits, List.mem_flatMap, mem_visitsIn]
  constructor
  · rintro ⟨s, hs, rfl, found⟩
    exact ⟨hs, found⟩
  · rintro ⟨hs, found⟩
    exact ⟨_, hs, rfl, found⟩

theorem nodup_visitsIn (sound : d.Sound) (root source : Path) :
    ((visitsIn d root source).map Visit.names).Nodup := by
  unfold visitsIn
  split
  case h_1 place _ _ =>
    rw [List.map_map]
    exact (nodup_below sound place).sublist (List.filter_sublist.map _)
  case h_2 => simp

/-- Of the visits below one source, that of a directory comes before those of what is in it. -/
theorem mem_of_visitsIn_eq {front back : List Visit} {v u : Visit}
    (split : visitsIn d root source = front ++ v :: back) (hu : u ∈ visitsIn d root source)
    {last : String} (names : v.names = u.names ++ [last]) : u ∈ front := by
  obtain ⟨-, place, dir, located, -⟩ := mem_visitsIn.1 hu
  rw [visitsIn_eq dir located] at split hu
  obtain ⟨front, rest, entries, rfl, tail⟩ := List.map_eq_append_iff.1 split
  obtain ⟨x, back, rfl, rfl, rfl⟩ := List.map_eq_cons_iff.1 tail
  obtain ⟨y, mem, rfl⟩ := List.mem_map.1 hu
  have entries : (d.below place).filter (fun x => isVisible x.1 x.2) =
      front ++ (y.1 ++ [last], x.2) :: back := by
    rw [entries, ← names]
  exact List.mem_map_of_mem (mem_of_below_eq place entries rfl mem)

/-- They come after it all the same, as no directory is visited twice below one source. -/
theorem mem_back_of_visitsIn_eq (sound : d.Sound) {front back : List Visit} {v u : Visit}
    (split : visitsIn d root source = front ++ u :: back) (hv : v ∈ visitsIn d root source)
    {last : String} (names : v.names = u.names ++ [last]) : v ∉ front ∧ v ∈ back := by
  have early : v ∉ front := by
    intro early
    obtain ⟨first, between, rfl⟩ := List.append_of_mem early
    have split' : visitsIn d root source = first ++ v :: (between ++ u :: back) := by
      rw [split, List.append_assoc, List.cons_append]
    have before : u ∈ first := mem_of_visitsIn_eq split' (by rw [split]; simp) names
    have nodup := nodup_visitsIn sound root source
    rw [split, List.map_append] at nodup
    exact (List.nodup_append.1 nodup).2.2 u.names
      (List.mem_map_of_mem (List.mem_append_left _ before)) u.names (by simp) rfl
  refine ⟨early, ?_⟩
  rw [split] at hv
  rcases List.mem_cons.1 ((List.mem_append.1 hv).resolve_left early) with same | late
  · have := congrArg (fun v : Visit => v.names.length) same
    simp [names] at this
  · exact late

/-- Around what is found, directories are found. -/
theorem Found.above (sound : d.Sound) {names : List String} {last : String} {entry : Entry}
    (h : Found d root source (names ++ [last]) entry) (hne : names ≠ []) :
    Found d root source names .dir := by
  obtain ⟨place, dir, located, mem, visible⟩ := h
  have there := (mem_below.1 mem).2
  have above := sound.housed _ there
  rw [← List.append_assoc, List.dropLast_concat] at above
  refine ⟨place, dir, located, mem_below.2 ⟨hne, ?_⟩, ?_⟩
  · exact (sound.entryAt?_eq_some_iff (by simp [hne])).1 above
  · cases entry <;> simp_all [isVisible]

/-- A list of visits as a scan makes them. -/
structure Itinerary (sources : List Path) (vs : List Visit) : Prop where
  source : ∀ v ∈ vs, v.source ∈ sources
  ne_nil : ∀ v ∈ vs, v.names ≠ []
  isName : ∀ v ∈ vs, ∀ n ∈ v.names, IsName n
  visible : ∀ v ∈ vs, isVisible v.names v.entry = true
  /-- What is in a directory below a source is visited after the directory, with other entries of
  that source between. -/
  entered : ∀ {before v after names last}, vs = before ++ v :: after →
    v.names = names ++ [last] → names ≠ [] →
      ∃ first between, before = first ++ ⟨v.source, names, .dir⟩ :: between ∧
        ∀ w ∈ between, w.source = v.source ∧ w.names ≠ names ∧ w.names ≠ v.names

theorem Itinerary.of_append {vs ws : List Visit} (h : Itinerary sources (vs ++ ws)) :
    Itinerary sources vs where
  source v hv := h.source v (List.mem_append_left _ hv)
  ne_nil v hv := h.ne_nil v (List.mem_append_left _ hv)
  isName v hv := h.isName v (List.mem_append_left _ hv)
  visible v hv := h.visible v (List.mem_append_left _ hv)
  entered split names ne := h.entered (by rw [split, List.append_assoc, List.cons_append]) names ne

/-- Where a visit is among those of all sources. -/
theorem exists_of_flatMap_eq {α β : Type} {f : α → List β} {xs : List α} {before after : List β}
    {y : β} (h : xs.flatMap f = before ++ y :: after) :
    ∃ x ∈ xs, ∃ front back first last, f x = front ++ y :: back ∧ before = first ++ front ∧
      after = back ++ last := by
  induction xs generalizing before with
  | nil => simp at h
  | cons x xs ih =>
    rw [List.flatMap_cons] at h
    rcases List.append_eq_append_iff.1 h with ⟨first, rfl, rest⟩ | ⟨back, here, rest⟩
    · obtain ⟨x', mem, front, back, first', last, e, rfl, rfl⟩ := ih rest
      exact ⟨x', List.mem_cons_of_mem _ mem, front, back, f x ++ first', last, e, by simp, rfl⟩
    · cases back with
      | nil =>
        have rest : xs.flatMap f = [] ++ y :: after := rest.symm
        obtain ⟨x', mem, front, back, first', last, e, e', rfl⟩ := ih rest
        refine ⟨x', List.mem_cons_of_mem _ mem, front, back, before, last, e, ?_, rfl⟩
        rw [(List.append_eq_nil_iff.1 e'.symm).2, List.append_nil]
      | cons y' back =>
        obtain ⟨rfl, rfl⟩ := List.cons.inj rest
        exact ⟨x, List.mem_cons_self, before, back, [], xs.flatMap f, here, rfl, rfl⟩

theorem itinerary_visits (sound : d.Sound) (root : Path) (sources : List Path) :
    Itinerary sources (visits d root sources) where
  source v hv := (mem_visits.1 hv).1
  ne_nil v hv := (mem_visits.1 hv).2.ne_nil
  isName v hv := (mem_visits.1 hv).2.isName sound
  visible v hv := (mem_visits.1 hv).2.visible
  entered := by
    intro before v after names last split e ne
    obtain ⟨source, -, front, back, first, -, here, rfl, -⟩ := exists_of_flatMap_eq split
    have mem : v ∈ visitsIn d root source := by rw [here]; simp
    obtain ⟨rfl, found⟩ := mem_visitsIn.1 mem
    have above : ⟨v.source, names, .dir⟩ ∈ visitsIn d root v.source :=
      mem_visitsIn.2 ⟨rfl, (e ▸ found).above sound ne⟩
    obtain ⟨start, between, rfl⟩ := List.append_of_mem (mem_of_visitsIn_eq here above e)
    refine ⟨first ++ start, between, by simp, fun w hw => ?_⟩
    have nodup := nodup_visitsIn sound root v.source
    rw [here] at nodup
    have within : w ∈ visitsIn d root v.source := by rw [here]; simp [hw]
    simp only [List.append_assoc, List.cons_append, List.map_append, List.map_cons] at nodup
    have rest := (List.nodup_append.1 nodup).2.1
    have after_dir := (List.nodup_cons.1 rest)
    refine ⟨(mem_visitsIn.1 within).1, fun e' => after_dir.1 ?_, fun e' => ?_⟩
    · exact List.mem_append_left _ (e' ▸ List.mem_map_of_mem hw)
    · exact (List.nodup_append.1 after_dir.2).2.2 _ (List.mem_map_of_mem hw) _ List.mem_cons_self e'

/-- What is found in a directory is visited after the directory, each time. -/
theorem mem_of_visits_eq (sound : d.Sound) {before after : List Visit} {u : Visit}
    (split : visits d root sources = before ++ u :: after) {last : String} {entry : Entry}
    (found : Found d root u.source (u.names ++ [last]) entry) :
    ⟨u.source, u.names ++ [last], entry⟩ ∈ after := by
  obtain ⟨source, -, front, back, -, -, here, -, rfl⟩ := exists_of_flatMap_eq split
  have mem : u ∈ visitsIn d root source := by rw [here]; simp
  obtain ⟨rfl, -⟩ := mem_visitsIn.1 mem
  have inside : (⟨u.source, u.names ++ [last], entry⟩ : Visit) ∈ visitsIn d root u.source :=
    mem_visitsIn.2 ⟨rfl, found⟩
  exact List.mem_append_left _ (mem_back_of_visitsIn_eq sound here inside rfl).2

/-! ### Source directories in each other -/

/-- Whether names lead from a source directory down to a directory that a scan can enter. -/
def Enters (d : Disk) (root source : Path) (names : List String) : Prop :=
  ∃ place, d.DirAt (root / source) place ∧ d.entryAt? (place ++ names) = some .dir ∧
    ∀ n ∈ names, isComponent n = true

theorem Found.enters (sound : d.Sound) {names : List String} (h : Found d root source names .dir) :
    Enters d root source names := by
  obtain ⟨place, dir, located, mem, visible⟩ := h
  obtain ⟨ne, mem⟩ := mem_below.1 mem
  exact ⟨place, ⟨dir, located⟩, (sound.entryAt?_eq_some_iff (by simp [ne])).2 mem,
    by simpa [isVisible] using visible⟩

theorem Found.enters_nil {names : List String} {entry : Entry}
    (h : Found d root source names entry) : Enters d root source [] := by
  obtain ⟨place, dir, located, -⟩ := h
  have dirAt : d.DirAt (root / source) place := ⟨dir, located⟩
  exact ⟨place, dirAt, by simpa using dirAt.entryAt?, by simp⟩

/-- No link is on the way from a place down to a directory. -/
theorem noLinks_trail (sound : d.Sound) {place : Place} {names : List String}
    (inner : d.entryAt? (place ++ names) = some .dir) (isName : ∀ n ∈ names, IsName n) :
    d.NoLinks (place.trail names) := by
  refine Disk.Dirs.noLinks fun q hq => ?_
  obtain ⟨start, -, ⟨rest, rfl⟩, rfl⟩ :=
    (Place.mem_trail_of_noUp fun up => (isName _ up).ne_up rfl).1 hq
  by_cases nil : rest = []
  · simpa [nil] using inner
  · rw [← List.append_assoc] at inner
    exact sound.dir_of_prefix nil inner

/-- What is found below a source directory is found below another one that it lies in. -/
theorem Found.of_parts (sound : d.Sound) {names front : List String} {entry : Entry} {outer : Path}
    (h : Found d root source names entry) (enters : Enters d root outer front)
    (parts : source.parts = outer.parts ++ front.map Part.name) :
    Found d root outer (front ++ names) entry := by
  obtain ⟨place, dir, located, mem, visible⟩ := h
  obtain ⟨place', dirAt, inner, valid⟩ := enters
  have isName := fun n hn => isName_of_isComponent (valid n hn)
  have noLinks := noLinks_trail sound inner isName
  have names_ := names_div_of_parts parts root
  obtain rfl := dirAt.place_eq_append sound ⟨dir, located⟩ names_ isName noLinks
  obtain ⟨ne, mem⟩ := mem_below.1 mem
  refine ⟨place', dirAt.1, dirAt.2, mem_below.2 ⟨by simp [ne], by rwa [← List.append_assoc]⟩, ?_⟩
  have front_ : front.all isComponent = true := List.all_eq_true.2 valid
  cases entry <;> simp_all [isVisible, List.dropLast_append_of_ne_nil]

end Tree
end FlatModules
