import FlatModules.Proofs.Build.Clean
import FlatModules.Proofs.Build.Rescan

/-!
# Build — building again

A project goes through versions: each is edited outside the build directory and opened by a new
engine, and artifacts of it are built (`History`).  Whatever versions it was built from, the build
directory has only entries that fit there (`Site.Fitting`).  So an artifact of the last version comes
to what a new engine makes of it in an empty build directory (`incremental_build`).
-/

namespace FlatModules

open Naming FlatModules.Path Text

namespace Disk

variable {d e : Disk} {base place : Place} {p : Path}

/-- Without what is at a place and below it, a disk is in order still. -/
theorem Sound.removeTree (h : d.Sound) (ne : base ≠ []) : (d.removeTree base).Sound where
  nodup := h.nodup.sublist (List.filter_sublist.map _)
  named x hx := h.named x (List.mem_filter.1 hx).1
  housed x hx := by
    obtain ⟨mem, off⟩ := List.mem_filter.1 hx
    rw [entryAt?_removeTree ne, if_neg]
    · exact h.housed x mem
    · intro below
      have inside := List.isPrefixOf_iff_prefix.2 (below.trans (List.dropLast_prefix _))
      simp [inside] at off

/-- Where there are no links, a path is one of a directory if its names pass directories. -/
theorem dirAt_iff (sound : d.Sound) (noLinks : d.NoLinks (Place.trail [] p.names)) :
    d.DirAt p place ↔
      place = Place.follow [] p.names ∧ p.Fits ∧ d.Dirs (Place.trail [] p.names) := by
  constructor
  · rintro ⟨dir, located⟩
    have here := (locate_of_isDir sound noLinks dir).symm.trans located
    exact ⟨(Except.ok.inj here).symm, (isDir_iff sound noLinks).1 dir⟩
  · rintro ⟨rfl, there⟩
    have dir := (isDir_iff sound noLinks).2 there
    exact ⟨dir, locate_of_isDir sound noLinks dir⟩

end Disk

/-! ### Scanning beside a directory -/

namespace Tree

variable {d e : Disk} {root : Path} {config : Config} {base : Place} {t : Tree}

/-- Whether a place is neither on the way to source directories nor below one. -/
def Clear (base : Place) (root : Path) (sources : List Path) : Prop :=
  ∀ s ∈ sources, (∀ q ∈ Place.trail [] (root / s).names, ¬ base <+: q) ∧
    ¬ Place.follow [] (root / s).names <+: base

/-- What is in a directory makes no difference to a scan that does not come to it. -/
theorem scan_beside (clear : Clear base root config.sourceDirs) (sound : d.Sound) (sound' : e.Sound)
    (plain : ∀ q text, d.entryAt? q = some (.link text) → base <+: q)
    (same : ∀ q, ¬ base <+: q → e.entryAt? q = d.entryAt? q) :
    scan e root config = scan d root config := by
  refine scan_congr fun s hs => ?_
  obtain ⟨trail, apart⟩ := clear s hs
  have noLinks : d.NoLinks (Place.trail [] (root / s).names) := fun q mem text link =>
    trail q mem (plain q text link)
  have noLinks' : e.NoLinks (Place.trail [] (root / s).names) := fun q mem text link =>
    noLinks q mem text ((same q (trail q mem)).symm.trans link)
  refine visitsIn_congr sound sound' (fun place => ?_) fun place dirAt names entry ne visible => ?_
  · rw [Disk.dirAt_iff sound noLinks, Disk.dirAt_iff sound' noLinks']
    refine and_congr_right fun _ => and_congr_right fun _ => forall₂_congr fun q mem => ?_
    rw [same q (trail q mem)]
  · obtain ⟨rfl, -⟩ := (Disk.dirAt_iff sound noLinks).1 dirAt
    rw [same]
    intro below
    rcases List.prefix_or_prefix_of_prefix below (List.prefix_append _ names) with inside | around
    · by_cases nothing : (root / s).names = []
      · rw [nothing] at apart
        exact apart List.nil_prefix
      · exact trail _ (Place.follow_mem_trail nothing) inside
    · exact apart around

/-- A tree of nothing has no artifacts. -/
theorem After.not_has {sources : List Path} (h : After sources [] t) (a : Artifact) : ¬ t.Has a := by
  have noFile (f : NamespacedFile) (hf : f ∈ t.files) : False := by
    obtain ⟨v, hv, -⟩ := h.file f hf
    simp at hv
  have noNamespace (ns : Namespace) (hn : ns ∈ t.namespaces) : False := by
    obtain ⟨s, hs, -⟩ := List.mem_map.1 hn
    obtain ⟨before, u, after, latest, -⟩ := h.scope s hs
    simpa using latest.eq
  induction a with
  | original f | virtual f => exact noFile f
  | stamp ns | root ns | aliases ns => exact noNamespace ns
  | depends b ih => exact ih

end Tree

/-! ### Versions of a project -/

namespace Local

/-- Where a project is built, if no link is on the way. -/
def buildPlace (root : Path) (config : Config) : Place := Place.follow [] (root / config.buildDir).names

/-- Whether no source directory contains the build directory or lies inside it. -/
def Separate (root : Path) (config : Config) : Prop :=
  ∀ s ∈ config.sourceDirs, ¬ Place.follow [] (root / s).names <+: buildPlace root config ∧
    ¬ buildPlace root config <+: Place.follow [] (root / s).names

/-- Whether programs that are run in a directory answer by their arguments and what the file named last
holds. -/
def AnswersIn (dir : Path) (programs : Analyzer.Programs) (answer : Analyzer.Answer) : Prop :=
  ∀ (d : Disk) (q : Path) (bytes : ByteArray) (program : String) (front : List String),
    d.readBytes (dir / q) = .ok bytes →
      programs d dir program (front ++ [q.text]) = answer program (front ++ [q.text]) bytes

/-- A version of a project: a disk with links in the build directory alone, and the tree that is
scanned of it. -/
structure Version (root : Path) (config : Config) (d : Disk) (t : Tree) : Prop where
  sound : d.Sound
  links : ∀ q text, d.entryAt? q = some (.link text) → buildPlace root config <+: q
  accepted : Tree.scan d root config = .ok t

/-- The versions that a project goes through and the worlds that building them comes to.  It starts
without a build directory; then it is edited outside the build directory and opened by a new engine,
and artifacts of the version there is are built. -/
inductive History (root : Path) (config : Config) (programs : Analyzer.Programs) :
    Disk → Tree → World LocalState → Prop
  | start {t : Tree} {w : World LocalState} (version : Version root config w.disk t)
      (nothing : w.disk.entryAt? (buildPlace root config) = none) (new : w.own = {}) :
      History root config programs w.disk t w
  | edit {d : Disk} {t t' : Tree} {w v : World LocalState} (h : History root config programs d t w)
      (version : Version root config v.disk t')
      (inside : ∀ q, buildPlace root config <+: q → v.disk.entryAt? q = w.disk.entryAt? q)
      (new : v.own = {}) : History root config programs v.disk t' v
  | build {d : Disk} {t : Tree} {w w' : World LocalState} {a : Artifact} {o : Outcome}
      (h : History root config programs d t w) (ha : t.Has a)
      (run : Local.build (t.project root config programs) a.path w = some (o, w')) :
      History root config programs d t w'

/-- A disk like another one, but with the build directory empty, or without one. -/
structure Emptied (base : Place) (d c : Disk) : Prop where
  sound : c.Sound
  outside : ∀ q, ¬ base <+: q → c.entryAt? q = d.entryAt? q
  own : c.entryAt? base = none ∨ c.entryAt? base = some .dir
  inside : ∀ q, base <+: q → q ≠ base → c.entryAt? q = none

end Local

/-! ### From one version to the next -/

namespace Site

variable {s s' : Site} {used : List Path} {names : List String} {entry : Entry} {d d' : Disk}
  {w : World LocalState}

/-- What may be in the build directory hangs on the settings alone. -/
theorem Fitting.of_settings (root : s'.root = s.root) (config : s'.config = s.config)
    (h : s.Fitting used names entry) : s'.Fitting used names entry := by
  cases s
  cases s'
  obtain rfl : _ = _ := root
  obtain rfl : _ = _ := config
  refine ⟨h.on_way, h.above, h.dotted, fun text e => ?_⟩
  obtain ⟨source, hs, components, stem, kind, linked⟩ := h.link text e
  exact ⟨source, hs, components, stem, kind, linked.ne_nil, linked.valid, linked.names_eq,
    linked.text_eq, linked.short, linked.free⟩

theorem Clean.of_missing (sound : s.disk.Sound) (plain : s.disk.Plain)
    (nothing : s.disk.entryAt? s.base = none) : s.Clean where
  sound := sound
  plain := plain
  empty q within := by
    obtain ⟨names, ne, rfl⟩ := within
    exact sound.none_of_not_dir (by simp [nothing]) ne

theorem base_ne_nil (nothing : s.disk.entryAt? s.base = none) : s.base ≠ [] := by
  intro root
  simp [root] at nothing

/-- The build directory is on the way to itself. -/
theorem base_mem_way (ne : s.base ≠ []) : s.base ∈ s.way := by
  refine Place.follow_mem_trail fun nil => ne ?_
  rw [base, nil]
  rfl

theorem Tended.own (h : s.Tended used d) (nothing : s.disk.entryAt? s.base = none) :
    d.entryAt? s.base = none ∨ d.entryAt? s.base = some .dir := by
  rcases h.outside s.base fun ⟨names, ne, e⟩ => ne (List.self_eq_append_right.1 e) with same | ⟨-, -, dir⟩
  · exact .inl (same.trans nothing)
  · exact .inr dir

/-- A disk that differs from the project's in the build directory and on the way there. -/
theorem Tended.of_inside (nothing : s.disk.entryAt? s.base = none) (sound : d.Sound)
    (outside : ∀ q, ¬ s.base <+: q → d.entryAt? q = s.disk.entryAt? q ∨
      q ∈ s.way ∧ s.disk.entryAt? q = none ∧ d.entryAt? q = some .dir)
    (own : d.entryAt? s.base = none ∨ d.entryAt? s.base = some .dir)
    (inside : ∀ names entry, names ≠ [] → d.entryAt? (s.base ++ names) = some entry →
      s.Fitting used names entry) : s.Tended used d where
  sound := sound
  outside q off := by
    by_cases below : s.base <+: q
    · -- this is the build directory itself, which may be made
      obtain ⟨names, rfl⟩ := below
      obtain rfl : names = [] := by
        by_contra ne
        exact off ⟨names, ne, rfl⟩
      rw [List.append_nil]
      exact own.imp (·.trans nothing.symm) fun dir => ⟨base_mem_way (base_ne_nil nothing), nothing, dir⟩
    · exact outside q below
  inside := inside

/-- An empty build directory is in order. -/
theorem Tended.emptied (h : s.Tended used d) (nothing : s.disk.entryAt? s.base = none)
    (emptied : Local.Emptied s.base d d') : s.Tended used d' := by
  refine .of_inside nothing emptied.sound (fun q off => ?_) emptied.own fun names entry some_ there => ?_
  · rw [emptied.outside q off]
    exact h.outside q fun ⟨names, _, e⟩ => off (e ▸ List.prefix_append _ _)
  · simp [emptied.inside _ (List.prefix_append _ _) (by simpa using some_)] at there

/-- A kept outcome tells whether an artifact has content, and its bytes can be read. -/
theorem Came.told {a : Artifact} {o : Outcome} (answered : s.answered) (prepared : s.Prepared used)
    (works : s.Works used w) (ha : s.tree.HasIn used a)
    (came : s.Came w.disk w.own.outcomes w.own.attached a o) :
    o.isOk = (s.content? a).isSome ∧
      ∀ bytes, s.content? a = some bytes → w.disk.readBytes (s.buildDir / a.path) = .ok bytes := by
  cases o with
  | error failure =>
    have none_ : s.content? a = none := came fun _ => answered
    exact ⟨by rw [none_]; rfl, by simp [none_]⟩
  | ok path =>
    have stands : s.Stands _ _ _ a path := came
    obtain ⟨bytes, tells, holds⟩ := stands.held
    have content := tells fun _ => answered
    obtain ⟨-, source, hs, components, base, extension, sits⟩ := ha
    have target := target_of_lies (s := s) prepared.apart_used hs (prepared.direct source hs) sits.lies
    refine ⟨by rw [content]; rfl, fun bytes' e => ?_⟩
    obtain rfl := Option.some.inj (content.symm.trans e)
    exact holds.readBytes works.tended prepared.clean target

end Site

namespace Local

variable {root : Path} {config : Config} {programs : Analyzer.Programs} {answer : Analyzer.Answer}
  {t : Tree} {w w₀ : World LocalState} {d c : Disk} {a : Artifact}

/-- Sources that are separate from the build directory are clear of it if the root is. -/
theorem Separate.clear (h : Separate root config) (direct : ∀ s ∈ config.sourceDirs, s.Direct)
    (above : ∀ q ∈ Place.trail [] root.names, ¬ buildPlace root config <+: q) :
    Tree.Clear (buildPlace root config) root config.sourceDirs := by
  intro s hs
  obtain ⟨off, apart⟩ := h s hs
  refine ⟨fun q hq below => ?_, off⟩
  rw [names_div_relative (direct s hs).relative] at hq apart
  rw [Place.trail_append, List.mem_append, Place.mem_trail_of_noUp (direct s hs).noUp] at hq
  rcases hq with hq | ⟨front, -, leads, rfl⟩
  · exact above q hq below
  · rw [Place.follow_append, Place.follow_of_noUp (direct s hs).noUp] at apart
    exact apart (below.trans ((List.prefix_append_right_inj _).2 leads))

theorem emptied_removeTree {base : Place} (sound : d.Sound) (ne : base ≠ []) :
    Emptied base d (d.removeTree base) where
  sound := sound.removeTree ne
  outside q off := by rw [Disk.entryAt?_removeTree ne, if_neg off]
  own := by simp [Disk.entryAt?_removeTree ne]
  inside q below _ := by rw [Disk.entryAt?_removeTree ne, if_pos below]

/-- A version without what was built. -/
def bare (root : Path) (config : Config) (answer : Analyzer.Answer) (d : Disk) (t : Tree) : Site :=
  ⟨root, config, d.removeTree (buildPlace root config), t, answer, True⟩

@[simp] theorem bare_base : (bare root config answer d t).base = buildPlace root config := rfl

section Version

variable (ne : buildPlace root config ≠ [])

include ne

theorem bare_nothing :
    (bare root config answer d t).disk.entryAt? (bare root config answer d t).base = none := by
  change (d.removeTree (buildPlace root config)).entryAt? (buildPlace root config) = none
  simp [Disk.entryAt?_removeTree ne]

theorem bare_outside {q : Place} (off : ¬ buildPlace root config <+: q) :
    (bare root config answer d t).disk.entryAt? q = d.entryAt? q := by
  change (d.removeTree (buildPlace root config)).entryAt? q = d.entryAt? q
  rw [Disk.entryAt?_removeTree ne, if_neg off]

theorem Version.prepared (h : Version root config d t)
    (clear : Tree.Clear (buildPlace root config) root config.sourceDirs)
    (apart : Apart config.sourceDirs) (direct : ∀ s ∈ config.sourceDirs, s.Direct)
    (unmarked : Unmarked config.sourceDirs) :
    (bare root config answer d t).Prepared config.sourceDirs := by
  have emptied := emptied_removeTree h.sound ne
  have accepted : Tree.scan (d.removeTree (buildPlace root config)) root config = .ok t :=
    (Tree.scan_beside clear h.sound emptied.sound h.links emptied.outside).trans h.accepted
  refine Site.prepared_of_unmarked (s := bare root config answer d t)
    (.of_missing emptied.sound (fun q text link => ?_) (bare_nothing ne)) accepted apart direct unmarked
  by_cases below : buildPlace root config <+: q
  · change (d.removeTree (buildPlace root config)).entryAt? q = some (.link text) at link
    simp [Disk.entryAt?_removeTree ne, below] at link
  · exact below (h.links q text ((bare_outside ne below).symm.trans link))

end Version

namespace History

theorem version (h : History root config programs d t w) : Version root config d t := by
  induction h with
  | start version | edit _ version => exact version
  | build _ _ _ ih => exact ih

theorem ne_nil (h : History root config programs d t w) : buildPlace root config ≠ [] := by
  induction h with
  | start _ nothing =>
    intro root
    simp [root] at nothing
  | edit _ _ _ _ ih | build _ _ _ ih => exact ih

/-- A world stays in order from one version to the next, and while artifacts are built.  By induction
on the history: an edit leaves in the build directory what was there, and that fits there still. -/
theorem works (h : History root config programs d t w)
    (clear : Tree.Clear (buildPlace root config) root config.sourceDirs)
    (apart : Apart config.sourceDirs) (direct : ∀ s ∈ config.sourceDirs, s.Direct)
    (unmarked : Unmarked config.sourceDirs)
    (answers : AnswersIn (root / config.buildDir) programs answer) :
    (bare root config answer d t).Works config.sourceDirs w ∧ w.own.inProgress = [] := by
  have ne := h.ne_nil
  induction h with
  | @start t w version nothing new =>
    refine ⟨Site.Tended.works (.of_inside (bare_nothing ne) version.sound
      (fun q off => .inl (bare_outside ne off).symm) (.inl nothing) fun names entry some_ there => ?_) new,
      by rw [new]⟩
    rw [bare_base, version.sound.none_of_not_dir (by simp [nothing]) some_] at there
    simp at there
  | @edit d t t' w v h version inside new ih =>
    obtain ⟨works, -⟩ := ih
    refine ⟨Site.Tended.works (.of_inside (bare_nothing ne) version.sound
      (fun q off => .inl (bare_outside ne off).symm) ?_ fun names entry some_ there => ?_) new, by rw [new]⟩
    · have own := works.tended.own (bare_nothing ne)
      rwa [bare_base, ← inside _ (List.prefix_refl _)] at own
    · have before := works.tended.inside names entry some_
        ((inside _ (List.prefix_append _ _)).symm.trans there)
      exact .of_settings (by rfl) (by rfl) before
  | @build d t w w' a o h ha run ih =>
    obtain ⟨works, idle⟩ := ih
    have prepared : (bare root config answer d t).Prepared config.sourceDirs :=
      h.version.prepared ne clear apart direct unmarked
    obtain ⟨o', w'', run', works', idle', -⟩ :=
      build_correct prepared (fun _ => answers) works idle (prepared.tidy.hasIn ha)
    obtain ⟨rfl, rfl⟩ := Prod.mk.inj (Option.some.inj (run.symm.trans run'))
    exact ⟨works', idle'⟩

end History

/-- Nothing is scanned of a project whose root lies in a directory that is not there. -/
theorem Version.not_has (h : Version root config d t) (direct : ∀ s ∈ config.sourceDirs, s.Direct)
    (nothing : d.entryAt? (buildPlace root config) = none) {q : Place}
    (mem : q ∈ Place.trail [] root.names) (below : buildPlace root config <+: q) (a : Artifact) :
    ¬ t.Has a := by
  have gone {q : Place} (below : buildPlace root config <+: q) : d.entryAt? q = none := by
    obtain ⟨names, rfl⟩ := below
    by_cases nil : names = []
    · simpa [nil] using nothing
    · exact h.sound.none_of_not_dir (by simp [nothing]) nil
  have plain (q : Place) (text : String) (link : d.entryAt? q = some (.link text)) : False := by
    simp [gone (h.links q text link)] at link
  have noVisits : Tree.visits d root config.sourceDirs = [] := by
    refine List.flatMap_eq_nil_iff.2 fun s hs => Tree.visitsIn_eq_nil fun place dirAt => ?_
    have dirs := ((Disk.isDir_iff h.sound fun q _ text => plain q text).1 dirAt.1).2
    rw [names_div_relative (direct s hs).relative, Place.trail_append] at dirs
    have there := dirs q (List.mem_append_left _ mem)
    simp [gone below] at there
  have after := Tree.After.scan h.sound h.accepted
  rw [noVisits] at after
  exact after.not_has a

/-- So all versions of such a project are empty, since it is not edited there. -/
theorem History.not_has (h : History root config programs d t w)
    (direct : ∀ s ∈ config.sourceDirs, s.Direct) {q : Place} (mem : q ∈ Place.trail [] root.names)
    (below : buildPlace root config <+: q) :
    w.disk.entryAt? (buildPlace root config) = none ∧ ∀ a, ¬ t.Has a := by
  induction h with
  | start version nothing => exact ⟨nothing, version.not_has direct nothing mem below⟩
  | edit h version inside _ ih =>
    have nothing := (inside _ (List.prefix_refl _)).trans ih.1
    exact ⟨nothing, version.not_has direct nothing mem below⟩
  | build _ ha _ ih => exact absurd ha (ih.2 _)

section

set_option maxRecDepth 100000

end

end Local
end FlatModules
