import FlatModules.Proofs.Build.Confined

/-!
# Build — scanning after builds

A scan reads no more than where the source directories are and what is below them in directories that
are named by components.  Builds change what is in the build directory, and make directories that are
missing on the way there (`Disk.Altered`).  Where none of this is in sight of a source directory
(`Hidden`), a scan comes to the same before and after builds (`scan_of_builds`).
-/

namespace FlatModules

open Naming FlatModules.Path Text

/-! ### What a scan reads -/

namespace Tree

variable {d d' : Disk} {root source : Path} {config : Config}

/-- Lists that are sorted alike and have the same members are the same. -/
theorem filter_below_congr (sound : d.Sound) (sound' : d'.Sound) {place : Place}
    (same : ∀ names entry, names ≠ [] → isVisible names entry = true →
      (d'.entryAt? (place ++ names) = some entry ↔ d.entryAt? (place ++ names) = some entry)) :
    ((d'.below place).filter fun x => isVisible x.1 x.2) =
      (d.below place).filter fun x => isVisible x.1 x.2 := by
  have nodup {d : Disk} (sound : d.Sound) : ((d.below place).filter fun x => isVisible x.1 x.2).Nodup :=
    (List.Nodup.of_map _ (nodup_below sound place)).filter _
  have mem {d : Disk} (sound : d.Sound) (x : List String × Entry) :
      x ∈ (d.below place).filter (fun x => isVisible x.1 x.2) ↔
        x.1 ≠ [] ∧ d.entryAt? (place ++ x.1) = some x.2 ∧ isVisible x.1 x.2 = true := by
    obtain ⟨names, entry⟩ := x
    rw [List.mem_filter, mem_below, and_assoc]
    refine and_congr_right fun ne => and_congr_left fun _ => ?_
    exact (sound.entryAt?_eq_some_iff (by simp [ne])).symm
  have perm : ((d'.below place).filter fun x => isVisible x.1 x.2).Perm
      ((d.below place).filter fun x => isVisible x.1 x.2) := by
    refine (List.perm_ext_iff_of_nodup (nodup sound') (nodup sound)).2 fun x => ?_
    rw [mem sound', mem sound]
    exact and_congr_right fun ne => and_congr_left fun visible => same x.1 x.2 ne visible
  refine perm.eq_of_pairwise (fun a b ha hb le le' => ?_) ((pairwise_below d' place).filter _)
    ((pairwise_below d place).filter _)
  have names : a.1 = b.1 := Std.LawfulEqOrd.eq_of_compare (Std.OrientedCmp.isLE_antisymm le le')
  have there := ((mem sound' a).1 ha).2.1
  rw [names, (((mem sound' b).1 (perm.mem_iff.2 hb))).2.1] at there
  exact Prod.ext names (Option.some.inj there).symm

/-- A scan visits the same where source directories are at the same places and look the same. -/
theorem visitsIn_congr (sound : d.Sound) (sound' : d'.Sound)
    (fixed : ∀ place, d'.DirAt (root / source) place ↔ d.DirAt (root / source) place)
    (same : ∀ place, d.DirAt (root / source) place → ∀ names entry, names ≠ [] →
      isVisible names entry = true →
        (d'.entryAt? (place ++ names) = some entry ↔ d.entryAt? (place ++ names) = some entry)) :
    visitsIn d' root source = visitsIn d root source := by
  by_cases there : ∃ place, d.DirAt (root / source) place
  · obtain ⟨place, dirAt⟩ := there
    obtain ⟨dir', located'⟩ := (fixed place).2 dirAt
    rw [visitsIn_eq dir' located', visitsIn_eq dirAt.1 dirAt.2,
      filter_below_congr sound sound' (same place dirAt)]
  · rw [visitsIn_eq_nil fun place dirAt => there ⟨place, dirAt⟩,
      visitsIn_eq_nil fun place dirAt => there ⟨place, (fixed place).1 dirAt⟩]

/-- What a scan comes to depends on nothing but what it visits. -/
theorem scan_congr (h : ∀ s ∈ config.sourceDirs, visitsIn d' root s = visitsIn d root s) :
    scan d' root config = scan d root config := by
  have visited : visits d' root config.sourceDirs = visits d root config.sourceDirs :=
    List.flatMap_congr h
  simp only [scan, foldlM_addSourceDir, visited]

end Tree

/-! ### What builds may change -/

namespace Disk

variable {names front : List String} {d e : Disk} {base place : Place}

/-- Whether a place is in the directory that names lead to, or is made on the way there. -/
def Altered (names : List String) (d : Disk) (place : Place) : Prop :=
  Inside names d place ∨
    d.entryAt? place = none ∧ ∃ front, front <+: names ∧ OnWay names d front place

/-- What is on the way is a directory, if it is there. -/
theorem OnWay.ne_some (way : OnWay names d front place) {entry : Entry} (ne : entry ≠ .dir) :
    d.entryAt? place ≠ some entry := by
  obtain ⟨d₁, paved, lead⟩ := way
  exact fun there => ne (Option.some.inj ((paved.keeps there).symm.trans lead.2))

/-- The directory itself is left as it is, unless it is made. -/
theorem Kept.base_ne_some (h : Kept names d e) (way : OnWay names d names base) {entry : Entry}
    (ne : entry ≠ .dir) : e.entryAt? base ≠ some entry := by
  intro there
  cases h with
  | before sound paved => exact way.ne_some ne (paved.of_ne_dir ne there)
  | @since d₁ base' sound sound₁ paved lead bare agree =>
    obtain rfl := way.unique ⟨d₁, paved, lead⟩
    exact ne (Option.some.inj (there.symm.trans agree.dir))

end Disk

namespace Tree

variable {names : List String} {d e : Disk} {root source : Path} {config : Config}

/-- Whether what is in the directory that names lead to, or is made on the way there, is out of sight
of a source directory: this is at one place whatever is there, and the names from it down to all that
is there are no components. -/
structure Hidden (names : List String) (d : Disk) (root source : Path) : Prop where
  fixed : ∀ e : Disk, e.Sound → d.Confined names e → ∀ place,
    e.DirAt (root / source) place ↔ d.DirAt (root / source) place
  unseen : ∀ place, d.DirAt (root / source) place → ∀ cs, (∀ c ∈ cs, isComponent c = true) →
    ¬ d.Altered names (place ++ cs)

/-- A source directory to which no links lead is at one place, if that is not made or changed. -/
theorem Hidden.of_noLinks (sound : d.Sound) (noUp : ".." ∉ (root / source).names)
    (noLinks : d.NoLinks (Place.trail [] (root / source).names))
    (unseen : ∀ cs, (∀ c ∈ cs, isComponent c = true) → ¬ d.Altered names ((root / source).names ++ cs)) :
    Hidden names d root source := by
  have follow : Place.follow [] (root / source).names = (root / source).names :=
    Place.follow_of_noUp noUp []
  have unaltered : ¬ d.Altered names (root / source).names := by simpa using unseen [] (by simp)
  have bare {e : Disk} (confined : d.Confined names e) :
      e.NoLinks (Place.trail [] (root / source).names) := by
    intro q hq text link
    obtain ⟨front, -, way, rfl⟩ := (Place.mem_trail_of_noUp noUp).1 hq
    have outside : ¬ d.Inside names q := fun ⟨base, onWay, below⟩ =>
      unaltered (.inl ⟨base, onWay, below.trans way⟩)
    rcases confined _ outside with same | ⟨-, made, -⟩
    · exact noLinks _ hq text (same.symm.trans link)
    · simp [made] at link
  have dirs {e : Disk} (sound : e.Sound) (there : e.entryAt? (root / source).names = some .dir) :
      e.Dirs (Place.trail [] (root / source).names) := by
    intro q hq
    obtain ⟨front, -, ⟨rest, whole⟩, rfl⟩ := (Place.mem_trail_of_noUp noUp).1 hq
    rw [← whole] at there
    by_cases nil : rest = []
    · simpa [nil] using there
    · exact sound.dir_of_prefix nil there
  have dirAt_iff {e : Disk} (sound : e.Sound) (confined : d.Confined names e) {place : Place} :
      e.DirAt (root / source) place ↔ place = (root / source).names ∧ (root / source).Fits ∧
        e.entryAt? (root / source).names = some .dir := by
    constructor
    · rintro ⟨isDir, located⟩
      have here := (Disk.locate_of_isDir sound (bare confined) isDir).symm.trans located
      rw [follow] at here
      obtain rfl := Except.ok.inj here
      exact ⟨rfl, ((Disk.isDir_iff sound (bare confined)).1 isDir).1, Disk.DirAt.entryAt? ⟨isDir, located⟩⟩
    · rintro ⟨rfl, fits, there⟩
      have isDir := (Disk.isDir_iff sound (bare confined)).2 ⟨fits, dirs sound there⟩
      refine ⟨isDir, ?_⟩
      rw [Disk.locate_of_isDir sound (bare confined) isDir, follow]
  refine ⟨fun e sound' confined place => ?_, fun place dirAt cs valid => ?_⟩
  · rw [dirAt_iff sound' confined, dirAt_iff sound fun _ _ => .inl rfl]
    rcases confined _ fun inside => unaltered (.inl inside) with same | ⟨missing, -, way⟩
    · rw [same]
    · exact absurd (.inr ⟨missing, way⟩) unaltered
  · obtain ⟨rfl, -⟩ := (dirAt_iff sound fun _ _ => .inl rfl).1 dirAt
    exact unseen cs valid

/-- Changes that are out of sight of the source directories make no difference to a scan. -/
theorem scan_of_kept (sound : d.Sound) (kept : Disk.Kept names d e)
    (hidden : ∀ s ∈ config.sourceDirs, Hidden names d root s) :
    scan e root config = scan d root config := by
  refine scan_congr fun s hs => visitsIn_congr sound kept.sound
    ((hidden s hs).fixed e kept.sound kept.confined) fun place dirAt ns entry ne visible => ?_
  have unseen := (hidden s hs).unseen place dirAt
  have dir (isDir : entry = .dir) : ¬ d.Altered names (place ++ ns) :=
    unseen ns (by simpa [isVisible, isDir] using visible)
  by_cases inside : Disk.Inside names d (place ++ ns)
  · -- it is the directory itself
    obtain ⟨base, way, below⟩ := inside
    obtain ⟨front, last, rfl⟩ := (List.eq_nil_or_concat' ns).resolve_left ne
    have valid : ∀ c ∈ front, isComponent c = true := by
      cases entry <;> simp_all [isVisible]
    rw [← List.append_assoc] at below
    rcases List.prefix_concat_iff.1 below with rfl | above
    · rw [← List.append_assoc]
      have other : entry ≠ .dir := fun isDir =>
        dir isDir (.inl ⟨_, way, by rw [List.append_assoc]⟩)
      exact iff_of_false (kept.base_ne_some way other) (way.ne_some other)
    · exact absurd (.inl ⟨base, way, above⟩) (unseen front valid)
  · rcases kept.confined _ inside with same | ⟨missing, made, way⟩
    · rw [same]
    · rw [missing, made]
      have other : entry ≠ .dir := fun isDir => dir isDir (.inr ⟨missing, way⟩)
      exact iff_of_false (fun is => other (Option.some.inj is).symm) (by simp)

end Tree

namespace Local

variable {d : Disk} {root : Path} {config : Config} {programs : Analyzer.Programs} {t : Tree}
  {w w' : World LocalState}

/-- Builds of targets without `..` one after the other, by one engine or by several. -/
inductive Builds (p : Project) (w : World LocalState) : World LocalState → Prop
  | nil : Builds p w w
  | build {q : Path} {o : Outcome} {w₁ w₂ : World LocalState} (h : Builds p w w₁) (hq : q.Inner)
      (run : Local.build p q w₁ = some (o, w₂)) : Builds p w w₂
  | reopen {w₁ w₂ : World LocalState} (h : Builds p w w₁) (same : w₂.disk = w₁.disk) :
      Builds p w w₂

/-- After builds a project of sources without `..` is scanned as before, if the build directory has
no links but those that builds made and is out of sight of the source directories. -/
theorem scan_of_builds (sound : d.Sound) (ok : Tree.scan d root config = .ok t)
    (inner : ∀ s ∈ config.sourceDirs, s.Inner) (sound' : w.disk.Sound)
    (links : ∀ place text, Disk.Inside (t.project root config programs).buildDir.names w.disk place →
      w.disk.entryAt? place = some (.link text) → MadeLink place text)
    (hidden : ∀ s ∈ config.sourceDirs,
      Tree.Hidden (t.project root config programs).buildDir.names w.disk root s)
    (builds : Builds (t.project root config programs) w w') :
    Tree.scan w'.disk root config = Tree.scan w.disk root config := by
  have bare : Disk.BareInside (t.project root config programs).buildDir.names w.disk :=
    fun place text inside link => (links place text inside link).isName
  have kept : Disk.Kept (t.project root config programs).buildDir.names w.disk w'.disk := by
    induction builds with
    | nil => exact .of_paved bare sound' (.refl _ _)
    | build _ hq run ih => exact kept_of_build sound ok inner bare ih hq run
    | reopen _ same ih => exact same ▸ ih
  exact Tree.scan_of_kept sound' kept hidden

/-- The settings of a project with sources in `lib` that is built in a directory there. -/
def innerConfig (name : String) : Config := { libConfig with buildDir := ⟨"lib/" ++ name⟩ }

/-- The way to `lib/_out` once it is made on a small disk. -/
theorem paved_smallDisk {front : List String} (way : front <+: ["p", "lib", "_out"]) :
    smallDisk.OnWay ["p", "lib", "_out"] front front := by
  have lib : smallDisk.NamesLead ["p", "lib"] ["p", "lib"] := ⟨by rfl, by decide +kernel⟩
  refine ⟨smallDisk.put ["p", "lib", "_out"] .dir, (Disk.Paved.refl _ _).put (List.prefix_refl _) lib
    (by decide) (by decide +kernel) (by decide +kernel), ?_⟩
  simp only [List.prefix_cons_iff, List.prefix_nil] at way
  rcases way with rfl | ⟨-, rfl, rfl | ⟨-, rfl, rfl | ⟨-, rfl, rfl⟩⟩⟩ <;>
    exact ⟨by rfl, by decide +kernel⟩

/-- Built in `lib/_out`, whose name is no component, a small project has the namespaces that it had
before. -/
theorem scan_of_builds_smallDisk :
    let p := sampleProject smallDisk (innerConfig "_out")
    ∃ o w o' w', Local.build p ⟨"lib/foo/foo__a.ml"⟩ (newWorld smallDisk) = some (o, w) ∧
      Local.build p ⟨"lib/foo.ml"⟩ w = some (o', w') ∧
      Tree.scan w'.disk ⟨"/p"⟩ (innerConfig "_out") = Tree.scan smallDisk ⟨"/p"⟩ (innerConfig "_out") := by
  intro p
  have sound : smallDisk.Sound := by decide +kernel
  have accepted := scan_sampleTree (d := smallDisk) (c := innerConfig "_out") (by decide +kernel)
  have reaches := (sampleTree smallDisk (innerConfig "_out")).metadata_reaches
  obtain ⟨o, w, run, -⟩ := exists_build_eq_some (p := p) reaches ⟨"lib/foo/foo__a.ml"⟩ (newWorld smallDisk)
  obtain ⟨o', w', run', -⟩ := exists_build_eq_some (p := p) reaches ⟨"lib/foo.ml"⟩ w
  refine ⟨o, w, o', w', run, run', @scan_of_builds _ _ _ (fun _ _ _ _ => .error .notFound) _
    (newWorld smallDisk) _ sound accepted (by decide +kernel) sound (fun place text _ link => ?_) ?_
    (.build (.build .nil (by decide +kernel) run) (by decide +kernel) run')⟩
  · have plain : ∀ x ∈ smallDisk.entries, x.2.link? = none := by decide +kernel
    have link : smallDisk.entryAt? place = some (.link text) := link
    simpa [Entry.link?] using plain _ (sound.mem_of_link link)
  · simp only [innerConfig, libConfig, List.mem_singleton, forall_eq]
    have names : (⟨"/p"⟩ / ⟨"lib"⟩ : Path).names = ["p", "lib"] := by decide +kernel
    have buildDir : p.buildDir.names = ["p", "lib", "_out"] := by decide +kernel
    refine .of_noLinks sound (by rw [names]; decide) ?_ ?_
    · rw [names]
      have dirs : ∀ q ∈ Place.trail [] ["p", "lib"], smallDisk.entryAt? q = some .dir := by decide +kernel
      exact Disk.Dirs.noLinks dirs
    · rw [names]
      change ∀ cs, _ → ¬ smallDisk.Altered p.buildDir.names _
      rw [buildDir]
      intro cs valid altered
      have lead {front : List String} (way : front <+: ["p", "lib", "_out"]) {place : Place}
          (onWay : smallDisk.OnWay ["p", "lib", "_out"] front place) : place = front :=
        onWay.unique (paved_smallDisk way)
      -- what is made or changed is the directory itself, or in it
      have out : ["p", "lib", "_out"] <+: ["p", "lib"] ++ cs := by
        rcases altered with ⟨base, onWay, below⟩ | ⟨missing, front, way, onWay⟩
        · exact lead (List.prefix_refl _) onWay ▸ below
        · obtain rfl := lead way onWay
          have within : cs <+: ["_out"] := (List.prefix_append_right_inj ["p", "lib"]).1 way
          rcases List.prefix_concat_iff.1 (show cs <+: [] ++ ["_out"] from within) with rfl | nil
          · exact List.prefix_refl _
          · obtain rfl := List.prefix_nil.1 nil
            have there : smallDisk.entryAt? ["p", "lib"] = some .dir := by decide +kernel
            simp [there] at missing
      obtain ⟨rest, same⟩ : ["_out"] <+: cs := (List.prefix_append_right_inj ["p", "lib"]).1 out
      exact absurd (valid "_out" (same ▸ by simp)) (by decide)

set_option maxRecDepth 100000 in
/-- Built in `lib/out`, a small project has other namespaces than before. -/
theorem scan_changed_smallDisk :
    let p := sampleProject smallDisk (innerConfig "out")
    smallDisk.Sound ∧
    Tree.scan smallDisk ⟨"/p"⟩ (innerConfig "out") = .ok (sampleTree smallDisk (innerConfig "out")) ∧
    ∃ o w, Local.build p ⟨"lib/foo/a.ml"⟩ (newWorld smallDisk) = some (o, w) ∧
      Tree.scan w.disk ⟨"/p"⟩ (innerConfig "out") ≠ Tree.scan smallDisk ⟨"/p"⟩ (innerConfig "out") := by
  intro p
  refine ⟨by decide +kernel, scan_sampleTree (by decide +kernel), ?_⟩
  let count (d : Disk) : Option Nat :=
    (Tree.scan d ⟨"/p"⟩ (innerConfig "out")).toOption.map (·.namespaces.length)
  obtain ⟨o, w, run, differ⟩ : ∃ o w, Local.build p ⟨"lib/foo/a.ml"⟩ (newWorld smallDisk) = some (o, w) ∧
      decide (count w.disk ≠ count smallDisk) = true :=
    exists_of_run (c := fun _ w => decide (count w.disk ≠ count smallDisk)) (by decide +kernel)
  exact ⟨o, w, run, fun same => of_decide_eq_true differ (congrArg (·.toOption.map (·.namespaces.length)) same)⟩

end Local
end FlatModules
