import FlatModules.Proofs.Build.Cache
import FlatModules.Proofs.Build.Confined
import FlatModules.Proofs.Build.Onward
import FlatModules.Proofs.Build.Preserving

/-!
# Build — targets that fail

A target that fails leaves in its own place what was there (`failed_build_keeps`).  All that is asked
for meanwhile is done elsewhere (`Elsewhere`), and what the rules do for the target itself changes
nothing there if it fails.  That takes a build directory that is found without what is inside it
(`Disk.Freestanding`): a directory whose names go through a target and up again is made by making the
target one.
-/

namespace FlatModules

open Naming FlatModules.Path Text

namespace Path

variable {q : Path} {last : String}

theorem exists_endsIn_of_not_endsIdle (h : ¬ q.EndsIdle) : ∃ last, q.EndsIn last := by
  obtain ⟨above, last, spelled⟩ := q.exists_spelled
  obtain ⟨front, segments⟩ := spelled.segments_eq
  have proper : ¬ Idle last := fun idle => h ⟨above, last, spelled, idle⟩
  exact ⟨last, front, segments, not_or.1 proper⟩

end Path

namespace Local

variable {p : Project} {q r : Path} {I : Disk → Prop}

/-! ### Whole builds -/

theorem Preserves.once {kind : Outcome → Prop} {m : Step Outcome} (h : Preserves I kind m) :
    Preserves I kind (once q m) := by
  intro w o w' run own start
  cases known : lookupPath? q w.own.outcomes with
  | some o' =>
    rw [once_of_known known] at run
    obtain ⟨-, rfl⟩ := Prod.mk.inj (Option.some.inj run)
    exact start
  | none =>
    cases busy : listsPath q w.own.inProgress with
    | true =>
      rw [once_of_inProgress known busy] at run
      obtain ⟨-, rfl⟩ := Prod.mk.inj (Option.some.inj run)
      exact start
    | false =>
      rw [once_of_new known busy] at run
      obtain ⟨⟨o', w₁⟩, run', same⟩ := Option.map_eq_some_iff.1 run
      obtain ⟨rfl, rfl⟩ := Prod.mk.inj same
      exact (h (entered q w) o' w₁ run' own start : I w₁.disk)

/-- A target that ends in no name is never built, and nothing is done for it. -/
theorem preserves_tryRules_of_endsIdle {kind : Outcome → Prop} {engine : Engine LocalState}
    (sound : ∀ d, I d → d.Sound) (idle : q.EndsIdle) :
    Preserves I kind (tryRules p engine q rules none) := by
  obtain ⟨above, last, spelled, idle⟩ := idle
  intro w o w' run _ start
  rw [tryRules_of_idle spelled idle (sound _ start)] at run
  obtain ⟨-, rfl⟩ := Prod.mk.inj (Option.some.inj run)
  exact start

/-- What all changes for the targets keep that a request leads to, a build keeps. -/
theorem preserves_buildWithin {T : Path → Prop} (closed : ∀ q r, T q → Asks p q r → T r)
    (sound : ∀ d, I d → d.Sound)
    (touch : ∀ q, T q → ¬ q.EndsIdle → ∀ step, Touches p q step → ∀ d, I d → I (step.run.run d).2)
    (n : Nat) (q : Path) (hq : T q) : PreservesAll I (buildWithin p n q) := by
  induction n generalizing q with
  | zero =>
    intro w o w' run
    simp [buildWithin, Work.exhausted] at run
  | succ n ih =>
    rw [buildWithin]
    refine .once ?_
    by_cases idle : q.EndsIdle
    · exact preserves_tryRules_of_endsIdle sound idle
    · have own := touch q hq idle
      exact @Parallel.final_tryRules p q _ _ (buildWithin p n) (Preserves.parallel own) _
        (Preserves.final own) (fun r asks => ih r (closed q r hq asks)) rules none

/-! ### Changes elsewhere -/

variable {d e : Disk} {root : Path} {config : Config} {programs : Analyzer.Programs} {t : Tree}
  {base : Place} {above : List String} {last : String}

/-- What is made a link is seen under a name that a link has. -/
theorem exists_flatLink (sound : d.Sound) (ok : Tree.scan d root config = .ok t) {f : NamespacedFile}
    {text : String} (found : (t.project root config programs).metadata.fileAt? q = some f)
    (named : f.realPath.fileName? = some text) :
    ∃ front n, q.names = front ++ [n] ∧ FlatLink n text := by
  have found : t.fileAt? q = some f := found
  have h := Tree.After.scan sound ok
  have it := Tree.itinerary_visits sound root config.sourceDirs
  obtain ⟨dir, n, m, seen, -, own, link⟩ := h.names_file it (List.mem_of_find?_eq_some found)
  obtain rfl := Option.some.inj (own.symm.trans named)
  have same := List.find?_some found
  rw [same_iff] at same
  exact ⟨dir, n, (names_congr same).symm.trans seen, link⟩

/-- What all changes keep that are made for other targets than the one at a place. -/
structure Spared (b : Path) (base : Place) (above : List String) (last : String) (d e : Disk) : Prop where
  kept : Disk.Kept b.names d e
  untouched : Disk.Untouched FlatLink base above last d e

section Spares

variable {start : Disk} (sound : d.Sound) (ok : Tree.scan d root config = .ok t)
  (bare : Disk.BareInside (t.project root config programs).buildDir.names start)
  (free : Disk.Freestanding (t.project root config programs).buildDir.names start)
  (way : Disk.OnWay (t.project root config programs).buildDir.names start
    (t.project root config programs).buildDir.names base)

include bare free way

/-- A directory that is made above the target is not made in its place. -/
theorem Spared.makesDir (h : Spared (t.project root config programs).buildDir base above last start e)
    (inner : q.Inner) (ends : q.EndsIn last) (whole : q.names = above ++ [last]) {up : Path} {e' : Disk}
    (parent : ((t.project root config programs).buildDir / q).parent? = some up)
    (makes : Disk.MakesDir up e e') :
    Spared (t.project root config programs).buildDir base above last start e' := by
  -- it is made for a path that is below the build directory as well
  obtain ⟨x, -, names, -, text⟩ := ends.exists_parent?
  rw [whole] at names
  obtain ⟨rfl, -⟩ := List.append_singleton_inj.1 names
  have relative : x.isAbsolute = false := by
    obtain ⟨rest, text⟩ := text
    have := inner.relative
    rw [isAbsolute, ← text] at this
    cases whole : x.text.toList with
    | nil => simp [isAbsolute, whole]
    | cons c cs => simpa [isAbsolute, whole] using this
  have noUp : ".." ∉ x.names.dropLast := fun up =>
    inner.noUp (whole ▸ List.mem_append_left _ (List.mem_of_mem_dropLast up))
  have same : up.names = ((t.project root config programs).buildDir / x).names := by
    obtain ⟨up', parent', names', -⟩ := (ends.under (t.project root config programs).buildDir).exists_parent?
    obtain rfl := Option.some.inj (parent'.symm.trans parent)
    rw [names_div_relative inner.relative, whole, ← List.append_assoc] at names'
    rw [names_div_relative relative, (List.append_singleton_inj.1 names').1]
  have edit : Disk.Edit ((t.project root config programs).buildDir / x) none e e' :=
    .dir (makes.congr same)
  refine ⟨h.kept.edit relative noUp bare (by simp) (by simp) edit, ?_⟩
  exact h.untouched.changed (Disk.away_above _ _ _) (by simp) (by simp)
    (edit.changed FlatLink.oneHop free way h.kept h.untouched.linked relative noUp (by simp))

section Seen

include sound ok

/-- What is done for a target elsewhere spares this one. -/
theorem Spared.touch (h : Spared (t.project root config programs).buildDir base above last start e)
    (inward : r.Inward) (proper : ¬ r.EndsIdle) (elsewhere : Elsewhere above last r) {step : DiskM Unit}
    (touches : Touches (t.project root config programs) r step) :
    Spared (t.project root config programs).buildDir base above last start (step.run.run e).2 := by
  obtain ⟨away, onward⟩ := elsewhere.resolve_left proper
  obtain ⟨text?, chain, linked⟩ := touches.chain e
  -- if a link is made, it is one of those that are seen
  have seen (text : String) (made : text ∈ text?) :
      ∃ front n, r.names = front ++ [n] ∧ FlatLink n text := by
    obtain ⟨f, found, named⟩ := linked text made
    exact exists_flatLink sound ok found named
  have named (made : text?.isSome) : r.names ≠ [] := by
    obtain ⟨text, made⟩ := Option.isSome_iff_exists.1 made
    obtain ⟨front, n, names, -⟩ := seen text made
    simp [names]
  refine chain.keeps (I := Spared _ base above last start) (fun e e' edit h => ⟨?_, ?_⟩) h
  · refine h.kept.edit inward.relative inward.noUp_names bare named (fun text made => ?_) edit
    obtain ⟨front, n, names, link⟩ := seen text made
    exact FlatLink.oneHop.isName link
  · refine h.untouched.changed away (fun text made n ends => ?_) (fun made front n names => ?_)
      (edit.changed FlatLink.oneHop free way h.kept h.untouched.linked inward.relative
        inward.noUp_names named)
    · obtain ⟨front, n', names, link⟩ := seen text made
      obtain rfl : n' = n := by simpa [names] using ends
      exact link
    · obtain ⟨text, made⟩ := Option.isSome_iff_exists.1 made
      obtain ⟨front', n', names', link⟩ := seen text made
      obtain ⟨rfl, rfl⟩ := List.append_singleton_inj.1 (names.symm.trans names')
      obtain ⟨n', ends⟩ := exists_endsIn_of_not_endsIdle proper
      obtain ⟨front', names'⟩ := ends.exists_names
      obtain ⟨-, rfl⟩ := List.append_singleton_inj.1 (names.symm.trans names')
      exact (names ▸ onward n ends link.targetName).not_onWay link

/-- What is done for the target itself leaves what is in its place, if it fails. -/
theorem Spared.failsKeeping (inner : q.Inner) (ends : q.EndsIn last) (whole : q.names = above ++ [last])
    {step : DiskM Unit} (touches : Touches (t.project root config programs) q step) :
    Disk.FailsKeeping (Spared (t.project root config programs).buildDir base above last start) step := by
  have dirs (up : Path) (e e' : Disk)
      (parent : ((t.project root config programs).buildDir / q).parent? = some up)
      (makes : Disk.MakesDir up e e') (h : Spared _ base above last start e) :=
    h.makesDir bare free way inner ends whole parent makes
  cases touches with
  | save bytes => exact .save dirs bytes
  | write bytes => exact fun d e d' h run => Disk.write_of_error run ▸ h
  | copy => exact .copy dirs (fun d h => h.kept.sound) _
  | @link f name file named =>
    refine .replaceLink dirs fun e place h slot ne => ⟨?_, ?_⟩
    · obtain ⟨front, n, names, link⟩ := exists_flatLink sound ok file named
      obtain ⟨-, rfl⟩ := List.append_singleton_inj.1 (whole.symm.trans names)
      have whole' : ((t.project root config programs).buildDir / q).names =
          (t.project root config programs).buildDir.names ++ above ++ [last] := by
        rw [names_div_relative inner.relative, whole, List.append_assoc]
      have ne_up : last ≠ ".." := fun up => inner.noUp (by simp [whole, up])
      exact link.checkPath_eq ((Disk.slot_iff h.kept.sound (ends.under _) ne_up whole').1 slot).2.1
    · exact Disk.slot_of_remove FlatLink.oneHop free way h.kept h.untouched.linked inner.relative
        inner.noUp whole ends slot ne

/-- A build that fails spares the target's place. -/
theorem Spared.build (inner : ∀ s ∈ config.sourceDirs, s.Inner) (hq : q.Inner) (ends : q.EndsIn last)
    (whole : q.names = above ++ [last]) :
    Preserves (Spared (t.project root config programs).buildDir base above last start) Failed
      (Local.build (t.project root config programs) q) := by
  unfold Local.build
  generalize depth (t.project root config programs) q = n
  cases n with
  | zero =>
    intro w o w' run
    simp [buildWithin, Work.exhausted] at run
  | succ n =>
    rw [buildWithin]
    refine .once (preserves_tryRules (fun r asks => ?_) (fun r stem hs step touches => ?_) ?_ rules none)
    · -- what is asked for is elsewhere, and so is all that is asked for on its behalf
      have own : TargetName last := by
        obtain ⟨front, n, -, names, target, -⟩ := asks.lies sound ok
        obtain ⟨-, rfl⟩ := List.append_singleton_inj.1 (whole.symm.trans names)
        exact target
      have closed (q r : Path) (h : Elsewhere above last q ∧ q.Inward)
          (asks : Asks (t.project root config programs) q r) : Elsewhere above last r ∧ r.Inward :=
        ⟨.asks sound ok own (.inr h.1) asks, asks.inward sound ok inner h.2⟩
      refine preserves_buildWithin closed (fun d h => h.kept.sound) ?_ n r
        ⟨.asks sound ok own (.inl whole) asks, asks.inward sound ok inner hq.inward⟩
      exact fun r aside proper step touches e h =>
        h.touch sound ok bare free way aside.2 proper aside.1 touches
    · exact Spared.failsKeeping sound ok bare free way hq ends whole touches
    · exact Spared.failsKeeping sound ok bare free way hq ends whole .copy

end Seen

end Spares

/-! ### The entry in a target's place -/

/-- A link that some build made in a project with a configuration, with the text that it gave it. -/
def BuiltLink (root : Path) (config : Config) (place : Place) (text : String) : Prop :=
  ∃ (d : Disk) (t : Tree) (programs : Analyzer.Programs) (q : Path) (w : World LocalState) (o : Outcome)
    (w' : World LocalState), d.Sound ∧ Tree.scan d root config = .ok t ∧ w.disk.Sound ∧
      Local.build (t.project root config programs) q w = some (o, w') ∧
      w.disk.entryAt? place ≠ some (.link text) ∧ w'.disk.entryAt? place = some (.link text)

/-- Such a link has the name that the file is seen under. -/
theorem BuiltLink.exists_flatLink {place : Place} {text : String} (h : BuiltLink root config place text) :
    ∃ front n, place = front ++ [n] ∧ FlatLink n text := by
  obtain ⟨d, t, programs, q, w, o, w', sound, ok, sound', run, new, link⟩ := h
  by_contra other
  have course : Course (t.project root config programs) (fun _ => True) w w' :=
    buildWithin_follows (closed_true _) _ q trivial _ _ _ run
  have kept := course.keeps (I := fun d => d.Sound ∧ d.entryAt? place ≠ some (.link text))
    (fun r text? e e' _ linked edit ⟨sound', new⟩ => ⟨edit.sound sound', fun link => ?_⟩) ⟨sound', new⟩
  · exact kept.2 link
  · rcases edit.link_cases sound' link with before | ⟨made, front, above, last, ends, there⟩
    · exact new before
    · obtain ⟨f, found, named⟩ := linked text made
      obtain ⟨front', n, names, link⟩ := Local.exists_flatLink sound ok found named
      refine other ⟨above, n, ?_, link⟩
      cases relative : r.isAbsolute with
      | false =>
        rw [names_div_relative relative, names, ← List.append_assoc] at ends
        obtain ⟨-, rfl⟩ := List.append_singleton_inj.1 ends
        exact there
      | true =>
        rw [show (t.project root config programs).buildDir / r = r from if_pos relative, names] at ends
        obtain ⟨-, rfl⟩ := List.append_singleton_inj.1 ends
        exact there

/-- The entry in a target's place is the same after a build of the target that failed, if the build
directory is found without what is inside it. -/
theorem failed_build_keeps {w : World LocalState} (sound : d.Sound)
    (ok : Tree.scan d root config = .ok t) (inner : ∀ s ∈ config.sourceDirs, s.Inner)
    (sound' : w.disk.Sound)
    (links : ∀ place text, Disk.Inside (t.project root config programs).buildDir.names w.disk place →
      w.disk.entryAt? place = some (.link text) → BuiltLink root config place text)
    (free : Disk.Freestanding (t.project root config programs).buildDir.names w.disk) (hq : q.Inner) :
    let p := t.project root config programs
    ∃ o w', Local.build p q w = some (o, w') ∧ (Failed o → ∀ entry,
      w'.disk.lstat (p.buildDir / q) = .ok entry ↔ w.disk.lstat (p.buildDir / q) = .ok entry) := by
  intro p
  obtain ⟨o, w', run, -⟩ := exists_build_eq_some (p := p) t.metadata_reaches q w
  refine ⟨o, w', run, fun failed entry => ?_⟩
  have bare : Disk.BareInside p.buildDir.names w.disk := fun place text inside link => by
    obtain ⟨front, n, -, flat⟩ := (links place text inside link).exists_flatLink
    exact FlatLink.oneHop.isName flat
  by_cases idle : q.EndsIdle
  · -- for such a target nothing is done
    have same : Preserves (fun e => e.Sound ∧ e = w.disk) Failed (Local.build p q) := by
      unfold Local.build
      generalize depth p q = n
      cases n with
      | zero =>
        intro v o v' run
        simp [buildWithin, Work.exhausted] at run
      | succ n => exact .once (preserves_tryRules_of_endsIdle (fun e h => h.1) idle)
    rw [(same w o w' run failed ⟨sound', rfl⟩).2]
  obtain ⟨last, ends⟩ := exists_endsIn_of_not_endsIdle idle
  obtain ⟨above, whole⟩ := ends.exists_names
  have ne_up : last ≠ ".." := fun up => hq.noUp (by simp [whole, up])
  have start : Disk.Kept p.buildDir.names w.disk w.disk := .of_paved bare sound' (.refl _ _)
  by_cases somewhere : ∃ base, Disk.OnWay p.buildDir.names w.disk p.buildDir.names base
  · obtain ⟨base, way⟩ := somewhere
    have linked : Disk.LinkedBelow FlatLink base w.disk := by
      intro place n text below link
      have inside : Disk.Inside p.buildDir.names w.disk (place ++ [n]) :=
        ⟨base, way, below.trans (List.prefix_append _ _)⟩
      obtain ⟨front, n', same, flat⟩ := (links _ text inside link).exists_flatLink
      obtain ⟨-, rfl⟩ := List.append_singleton_inj.1 same
      exact flat
    have spared := Spared.build sound ok bare free way inner hq ends whole w o w' run failed
      ⟨start, linked, fun _ _ => rfl, fun _ _ _ _ _ => Iff.rfl⟩
    exact spared.untouched.lstat_iff FlatLink.oneHop free way sound' spared.kept linked hq.relative
      hq.noUp whole ends
  · -- the names of the build directory lead nowhere, before and after
    have kept := kept_of_build sound ok inner bare start hq run
    have nowhere {e : Disk} (kept : Disk.Kept p.buildDir.names w.disk e) :
        ¬ e.lstat (p.buildDir / q) = .ok entry := by
      intro there
      have whole' : (p.buildDir / q).names = p.buildDir.names ++ above ++ [last] := by
        rw [names_div_relative hq.relative, whole, List.append_assoc]
      obtain ⟨-, -, r, lead, -⟩ := (Disk.lstat_eq_ok_iff kept.sound (ends.under _) ne_up whole').1 there
      obtain ⟨base, first, -⟩ := lead.split kept.sound
      cases kept with
      | before _ _ none_ => exact none_ base first
      | @since d₁ base' _ _ paved lead₁ => exact somewhere ⟨base', d₁, paved, lead₁⟩
    exact iff_of_false (nowhere kept) (nowhere start)

theorem failed_of_isOk {o : Outcome} (h : (!o.isOk) = true) : Failed o := by
  cases o with
  | ok path => simp [Except.isOk, Except.toBool] at h
  | error f => exact ⟨f, rfl⟩

set_option maxRecDepth 100000 in
/-- Dependencies that cannot be told are not there afterwards, though the link to the source is. -/
theorem failed_build_keeps_smallDisk :
    let p := sampleProject smallDisk libConfig
    smallDisk.Sound ∧ Tree.scan smallDisk ⟨"/p"⟩ libConfig = .ok (sampleTree smallDisk libConfig) ∧
    (∀ s ∈ libConfig.sourceDirs, s.Inner) ∧ Disk.Freestanding p.buildDir.names smallDisk ∧
    (⟨"lib/foo/foo__a.ml.depends"⟩ : Path).Inner ∧
    ∃ o w', Local.build p ⟨"lib/foo/foo__a.ml.depends"⟩ (newWorld smallDisk) = some (o, w') ∧
      Failed o ∧ ∀ entry,
        w'.disk.lstat (p.buildDir / ⟨"lib/foo/foo__a.ml.depends"⟩) = .ok entry ↔
          smallDisk.lstat (p.buildDir / ⟨"lib/foo/foo__a.ml.depends"⟩) = .ok entry := by
  intro p
  have sound : smallDisk.Sound := by decide +kernel
  have accepted := scan_sampleTree (d := smallDisk) (c := libConfig) (by decide +kernel)
  have inner : ∀ s ∈ libConfig.sourceDirs, s.Inner := by decide +kernel
  have target : (⟨"lib/foo/foo__a.ml.depends"⟩ : Path).Inner := by decide +kernel
  have plain : ∀ x ∈ smallDisk.entries, x.2.link? = none := by decide +kernel
  have noLinks (place : Place) (text : String) : smallDisk.entryAt? place ≠ some (.link text) := by
    intro link
    simpa [Entry.link?] using plain _ (sound.mem_of_link link)
  have free : Disk.Freestanding p.buildDir.names smallDisk :=
    .of_plain sound (by decide +kernel) fun front text _ => noLinks front text
  obtain ⟨o, w', run, keeps⟩ := @failed_build_keeps _ _ _ _ (fun _ _ _ _ => .error .notFound) _
    (newWorld smallDisk) sound accepted inner sound
    (fun place text _ link => absurd link (noLinks place text)) free target
  obtain ⟨o', w₁, run', failed⟩ := exists_of_run (c := fun o _ => !o.isOk)
    (show (Local.build p ⟨"lib/foo/foo__a.ml.depends"⟩ (newWorld smallDisk)).any
      (fun x => !x.1.isOk) = true by decide +kernel)
  obtain ⟨rfl, rfl⟩ := Prod.mk.inj (Option.some.inj (run.symm.trans run'))
  have failed := failed_of_isOk failed
  exact ⟨sound, accepted, inner, free, target, o, w', run, failed, keeps failed⟩

/-- Settings by which the way to the build directory goes through the place of a digest. -/
def throughConfig : Config := { sourceDirs := [⟨"lib"⟩], buildDir := ⟨"b/lib/foo.stamp/../.."⟩ }

set_option maxRecDepth 100000 in
/-- Where the way to the build directory goes through the target's place, a build that fails makes that
a directory. -/
theorem failed_build_throughConfig :
    let p := sampleProject smallDisk throughConfig
    smallDisk.Sound ∧
    Tree.scan smallDisk ⟨"/p"⟩ throughConfig = .ok (sampleTree smallDisk throughConfig) ∧
    (∀ s ∈ throughConfig.sourceDirs, s.Inner) ∧ (∀ x ∈ smallDisk.entries, x.2.link? = none) ∧
    (⟨"lib/foo.stamp"⟩ : Path).Inner ∧
    ∃ o w', Local.build p ⟨"lib/foo.stamp"⟩ (newWorld smallDisk) = some (o, w') ∧ Failed o ∧
      (smallDisk.lstat (p.buildDir / ⟨"lib/foo.stamp"⟩)).toOption = none ∧
      (w'.disk.lstat (p.buildDir / ⟨"lib/foo.stamp"⟩)).toOption = some .dir := by
  intro p
  obtain ⟨o, w', run, done⟩ := exists_of_run (c := fun o w' => !o.isOk &&
      (w'.disk.lstat (p.buildDir / ⟨"lib/foo.stamp"⟩)).toOption == some .dir)
    (show (Local.build p ⟨"lib/foo.stamp"⟩ (newWorld smallDisk)).any (fun x => !x.1.isOk &&
      (x.2.disk.lstat (p.buildDir / ⟨"lib/foo.stamp"⟩)).toOption == some .dir) = true by decide +kernel)
  obtain ⟨failed, there⟩ := Bool.and_eq_true_iff.1 done
  exact ⟨by decide +kernel, scan_sampleTree (by decide +kernel), by decide +kernel, by decide +kernel,
    by decide +kernel, o, w', run, failed_of_isOk failed, by decide +kernel, by simpa using there⟩

end Local
end FlatModules
