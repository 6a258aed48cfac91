import FlatModules.Proofs.Build.Course
import FlatModules.Tables

/-!
# Build — what builds keep

A build, wherever it is called from, leaves the targets that are being built as it found them, and
what the engine has kept only grows: no outcome and no failure that was there is lost or changed
(`Grown`).  So a target that was built once has its outcome for good, and asking for it again does
nothing (`engine_runs`).
-/

namespace FlatModules

/-- The metadata that an engine may be given: of a tree, or of tables that need not agree with one
another. -/
inductive Metadata.Supplied : Metadata → Prop
  | tree (t : Tree) : Supplied t.metadata
  | tables (t : Tables) : Supplied t.metadata

theorem mem_of_lookupPath? {α : Type} {path : Path} {xs : List (Path × α)} {x : α}
    (h : lookupPath? path xs = some x) : ∃ q, (q, x) ∈ xs ∧ q.same path = true := by
  induction xs with
  | nil => simp [lookupPath?] at h
  | cons y rest ih =>
    obtain ⟨q, y⟩ := y
    unfold lookupPath? at h
    split at h
    case isTrue same =>
      obtain rfl := Option.some.inj h
      exact ⟨q, List.mem_cons_self, same⟩
    case isFalse =>
      obtain ⟨r, mem, same⟩ := ih h
      exact ⟨r, List.mem_cons_of_mem _ mem, same⟩

theorem Path.same_comm (q r : Path) : q.same r = r.same q := by
  rw [Bool.eq_iff_iff, Path.same_iff, Path.same_iff, eq_comm]

theorem Path.same_congr {q r : Path} (same : q.same r = true) (s : Path) : s.same q = s.same r := by
  rw [Bool.eq_iff_iff, Path.same_iff, Path.same_iff, Path.same_iff.1 same]

theorem lookupPath?_congr {α : Type} {q r : Path} (same : r.same q = true)
    (xs : List (Path × α)) : lookupPath? r xs = lookupPath? q xs := by
  induction xs with
  | nil => rfl
  | cons x xs ih => rw [lookupPath?, lookupPath?, Path.same_congr same, ih]

theorem Tables.metadata_reaches (t : Tables) : t.metadata.Reaches where
  real h := List.mem_append_left _ (List.mem_append_left _
    (List.mem_map_of_mem (List.mem_of_find?_eq_some h)))
  closure {dir ns} _ q hq := by
    refine List.mem_append_left _ (List.mem_append_right _ (List.mem_flatMap.2 ?_))
    change q ∈ (lookupPath? ns.dir t.closures).getD [] at hq
    cases found : lookupPath? ns.dir t.closures with
    | none => simp [found] at hq
    | some paths =>
      obtain ⟨dir, mem, -⟩ := mem_of_lookupPath? found
      exact ⟨_, mem, by simpa [found] using hq⟩
  library {dir ns members} _ hm x hx := by
    obtain ⟨dir, mem, -⟩ := mem_of_lookupPath? hm
    exact List.mem_append_right _
      (List.mem_flatMap.2 ⟨_, mem, List.mem_map_of_mem hx⟩)

theorem Metadata.Supplied.reaches {m : Metadata} (h : m.Supplied) : m.Reaches := by
  cases h with
  | tree t => exact t.metadata_reaches
  | tables t => exact t.metadata_reaches

namespace Local

variable {p : Project} {q : Path} {w w₁ w₂ w' : World LocalState}

/-- What holds of a world after another if builds led from the one to the other. -/
structure Grown (w w' : World LocalState) : Prop where
  inProgress : w'.own.inProgress = w.own.inProgress
  outcomes : ∀ q o, lookupPath? q w.own.outcomes = some o → lookupPath? q w'.own.outcomes = some o
  /-- What is being built gets no outcome meanwhile. -/
  busy : ∀ q, listsPath q w.own.inProgress = true →
    lookupPath? q w'.own.outcomes = lookupPath? q w.own.outcomes
  failures : ∀ key f, w.failures.get? key = some f → w'.failures.get? key = some f
  hard : ∀ q, listsPath q w.own.hard = true → listsPath q w'.own.hard = true
  attached : ∀ q, ∀ tag ∈ (attachedTags q w.own.attached).names,
    tag ∈ (attachedTags q w'.own.attached).names
  /-- The number of a failure is never used again. -/
  nextFailure : w.nextFailure ≤ w'.nextFailure

/-- What is attached to a path is added to the tags of all its spellings, and of no other path. -/
theorem mem_attachedTags_attachTags {target path : Path} {tags : Tags}
    {attached : List (Path × Tags)} {tag : String} :
    tag ∈ (attachedTags path (attachTags target tags attached)).names ↔
      tag ∈ (attachedTags path attached).names ∨ target.same path = true ∧ tag ∈ tags.names := by
  induction attached with
  | nil =>
    cases same : target.same path <;> simp [attachTags, attachedTags, lookupPath?, same, Tags.none]
  | cons x rest ih =>
    obtain ⟨q, before⟩ := x
    unfold attachTags
    split
    case isTrue same =>
      have alike : target.same path = q.same path := by
        rw [Bool.eq_iff_iff, Path.same_iff, Path.same_iff, Path.same_iff.1 same]
      cases found : q.same path with
      | true => simpa [attachedTags, lookupPath?, alike, found, Tags.union] using Tags.mem_addAll
      | false => simp [attachedTags, lookupPath?, alike, found]
    case isFalse other =>
      cases found : q.same path with
      | true =>
        have apart : target.same path = false := by
          rw [Bool.eq_false_iff]
          intro same
          rw [Path.same_iff] at same found other
          exact other (found.trans same.symm)
        simp [attachedTags, lookupPath?, found, apart]
      | false => simpa [attachedTags, lookupPath?, found] using ih

namespace Grown

theorem refl (w : World LocalState) : Grown w w :=
  ⟨rfl, fun _ _ h => h, fun _ _ => rfl, fun _ _ h => h, fun _ h => h, fun _ _ h => h, le_rfl⟩

theorem trans (h : Grown w w₁) (h' : Grown w₁ w₂) : Grown w w₂ where
  inProgress := h'.inProgress.trans h.inProgress
  outcomes q o e := h'.outcomes q o (h.outcomes q o e)
  busy q e := (h'.busy q (h.inProgress ▸ e)).trans (h.busy q e)
  failures key f e := h'.failures key f (h.failures key f e)
  hard q e := h'.hard q (h.hard q e)
  attached q tag e := h'.attached q tag (h.attached q tag e)
  nextFailure := h.nextFailure.trans h'.nextFailure

theorem failure (w : World LocalState) : Grown w { w with nextFailure := w.nextFailure + 1 } :=
  { refl w with nextFailure := Nat.le_succ _ }

/-- What rules do for a target takes nothing away. -/
theorem of_acts (h : Acts p q w w') : Grown w w' := by
  cases h with
  | disk | run => exact { refl w with }
  | attach tags =>
    exact { refl w with attached := fun path tag e => mem_attachedTags_attachTags.2 (.inl e) }
  | hard =>
    refine { refl w with hard := fun path e => ?_ }
    change listsPath path (q :: w.own.hard) = true
    rw [listsPath_cons, e, Bool.or_true]
  | signal key failure =>
    refine { refl w with failures := fun key' f e => ?_ }
    by_cases same : key' = key
    · subst same
      exact FailureTable.get?_insert_of_some e
    · exact (FailureTable.get?_insert_of_ne same).trans e

/-- A target is kept with its outcome; what was kept before was not this target's. -/
theorem once (new : lookupPath? q w.own.outcomes = none)
    (idle : listsPath q w.own.inProgress = false) (h : Grown (entered q w) w') (o : Outcome) :
    Grown w (finished q o w') := by
  have lookup (r : Path) : lookupPath? r (finished q o w').own.outcomes =
      if q.same r then some o else lookupPath? r w'.own.outcomes := rfl
  have kept {r : Path} {o' : Outcome} (e : lookupPath? r w.own.outcomes = some o') :
      q.same r = false := by
    rw [Bool.eq_false_iff]
    intro same
    rw [← lookupPath?_congr same, new] at e
    simp at e
  constructor
  case inProgress =>
    have apart : ∀ r ∈ w.own.inProgress, r.same q = false := by simpa [listsPath] using idle
    simp only [finished, h.inProgress, entered, List.filter_cons, Path.same_self, Bool.not_true,
      Bool.false_eq_true, ↓reduceIte]
    exact List.filter_eq_self.2 fun r hr => by simp [apart r hr]
  case outcomes =>
    intro r o' e
    rw [lookup, kept e]
    exact h.outcomes r o' e
  case busy =>
    intro r e
    have other : q.same r = false := by
      rw [Bool.eq_false_iff]
      intro same
      obtain ⟨s, mem, same'⟩ := List.any_eq_true.1 e
      have same' : s.same q = true := by
        rw [Path.same_iff] at same same' ⊢
        rw [same', same]
      have listed : listsPath q w.own.inProgress = true := List.any_eq_true.2 ⟨s, mem, same'⟩
      simp [idle] at listed
    rw [lookup, other]
    refine h.busy r ?_
    change listsPath r (q :: w.own.inProgress) = true
    rw [listsPath_cons, e, Bool.or_true]
  case failures => exact h.failures
  case hard => exact h.hard
  case attached => exact h.attached
  case nextFailure => exact h.nextFailure

end Grown

/-- The course of a build takes nothing away. -/
theorem Course.grown {T : Path → Prop} (h : Course p T w w') : Grown w w' := by
  induction h with
  | refl w => exact .refl w
  | trans _ _ ih ih' => exact ih.trans ih'
  | fail w => exact .failure w
  | act _ acts => exact .of_acts acts
  | once _ new idle _ _ ih => exact .once new idle ih _

/-- A call of the engine: from outside, or while a target is being built, by a rule or for a
signal. -/
inductive Calls (p : Project) : World LocalState → World LocalState → Prop
  | target {q o w w'} (run : Local.build p q w = some (o, w')) : Calls p w w'
  | batches {batches outcomes w w'}
      (run : (engine p).build batches w = some (outcomes, w')) : Calls p w w'
  | signal {q message f w w'} (run : (engine p).signal q message w = some (f, w')) : Calls p w w'
  | nestedTarget {n q o w w'} (run : buildWithin p n q w = some (o, w')) : Calls p w w'
  | nestedBatches {n batches outcomes w w'}
      (run : (engineOf p (buildWithin p n)).build batches w = some (outcomes, w')) : Calls p w w'
  | nestedSignal {n q message f w w'}
      (run : (engineOf p (buildWithin p n)).signal q message w = some (f, w')) : Calls p w w'

/-- A call is a course, of whatever targets it comes to ask for. -/
theorem Calls.course (h : Calls p w w') : Course p (fun _ => True) w w' := by
  have within (n : Nat) (q : Path) : Follows p (fun _ => True) (buildWithin p n q) :=
    buildWithin_follows (closed_true p) n q trivial
  have whole (q : Path) : Follows p (fun _ => True) (Local.build p q) := within (depth p q) q
  cases h with
  | target run => exact whole _ _ _ _ run
  | batches run => exact follows_build (fun _ _ q _ => whole q) _ _ _ run
  | signal run => exact follows_signal trivial (whole _) _ _ _ run
  | nestedTarget run => exact within _ _ _ _ _ run
  | nestedBatches run => exact follows_build (fun _ _ q _ => within _ q) _ _ _ run
  | nestedSignal run => exact follows_signal trivial (within _ _) _ _ _ run

theorem Calls.grown (h : Calls p w w') : Grown w w' := h.course.grown

/-- A world after another: calls were made of the engine, and others changed the disk. -/
inductive Onwards (p : Project) (w : World LocalState) : World LocalState → Prop
  | refl : Onwards p w w
  | call {w₁ w₂ : World LocalState} (h : Onwards p w w₁) (call : Calls p w₁ w₂) : Onwards p w w₂
  | change {w₁ : World LocalState} (h : Onwards p w w₁) (d : Disk) : Onwards p w { w₁ with disk := d }

theorem Onwards.grown (h : Onwards p w w') : Grown w w' := by
  induction h with
  | refl => exact .refl w
  | call _ call ih => exact ih.trans call.grown
  | change _ d ih => exact ih.trans { Grown.refl _ with }

/-- An outcome that is kept is the answer to every request for its target. -/
theorem build_of_known {q r : Path} {o : Outcome} (h : lookupPath? q w.own.outcomes = some o)
    (same : r.same q = true) : Local.build p r w = some (o, w) := by
  obtain ⟨n, e⟩ : ∃ n, depth p r = n + 1 := Nat.exists_eq_add_one.2 (by simp [depth])
  rw [Local.build, e, buildWithin]
  exact once_of_known ((lookupPath?_congr same _).trans h)

/-- What a request comes to is kept, unless the target is being built. -/
theorem lookupPath?_of_once {produce : Step Outcome} {o : Outcome}
    (idle : listsPath q w.own.inProgress = false) (run : once q produce w = some (o, w')) :
    lookupPath? q w'.own.outcomes = some o := by
  cases known : lookupPath? q w.own.outcomes with
  | some o' =>
    rw [once_of_known known] at run
    obtain ⟨rfl, rfl⟩ := Prod.mk.inj (Option.some.inj run)
    exact known
  | none =>
    rw [once_of_new known idle] at run
    obtain ⟨⟨o', w₁⟩, -, same⟩ := Option.map_eq_some_iff.1 run
    obtain ⟨rfl, rfl⟩ := Prod.mk.inj same
    simp [finished, lookupPath?]

/-- A call of the engine leaves the targets that are being built as it found them, and what was kept
only grows.  When nothing is being built, a request for a target comes to an outcome, and from then
on, whatever else is asked for, every request for the target has the same outcome, the identical
failure included, and does nothing. -/
theorem engine_runs (p : Project) (w : World LocalState) :
    (∀ w', Calls p w w' → Grown w w') ∧
    (p.metadata.Supplied → w.own.inProgress = [] → ∀ q, ∃ o w₁, Local.build p q w = some (o, w₁) ∧
      ∀ w₂, Onwards p w₁ w₂ → ∀ r, r.same q = true →
        Local.build p r w₂ = some (o, w₂) ∧ (engine p).build [[r]] w₂ = some ([o], w₂)) := by
  refine ⟨fun w' call => call.grown, fun supplied idle q => ?_⟩
  obtain ⟨o, w₁, run, -⟩ := exists_build_eq_some supplied.reaches q w
  refine ⟨o, w₁, run, fun w₂ later r same => ?_⟩
  have known : lookupPath? q w₁.own.outcomes = some o := by
    obtain ⟨n, e⟩ : ∃ n, depth p q = n + 1 := Nat.exists_eq_add_one.2 (by simp [depth])
    rw [Local.build, e, buildWithin] at run
    exact lookupPath?_of_once (by simp [idle, listsPath]) run
  have again := build_of_known (p := p) (later.grown.outcomes q o known) same
  refine ⟨again, ?_⟩
  change List.mapM (firstBuilt (Local.build p)) [[r]] w₂ = _
  rw [List.mapM_cons]
  exact (Work.bind_of_eq_some again).trans rfl

set_option maxRecDepth 100000 in
/-- Building the digest of a small project twice, with its root module in between. -/
theorem engine_runs_smallDisk :
    let p := sampleProject smallDisk libConfig
    ∃ o w₁, Local.build p ⟨"lib/foo.stamp"⟩ (newWorld smallDisk) = some (o, w₁) ∧
      Grown (newWorld smallDisk) w₁ ∧ ∃ o' w₂, Local.build p ⟨"lib/foo.ml"⟩ w₁ = some (o', w₂) ∧
        Local.build p ⟨"lib//foo.stamp"⟩ w₂ = some (o, w₂) := by
  intro p
  obtain ⟨grown, kept⟩ := engine_runs p (newWorld smallDisk)
  obtain ⟨o, w₁, run, again⟩ := kept (.tree _) rfl ⟨"lib/foo.stamp"⟩
  obtain ⟨o', w₂, next, -⟩ :=
    exists_build_eq_some (p := p) (sampleTree smallDisk libConfig).metadata_reaches ⟨"lib/foo.ml"⟩ w₁
  exact ⟨o, w₁, run, grown w₁ (.target run), o', w₂, next,
    (again w₂ (.call .refl (.target next)) ⟨"lib//foo.stamp"⟩ (by decide +kernel)).1⟩

end Local
end FlatModules
