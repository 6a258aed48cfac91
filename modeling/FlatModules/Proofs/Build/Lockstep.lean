import Mathlib.Data.List.Forall2
import FlatModules.Proofs.Build.Blame
import FlatModules.Proofs.Build.Endings
import FlatModules.Proofs.Disk.Beside

/-!
# Build — two builds in lockstep

Two builds over one disk whose targets differ in their spelling alone.  They are compared step by
step: in worlds that are `Alike` for all that a rule can tell — the same disk, and what the engine
keeps under paths under the same paths — steps in lockstep come to results that are related, again in
worlds that are alike.
-/

namespace FlatModules

/-- Outcomes that rules do not tell apart: two built targets, or two failures of one path. -/
inductive Outcome.Alike : Outcome → Outcome → Prop
  | built (path path' : Path) : Alike (.ok path) (.ok path')
  | failed {failure failure' : Failure} (same : failure.target.parts = failure'.target.parts) :
      Alike (.error failure) (.error failure')

theorem Outcome.Alike.isOk {o o' : Outcome} (h : o.Alike o') : o.isOk = o'.isOk := by
  cases h <;> rfl

/-- Whether the engine has a target under a path already, built or being built. -/
def LocalState.Met (s : LocalState) (q : Path) : Prop :=
  listsPath q s.inProgress = true ∨ lookupPath? q s.outcomes ≠ none

/-- What two engines keep under the same paths. -/
structure LocalState.Alike (s t : LocalState) : Prop where
  outcomes : List.Forall₂ (fun x y => x.1.parts = y.1.parts ∧ x.2.Alike y.2) s.outcomes t.outcomes
  inProgress : List.Forall₂ (fun x y => x.parts = y.parts) s.inProgress t.inProgress
  hard : List.Forall₂ (fun x y => x.parts = y.parts) s.hard t.hard
  attached : List.Forall₂ (fun x y => x.1.parts = y.1.parts ∧ x.2 = y.2) s.attached t.attached

/-- Worlds that differ in what no rule reads.  A failure is kept only for a target that was asked
for, so that it makes no difference whether it is found or its target asked for again. -/
structure World.Alike (w v : World LocalState) : Prop where
  disk : w.disk = v.disk
  sound : w.disk.Sound
  own : w.own.Alike v.own
  asked : ∀ key, w.failures.get? key ≠ none → w.own.Met ⟨key⟩
  asked' : ∀ key, v.failures.get? key ≠ none → v.own.Met ⟨key⟩

/-- Ends of a rule that the engine does not tell apart. -/
inductive Applied.Alike : Applied → Applied → Prop
  | built (path path' : Path) : Alike (.built path) (.built path')
  | inapplicable (reason : String) : Alike (.inapplicable reason) (.inapplicable reason)

namespace Local

variable {p : Project} {q q' r : Path} {w w' v v' : World LocalState}

/-! ### What is kept under a path -/

section Lists

variable {α β : Type}

theorem same_congr_parts {x x' : Path} (hx : x.parts = x'.parts) (hq : q.parts = q'.parts) :
    x.same q = x'.same q' := by
  rw [Bool.eq_iff_iff, Path.same_iff, Path.same_iff, hx, hq]

theorem listsPath_congr {xs ys : List Path} (h : List.Forall₂ (fun x y => x.parts = y.parts) xs ys)
    (hq : q.parts = q'.parts) : listsPath q xs = listsPath q' ys := by
  induction h with
  | nil => rfl
  | cons head _ ih => rw [listsPath_cons, listsPath_cons, same_congr_parts head hq, ih]

theorem lookupPath?_rel {R : α → β → Prop} {xs : List (Path × α)} {ys : List (Path × β)}
    (h : List.Forall₂ (fun x y => x.1.parts = y.1.parts ∧ R x.2 y.2) xs ys)
    (hq : q.parts = q'.parts) : Option.Rel R (lookupPath? q xs) (lookupPath? q' ys) := by
  induction h with
  | nil => exact .none
  | cons head _ ih =>
    rw [lookupPath?, lookupPath?, same_congr_parts head.1 hq]
    split
    · exact .some head.2
    · exact ih

theorem attachedTags_congr {xs ys : List (Path × Tags)}
    (h : List.Forall₂ (fun x y => x.1.parts = y.1.parts ∧ x.2 = y.2) xs ys)
    (hq : q.parts = q'.parts) : attachedTags q xs = attachedTags q' ys := by
  have rel := lookupPath?_rel h hq
  unfold attachedTags
  generalize lookupPath? q xs = found at rel
  generalize lookupPath? q' ys = found' at rel
  cases rel with
  | none => rfl
  | some same => rw [same]

theorem attachTags_rel {xs ys : List (Path × Tags)}
    (h : List.Forall₂ (fun x y => x.1.parts = y.1.parts ∧ x.2 = y.2) xs ys)
    (hq : q.parts = q'.parts) (tags : Tags) :
    List.Forall₂ (fun x y => x.1.parts = y.1.parts ∧ x.2 = y.2) (attachTags q tags xs)
      (attachTags q' tags ys) := by
  induction h with
  | nil => exact .cons ⟨hq, rfl⟩ .nil
  | cons head tail ih =>
    rw [attachTags, attachTags, same_congr_parts head.1 hq]
    split
    · exact .cons ⟨head.1, by rw [head.2]⟩ tail
    · exact .cons head ih

theorem filter_same_rel {xs ys : List Path} (h : List.Forall₂ (fun x y => x.parts = y.parts) xs ys)
    (hq : q.parts = q'.parts) : List.Forall₂ (fun x y => x.parts = y.parts)
      (xs.filter (!·.same q)) (ys.filter (!·.same q')) := by
  induction h with
  | nil => exact .nil
  | cons head _ ih =>
    rw [List.filter_cons, List.filter_cons, same_congr_parts head hq]
    split
    · exact .cons head ih
    · exact ih

end Lists

theorem met_iff {s t : LocalState} (h : s.Alike t) (hq : q.parts = q'.parts) :
    s.Met q ↔ t.Met q' := by
  have rel := lookupPath?_rel h.outcomes hq
  unfold LocalState.Met
  rw [listsPath_congr h.inProgress hq]
  generalize lookupPath? q s.outcomes = found at rel ⊢
  generalize lookupPath? q' t.outcomes = found' at rel ⊢
  cases rel <;> simp

/-! ### Steps in lockstep -/

/-- Steps that come from worlds that are alike to related results, in worlds that are alike. -/
def Lockstep {α β : Type} (Q : α → β → Prop) (m : Step α) (m' : Step β) : Prop :=
  ∀ w v x w' y v', World.Alike w v → m w = some (x, w') → m' v = some (y, v') →
    Q x y ∧ World.Alike w' v'

namespace Lockstep

variable {α β γ δ : Type} {Q : α → β → Prop} {Q' : γ → δ → Prop}

theorem pure {x : α} {y : β} (h : Q x y) : Lockstep Q (pure x) (pure y) := by
  intro w v x' w' y' v' alike run run'
  obtain ⟨rfl, rfl⟩ := Prod.mk.inj (Option.some.inj run)
  obtain ⟨rfl, rfl⟩ := Prod.mk.inj (Option.some.inj run')
  exact ⟨h, alike⟩

theorem bind {m : Step α} {m' : Step β} {f : α → Step γ} {f' : β → Step δ} (h : Lockstep Q m m')
    (hf : ∀ x y, Q x y → Lockstep Q' (f x) (f' y)) : Lockstep Q' (m >>= f) (m' >>= f') := by
  intro w v x w' y v' alike run run'
  obtain ⟨a, w₁, run, next⟩ := Work.bind_eq_some.1 run
  obtain ⟨b, v₁, run', next'⟩ := Work.bind_eq_some.1 run'
  obtain ⟨related, alike⟩ := h _ _ _ _ _ _ alike run run'
  exact hf a b related _ _ _ _ _ _ alike next next'

theorem mono {Q' : α → β → Prop} {m : Step α} {m' : Step β} (h : Lockstep Q m m')
    (sub : ∀ x y, Q x y → Q' x y) : Lockstep Q' m m' := fun w v x w' y v' alike run run' =>
  (h w v x w' y v' alike run run').imp_left (sub x y)

theorem get : Lockstep World.Alike (get : Step (World LocalState)) (get : Step (World LocalState)) := by
  intro w v x w' y v' alike run run'
  obtain ⟨rfl, rfl⟩ := Prod.mk.inj (Option.some.inj run)
  obtain ⟨rfl, rfl⟩ := Prod.mk.inj (Option.some.inj run')
  exact ⟨alike, alike⟩

/-- Steps that change what no rule reads. -/
theorem of_same {m : Step α} {m' : Step β}
    (h : ∀ w x w', m w = some (x, w') → w'.disk = w.disk ∧ w'.own = w.own ∧ w'.failures = w.failures)
    (h' : ∀ v y v', m' v = some (y, v') → v'.disk = v.disk ∧ v'.own = v.own ∧ v'.failures = v.failures)
    (related : ∀ w x w' v y v', m w = some (x, w') → m' v = some (y, v') → Q x y) :
    Lockstep Q m m' := by
  intro w v x w' y v' alike run run'
  obtain ⟨disk, own, failures⟩ := h w x w' run
  obtain ⟨disk', own', failures'⟩ := h' v y v' run'
  refine ⟨related w x w' v y v' run run', ?_⟩
  obtain ⟨a, b, c, e, f⟩ := alike
  exact ⟨by rw [disk, disk', a], disk ▸ b, by rw [own, own']; exact c,
    by rw [own, failures]; exact e, by rw [own', failures']; exact f⟩

theorem newFailure (same : q.parts = q'.parts) (message message' : String) :
    Lockstep (fun f g => f.target.parts = g.target.parts) (Work.newFailure q message)
      (Work.newFailure q' message') := by
  have keeps (q : Path) (message : String) (w : World LocalState) (x : Failure)
      (w' : World LocalState) (run : Work.newFailure q message w = some (x, w')) :
      x.target = q ∧ w'.disk = w.disk ∧ w'.own = w.own ∧ w'.failures = w.failures := by
    obtain ⟨rfl, rfl⟩ := Prod.mk.inj (Option.some.inj run)
    exact ⟨rfl, rfl, rfl, rfl⟩
  refine of_same (fun w x w' run => (keeps _ _ w x w' run).2)
    (fun w x w' run => (keeps _ _ w x w' run).2) fun w x w' v y v' run run' => ?_
  rw [(keeps _ _ _ _ _ run).1, (keeps _ _ _ _ _ run').1, same]

theorem modifyOwn {f g : LocalState → LocalState} (alike : ∀ s t, s.Alike t → (f s).Alike (g t))
    (met : ∀ s q, s.Met q → (f s).Met q) (met' : ∀ s q, s.Met q → (g s).Met q) :
    Lockstep (fun _ _ => True) (Work.modifyOwn f) (Work.modifyOwn g) := by
  intro w v x w' y v' h run run'
  obtain ⟨-, rfl⟩ := Prod.mk.inj (Option.some.inj run)
  obtain ⟨-, rfl⟩ := Prod.mk.inj (Option.some.inj run')
  exact ⟨trivial, h.disk, h.sound, alike _ _ h.own, fun key known => met _ _ (h.asked key known),
    fun key known => met' _ _ (h.asked' key known)⟩

theorem onDisk {step : DiskM α} (sound : ∀ d : Disk, d.Sound → (step.run.run d).2.Sound) :
    Lockstep (fun x y => x = y) (Work.onDisk step : Step _) (Work.onDisk step) := by
  intro w v x w' y v' h run run'
  rw [Work.onDisk_run] at run run'
  obtain ⟨rfl, rfl⟩ := Prod.mk.inj (Option.some.inj run)
  obtain ⟨rfl, rfl⟩ := Prod.mk.inj (Option.some.inj run')
  exact ⟨by rw [h.disk], by rw [h.disk], sound _ h.sound, h.own, h.asked, h.asked'⟩

theorem noteRun (arguments arguments' : Option (List String)) :
    Lockstep (fun _ _ => True) (Work.noteRun arguments : Step Unit) (Work.noteRun arguments') := by
  have keeps (arguments : Option (List String)) (w : World LocalState) (x : Unit)
      (w' : World LocalState) (run : Work.noteRun arguments w = some (x, w')) :
      w'.disk = w.disk ∧ w'.own = w.own ∧ w'.failures = w.failures := by
    obtain ⟨-, rfl⟩ := Prod.mk.inj (Option.some.inj run)
    exact ⟨rfl, rfl, rfl⟩
  exact of_same (keeps _) (keeps _) fun _ _ _ _ _ _ _ _ => trivial

theorem own : Lockstep LocalState.Alike (Work.own : Step LocalState) Work.own :=
  get.bind fun _ _ alike => .pure alike.own

theorem markHard (same : q.parts = q'.parts) :
    Lockstep (fun _ _ => True) (markHard q) (markHard q') :=
  modifyOwn (fun _ _ h => { h with hard := .cons same h.hard }) (fun _ _ => id) fun _ _ => id

theorem isHard {failure failure' : Failure} (same : failure.target.parts = failure'.target.parts) :
    Lockstep (fun x y => x = y) (isHard failure) (isHard failure') :=
  own.bind fun _ _ alike => .pure (listsPath_congr alike.hard same)

theorem attach {build build' : Path → Step Outcome} (same : q.parts = q'.parts) (tags : Tags) :
    Lockstep (fun _ _ => True) ((engineOf p build).attach q tags)
      ((engineOf p build').attach q' tags) := by
  dsimp only [engineOf]
  refine modifyOwn (fun _ _ h => ?_) (fun _ _ h => ?_) fun _ _ h => ?_
  · exact ⟨h.outcomes, h.inProgress, h.hard, attachTags_rel h.attached same tags⟩
  · exact h
  · exact h

theorem tags {build build' : Path → Step Outcome} (same : q.parts = q'.parts)
    (configured : p.config.tags.lookup q.text = p.config.tags.lookup q'.text) :
    Lockstep (fun x y => x = y) ((engineOf p build).tags q) ((engineOf p build').tags q') := by
  refine own.bind fun _ _ alike => .pure ?_
  rw [configured, attachedTags_congr alike.attached same]

/-! #### Attempts -/

/-- Results of attempts that are related, or errors for the same reason. -/
inductive Ends (Q : α → β → Prop) : Except RuleError α → Except RuleError β → Prop
  | ok {x : α} {y : β} (related : Q x y) : Ends Q (.ok x) (.ok y)
  | error {e e' : RuleError} (same : e.reason? = e'.reason?) : Ends Q (.error e) (.error e')

theorem attempt_bind {m : Attempt LocalState α} {m' : Attempt LocalState β}
    {f : α → Attempt LocalState γ} {f' : β → Attempt LocalState δ}
    (h : Lockstep (Ends Q) m.run m'.run)
    (hf : ∀ x y, Q x y → Lockstep (Ends Q') (f x).run (f' y).run) :
    Lockstep (Ends Q') (m >>= f).run (m' >>= f').run := by
  rw [ExceptT.run_bind, ExceptT.run_bind]
  refine h.bind fun result result' ends => ?_
  cases ends with
  | ok related => exact hf _ _ related
  | error same => exact .pure (.error same)

theorem attempt_pure {x : α} {y : β} (h : Q x y) :
    Lockstep (Ends Q) (Pure.pure x : Attempt LocalState α).run
      (Pure.pure y : Attempt LocalState β).run := .pure (.ok h)

theorem throw {e e' : RuleError} (same : e.reason? = e'.reason?) :
    Lockstep (Ends Q) (throw e : Attempt LocalState α).run (throw e' : Attempt LocalState β).run :=
  .pure (.error same)

theorem lift {m : Step α} {m' : Step β} (h : Lockstep Q m m') :
    Lockstep (Ends Q) (liftM m : Attempt LocalState α).run (liftM m' : Attempt LocalState β).run := by
  intro w v x w' y v' alike run run'
  rw [Attempt.lift_run] at run run'
  obtain ⟨⟨a, w₁⟩, here, same⟩ := Option.map_eq_some_iff.1 run
  obtain ⟨⟨b, v₁⟩, here', same'⟩ := Option.map_eq_some_iff.1 run'
  obtain ⟨rfl, rfl⟩ := Prod.mk.inj same
  obtain ⟨rfl, rfl⟩ := Prod.mk.inj same'
  exact (h _ _ _ _ _ _ alike here here').imp_left .ok

theorem attempt_disk : Lockstep (Ends fun x y => x = y ∧ x.Sound)
    (Attempt.disk : Attempt LocalState Disk).run (Attempt.disk : Attempt LocalState Disk).run :=
  attempt_bind (lift get) fun _ _ alike => attempt_pure ⟨alike.disk, alike.sound⟩

theorem attempt_onDisk {step : DiskM α} (sound : ∀ d : Disk, d.Sound → (step.run.run d).2.Sound)
    (path path' : Path) : Lockstep (Ends fun x y => x = y)
      (Attempt.onDisk path step : Attempt LocalState α).run
      (Attempt.onDisk path' step : Attempt LocalState α).run := by
  refine attempt_bind (lift (onDisk sound)) fun x y same => ?_
  obtain rfl := same
  split
  · exact attempt_pure rfl
  · exact throw rfl

theorem orThrow_bind {value? : Option α} {value?' : Option β} {e e' : RuleError}
    {f : α → Attempt LocalState γ} {f' : β → Attempt LocalState δ} (h : Option.Rel Q value? value?')
    (same : e.reason? = e'.reason?)
    (hf : ∀ x y, Q x y → Lockstep (Ends Q') (f x).run (f' y).run) :
    Lockstep (Ends Q') (orThrow value? e >>= f).run (orThrow value?' e' >>= f').run := by
  cases h with
  | none => exact .pure (.error same)
  | some related => exact hf _ _ related

/-- What goes on with one value that must be there. -/
theorem orThrow_same {value? : Option α} {e e' : RuleError} {f : α → Attempt LocalState γ}
    {f' : α → Attempt LocalState δ} (same : e.reason? = e'.reason?)
    (hf : ∀ x, value? = some x → Lockstep (Ends Q') (f x).run (f' x).run) :
    Lockstep (Ends Q') (orThrow value? e >>= f).run (orThrow value? e' >>= f').run := by
  cases value? with
  | none => exact .pure (.error same)
  | some x => exact hf x rfl

/-! #### What rules ask for -/

variable {build build' : Path → Step Outcome}

/-- Targets that are asked for one after the other. -/
theorem builds {xs ys : List Path}
    (h : List.Forall₂ (fun x y => Lockstep Outcome.Alike (build x) (build' y)) xs ys) :
    Lockstep (List.Forall₂ Outcome.Alike) ((engineOf p build).build (xs.map ([·])))
      ((engineOf p build').build (ys.map ([·]))) := by
  change Lockstep _ ((xs.map ([·])).mapM (firstBuilt build)) ((ys.map ([·])).mapM (firstBuilt build'))
  induction h with
  | nil => exact .pure .nil
  | cons head _ ih =>
    rw [List.map_cons, List.map_cons, List.mapM_cons, List.mapM_cons]
    exact Lockstep.bind head fun _ _ one => ih.bind fun _ _ rest => .pure (.cons one rest)

theorem firstError?_rel {os os' : List Outcome} (h : List.Forall₂ Outcome.Alike os os') :
    Option.Rel (fun f g => f.target.parts = g.target.parts) (firstError? os) (firstError? os') := by
  induction h with
  | nil => exact .none
  | cons head _ ih =>
    cases head with
    | built => exact ih
    | failed same => exact .some same

theorem requireAll {targets : List Path}
    (h : ∀ x ∈ targets, Lockstep Outcome.Alike (build x) (build' x)) :
    Lockstep (Ends fun _ _ => True) ((contextOf p build).requireAll targets).run
      ((contextOf p build').requireAll targets).run := by
  refine attempt_bind (lift (builds (List.forall₂_same.2 h))) fun os os' alike => ?_
  have both : (firstFailure? (targets.zip os)).isSome = (firstFailure? (targets.zip os')).isSome := by
    clear h
    induction alike generalizing targets with
    | nil => rfl
    | cons head _ ih =>
      cases targets with
      | nil => rfl
      | cons x targets => cases head <;> simp [firstFailure?, ih]
  cases e : firstFailure? (targets.zip os) <;> cases e' : firstFailure? (targets.zip os') <;>
    simp only [e, e', Option.isSome_none, Option.isSome_some, reduceCtorEq] at both
  · exact attempt_pure trivial
  · exact throw rfl

theorem analyze (file : Path) (tags : Tags) :
    Lockstep (Ends fun x y => x = y) ((contextOf p build).analyze file tags).run
      ((contextOf p build').analyze file tags).run := by
  refine attempt_bind attempt_disk fun d e same => ?_
  obtain ⟨rfl, -⟩ := same
  refine attempt_bind (lift (noteRun _ _)) fun _ _ _ => ?_
  dsimp only [contextOf, engineOf]
  split
  · exact attempt_pure rfl
  · exact throw rfl

end Lockstep

end Local
end FlatModules
