import FlatModules.Proofs.Build.Premises
import FlatModules.Proofs.Build.Selection

/-!
# Build — what an engine holds

A world in order (`Site.Works`): what an engine has kept for an artifact is what the artifact should
come to, and the disk has it.  Steps that have nothing to do with artifacts keep a world so and
forget nothing (`Local.Quiet`); among them are signals and the targets that are loose.
-/

namespace FlatModules

open Naming Path Tree Local

theorem Tree.HasIn.original {t : Tree} {f : NamespacedFile}
    (h : t.HasIn used (.virtual f)) : t.HasIn used (.original f) := by
  obtain ⟨has, source, hs, _, _, _, ⟨⟩⟩ := h
  rename_i lies
  exact ⟨has, source, hs, _, _, _, .original lies⟩

namespace Site

/-- What holds of an artifact that was built, on a disk and with the outcomes and tags that were
kept. -/
structure Stands (s : Site) (d : Disk) (outcomes : List (Path × Outcome))
    (attached : List (Path × Tags)) (a : Artifact) (path : Path) : Prop where
  path_eq : path = a.path
  held : ∃ bytes, s.Tells a (some bytes) ∧ s.Holds d a.path bytes
  tags : (s.configured a.path).union (attachedTags a.path attached) = s.tagsOf a
  link : ∀ f, a = .virtual f → ∃ text, f.realPath.fileName? = some text ∧
    d.entryAt? (s.base ++ a.path.names) = some (.link text)
  original : ∀ f, a = .virtual f → ∃ path, lookupPath? f.realPath outcomes = some (.ok path)

/-- What holds of an artifact with a kept outcome. -/
def Came (s : Site) (d : Disk) (outcomes : List (Path × Outcome)) (attached : List (Path × Tags))
    (a : Artifact) : Outcome → Prop
  | .ok path => s.Stands d outcomes attached a path
  | .error _ => s.Tells a none

/-- A world in order. -/
structure Works (s : Site) (used : List Path) (w : World LocalState) : Prop where
  tended : s.Tended used w.disk
  came : ∀ a, s.tree.HasIn used a → ∀ o, lookupPath? a.path w.own.outcomes = some o →
    s.Came w.disk w.own.outcomes w.own.attached a o
  busy : ∀ a, s.tree.HasIn used a → listsPath a.path w.own.inProgress = true →
    lookupPath? a.path w.own.outcomes = none
  untagged : ∀ a, s.tree.HasIn used a → lookupPath? a.path w.own.outcomes = none →
    lookupPath? a.path w.own.attached = none

/-- A world after another: nothing is forgotten, and the same targets are being built. -/
structure Later (s : Site) (used : List Path) (w w' : World LocalState) : Prop where
  kept : ∀ a, s.tree.HasIn used a → ∀ o, lookupPath? a.path w.own.outcomes = some o →
    lookupPath? a.path w'.own.outcomes = some o
  inProgress : w'.own.inProgress = w.own.inProgress

theorem Later.refl (s : Site) (used : List Path) (w : World LocalState) : s.Later used w w :=
  ⟨fun _ _ _ h => h, rfl⟩

theorem Later.trans {s : Site} {used : List Path} {w₁ w₂ w₃ : World LocalState}
    (h : s.Later used w₁ w₂) (h' : s.Later used w₂ w₃) : s.Later used w₁ w₃ :=
  ⟨fun a ha o e => h'.kept a ha o (h.kept a ha o e), h'.inProgress.trans h.inProgress⟩

variable {s : Site} {used : List Path} {a b : Artifact} {q : Path} {w w' : World LocalState}
  {d d' : Disk} {names : List String} {o : Outcome}

theorem lookupPath?_cons {α : Type} (p path : Path) (value : α) (rest : List (Path × α)) :
    lookupPath? path ((p, value) :: rest) =
      if p.same path then some value else lookupPath? path rest := rfl

theorem listsPath_cons (p path : Path) (rest : List Path) :
    listsPath path (p :: rest) = (p.same path || listsPath path rest) := rfl

theorem lookupPath?_attachTags_of_new {path : Path} {attached : List (Path × Tags)}
    (h : lookupPath? path attached = none) (tags : Tags) :
    lookupPath? path (attachTags path tags attached) = some tags := by
  induction attached with
  | nil => simp [attachTags, lookupPath?]
  | cons x rest ih =>
    obtain ⟨q, before⟩ := x
    rw [lookupPath?_cons] at h
    split at h
    · simp at h
    · rename_i other
      rw [attachTags, if_neg other, lookupPath?_cons, if_neg other, ih h]

theorem lookupPath?_attachTags_of_ne {path q : Path} (h : path.same q = false) (tags : Tags)
    (attached : List (Path × Tags)) :
    lookupPath? q (attachTags path tags attached) = lookupPath? q attached := by
  induction attached with
  | nil => simp [attachTags, lookupPath?, h]
  | cons x rest ih =>
    obtain ⟨r, before⟩ := x
    unfold attachTags
    split
    · rename_i same
      have other : ¬ r.same q = true := by
        rw [Path.same_iff] at same ⊢
        rw [same, ← Path.same_iff, h]
        simp
      rw [lookupPath?_cons, lookupPath?_cons, if_neg other, if_neg other]
    · rw [lookupPath?_cons, lookupPath?_cons, ih]

namespace Prepared

/-- Artifacts are told apart by their paths. -/
theorem same_iff (h : s.Prepared used) (ha : s.tree.HasIn used a) (hb : s.tree.HasIn used b) :
    a.path.same b.path = true ↔ a = b := by
  rw [Path.same_iff]
  exact ⟨fun e => ha.eq_of_names h.shaped h.apart_used hb (names_congr e), fun e => by rw [e]⟩

end Prepared

theorem Loose.same_eq_false (h : s.Loose used q) (ha : s.tree.HasIn used a) :
    q.same a.path = false := by
  rw [Bool.eq_false_iff, ne_eq, Path.same_iff]
  intro e
  exact h.unowned a ha (names_congr e ▸ .own)

/-- Where an artifact is read from belongs to it, or to the original of a source file. -/
theorem Tended.owner (h : s.Tended used d) (prepared : s.Prepared used) (ha : s.tree.HasIn used a)
    {goal : Place} (lands : d.Lands (s.base ++ a.path.names) goal) :
    ∃ names, goal = s.base ++ names ∧
      (a.Owns used names ∨ ∃ f, a = .virtual f ∧ names = f.realPath.names) := by
  obtain ⟨has, source, hs, components, base, extension, sits⟩ := ha
  generalize e : s.base ++ a.path.names = place at lands
  cases lands with
  | here => exact ⟨_, e.symm, .inl .own⟩
  | @beside above name text link =>
    obtain ⟨stem, kind, linked⟩ := h.linked prepared.apart_used hs sits.lies (e ▸ link)
    rw [sits.lies.names, ← List.append_assoc, ← List.append_assoc] at e
    obtain ⟨rfl, -⟩ := List.append_inj' e rfl
    refine ⟨source.names ++ (components ++ [text]), by simp, ?_⟩
    rcases linked.owner hs sits with owns | ⟨f, rfl, lies, rfl⟩
    · exact .inl owns
    · refine .inr ⟨f, rfl, ?_⟩
      have names := (Artifact.Sits.original lies).lies.names
      rw [flatName_singleton] at names
      exact names.symm

/-- A change at a place that belongs to nothing that was built keeps what was built. -/
theorem Stands.alters (h : s.Stands w.disk w.own.outcomes w.own.attached a path)
    (works : s.Works used w) (prepared : s.Prepared used) (ha : s.tree.HasIn used a)
    (recorded : lookupPath? a.path w.own.outcomes = some (.ok path))
    (alters : s.Alters w.disk names d')
    (free : ∀ b, s.tree.HasIn used b → b.Owns used names →
      lookupPath? b.path w.own.outcomes = none) :
    s.Stands d' w.own.outcomes w.own.attached a path := by
  have own : ¬ a.Owns used names := fun owns => by
    rw [free a ha owns] at recorded
    simp at recorded
  have own_ : a.path.names ≠ names := fun e => own (e ▸ .own)
  obtain ⟨bytes, content, holds⟩ := h.held
  refine ⟨h.path_eq, ⟨bytes, content, holds.alters alters own_ ?_⟩, h.tags, fun f e => ?_, h.original⟩
  · rintro goal lands e
    obtain ⟨names', rfl, owner⟩ := works.tended.owner prepared ha lands
    obtain rfl := List.append_cancel_left e
    rcases owner with owns | ⟨f, rfl, rfl⟩
    · exact own owns
    · obtain ⟨path', original⟩ := h.original f rfl
      have none_ := free (.original f) ha.original .own
      rw [Artifact.path, original] at none_
      simp at none_
  · obtain ⟨text, name, link⟩ := h.link f e
    exact ⟨text, name, alters.keeps _ _ (fun e => own_ (List.append_cancel_left e)) link⟩

theorem Works.alter (h : s.Works used w) (prepared : s.Prepared used) (tended : s.Tended used d')
    (alters : s.Alters w.disk names d')
    (free : ∀ b, s.tree.HasIn used b → b.Owns used names →
      lookupPath? b.path w.own.outcomes = none) : s.Works used { w with disk := d' } where
  tended := tended
  came a ha o recorded := by
    have came := h.came a ha o recorded
    cases o with
    | ok path => exact came.alters h prepared ha recorded alters free
    | error => exact came
  busy := h.busy
  untagged := h.untagged

/-- What was built stays so when more is kept. -/
theorem Came.later {outcomes outcomes' : List (Path × Outcome)} {attached : List (Path × Tags)}
    (h : s.Came d outcomes attached a o) (ha : s.tree.HasIn used a)
    (kept : ∀ b, s.tree.HasIn used b → ∀ path, lookupPath? b.path outcomes = some (.ok path) →
      lookupPath? b.path outcomes' = some (.ok path)) : s.Came d outcomes' attached a o := by
  cases o with
  | error => exact h
  | ok path =>
    refine ⟨h.path_eq, h.held, h.tags, h.link, fun f e => ?_⟩
    subst e
    obtain ⟨path', original⟩ := h.original f rfl
    exact ⟨path', kept (.original f) ha.original path' original⟩

theorem Came.attached {outcomes : List (Path × Outcome)} {attached attached' : List (Path × Tags)}
    (h : s.Came d outcomes attached a o)
    (e : lookupPath? a.path attached' = lookupPath? a.path attached) :
    s.Came d outcomes attached' a o := by
  cases o with
  | error => exact h
  | ok path =>
    refine ⟨h.path_eq, h.held, ?_, h.link, h.original⟩
    have tags := h.tags
    rwa [attachedTags, ← e] at tags

theorem Works.entered (h : s.Works used w) (q : Path)
    (new : ∀ a, s.tree.HasIn used a → q.same a.path = true →
      lookupPath? a.path w.own.outcomes = none) : s.Works used (entered q w) where
  tended := h.tended
  came := h.came
  busy a ha listed := by
    change listsPath a.path (q :: w.own.inProgress) = true at listed
    rw [listsPath_cons, Bool.or_eq_true] at listed
    exact listed.elim (new a ha) (h.busy a ha)
  untagged := h.untagged

/-- A world is in order once an artifact is kept with what it should come to, if tags were attached
to nothing else. -/
theorem Works.finish (h : s.Works used w) (prepared : s.Prepared used) (ha : s.tree.HasIn used a)
    (busy : listsPath a.path w.own.inProgress = true) (disk : w'.disk = w.disk)
    (outcomes : w'.own.outcomes = w.own.outcomes) (inProgress : w'.own.inProgress = w.own.inProgress)
    (attached : ∀ b, s.tree.HasIn used b → b ≠ a →
      lookupPath? b.path w'.own.attached = lookupPath? b.path w.own.attached)
    (came : s.Came w.disk w.own.outcomes w'.own.attached a o) :
    s.Works used (finished a.path o w') := by
  have new : lookupPath? a.path w.own.outcomes = none := h.busy a ha busy
  have own : lookupPath? a.path (finished a.path o w').own.outcomes = some o := by
    simp [finished, lookupPath?]
  have other (b : Artifact) (hb : s.tree.HasIn used b) (ne : b ≠ a) :
      lookupPath? b.path (finished a.path o w').own.outcomes = lookupPath? b.path w.own.outcomes := by
    change lookupPath? b.path ((a.path, o) :: w'.own.outcomes) = _
    rw [lookupPath?_cons, outcomes, if_neg]
    exact fun same => ne ((prepared.same_iff ha hb).1 same).symm
  have kept (b : Artifact) (hb : s.tree.HasIn used b) (path : Path)
      (e : lookupPath? b.path w.own.outcomes = some (.ok path)) :
      lookupPath? b.path (finished a.path o w').own.outcomes = some (.ok path) := by
    rw [other b hb, e]
    rintro rfl
    simp [new] at e
  constructor
  case tended => exact disk ▸ h.tended
  case came =>
    intro b hb o' e
    change s.Came w'.disk _ w'.own.attached b o'
    rw [disk]
    by_cases same : b = a
    · subst same
      rw [own] at e
      exact Option.some.inj e ▸ came.later ha kept
    · rw [other b hb same] at e
      exact ((h.came b hb o' e).attached (attached b hb same)).later hb kept
  case busy =>
    intro b hb listed
    have ne : b ≠ a := by
      rintro rfl
      simp [finished, listsPath] at listed
    rw [other b hb ne]
    refine h.busy b hb ?_
    rw [← inProgress]
    simp only [finished, listsPath, List.any_eq_true, List.mem_filter] at listed ⊢
    obtain ⟨q, ⟨mem, -⟩, same⟩ := listed
    exact ⟨q, mem, same⟩
  case untagged =>
    intro b hb e
    have ne : b ≠ a := by
      rintro rfl
      simp [own] at e
    rw [other b hb ne] at e
    exact (attached b hb ne).trans (h.untagged b hb e)

end Site

/-! ### Steps beside the artifacts -/

namespace Local

variable {s : Site} {used : List Path} {α β : Type} {L : List Path} {p : Project}
  {build : Path → Step Outcome} {q target : Path} {w w' : World LocalState}

/-- A step that, while the given targets are being built, keeps a world in order and forgets
nothing. -/
def Quiet (s : Site) (used : List Path) (L : List Path) (m : Step α) : Prop :=
  ∀ w x w', s.Works used w → w.own.inProgress = L → m w = some (x, w') →
    s.Works used w' ∧ s.Later used w w'

namespace Quiet

theorem bind {m : Step α} {f : α → Step β} (h : Quiet s used L m)
    (hf : ∀ x, Quiet s used L (f x)) : Quiet s used L (m >>= f) := by
  intro w x w' works progress run
  obtain ⟨y, w₁, run₁, run₂⟩ := Work.bind_eq_some.1 run
  obtain ⟨works₁, later₁⟩ := h w y w₁ works progress run₁
  obtain ⟨works₂, later₂⟩ := hf y w₁ x w' works₁ (later₁.inProgress.trans progress) run₂
  exact ⟨works₂, later₁.trans later₂⟩

/-- A step that touches neither the disk nor what is kept for artifacts. -/
theorem of_same {m : Step α} (h : ∀ w x w', m w = some (x, w') → w'.disk = w.disk ∧
    w'.own.outcomes = w.own.outcomes ∧ w'.own.inProgress = w.own.inProgress ∧
      w'.own.attached = w.own.attached) : Quiet s used L m := by
  intro w x w' works _ run
  obtain ⟨disk, outcomes, inProgress, attached⟩ := h w x w' run
  refine ⟨⟨disk ▸ works.tended, fun a ha o e => ?_, fun a ha e => ?_, fun a ha e => ?_⟩,
    fun a _ o e => outcomes ▸ e, inProgress⟩
  · rw [disk, outcomes, attached]
    exact works.came a ha o (outcomes ▸ e)
  · rw [outcomes]
    exact works.busy a ha (inProgress ▸ e)
  · rw [attached]
    exact works.untagged a ha (outcomes ▸ e)

theorem pure (x : α) : Quiet s used L (pure x : Step α) := by
  refine of_same fun w y w' run => ?_
  obtain ⟨-, rfl⟩ := Prod.mk.inj (Option.some.inj run)
  exact ⟨rfl, rfl, rfl, rfl⟩

theorem newFailure (target : Path) (message : String) :
    Quiet s used L (Work.newFailure target message) := by
  refine of_same fun w y w' run => ?_
  obtain ⟨-, rfl⟩ := Prod.mk.inj (Option.some.inj run)
  exact ⟨rfl, rfl, rfl, rfl⟩

theorem get : Quiet s used L (get : Step (World LocalState)) := by
  refine of_same fun w y w' run => ?_
  obtain ⟨-, rfl⟩ := Prod.mk.inj (Option.some.inj run)
  exact ⟨rfl, rfl, rfl, rfl⟩

theorem markHard (target : Path) : Quiet s used L (markHard target) := by
  refine of_same fun w y w' run => ?_
  obtain ⟨-, rfl⟩ := Prod.mk.inj (Option.some.inj run)
  exact ⟨rfl, rfl, rfl, rfl⟩

/-- Signals are quiet if the targets that stand for them are. -/
theorem signal {message : String} (h : Quiet s used L (build ⟨signalKey target message⟩)) :
    Quiet s used L ((engineOf p build).signal target message) := by
  refine get.bind fun w => ?_
  split
  · exact .pure _
  · refine bind (m := (engineOf p build).build [[⟨signalKey target message⟩]]) ?_ fun outcomes => ?_
    · intro w x w' works progress run
      obtain ⟨o, -, run⟩ := build_singleton_eq_some run
      exact h w o w' works progress run
    · have store (failure : Failure) : Quiet s used L (do
          let w ← MonadState.get
          let failures := w.failures.insert (signalKey target message) failure
          set { w with failures := failures }
          return (failures.get? (signalKey target message)).getD failure : Step Failure) := by
        refine of_same fun w y w' run => ?_
        obtain ⟨-, rfl⟩ := Prod.mk.inj (Option.some.inj run)
        exact ⟨rfl, rfl, rfl, rfl⟩
      dsimp only
      split
      · exact (Quiet.pure _).bind store
      · exact (Quiet.newFailure _ _).bind store

/-- Copying the project's file of a loose target is quiet. -/
theorem copySource (prepared : s.Prepared used) (loose : s.Loose used q)
    (some_ : s.buildDir.names ≠ []) (hp : p.buildDir = s.buildDir) :
    Quiet s used L (copySource p q) := by
  refine get.bind fun w => ?_
  split
  · refine bind (fun w x w' works progress run => ?_) fun copied => ?_
    · obtain ⟨front, last, target⟩ := loose.target
      rw [Work.onDisk_run, hp] at run
      obtain ⟨-, rfl⟩ := Prod.mk.inj (Option.some.inj run)
      obtain ⟨tended, alters⟩ := works.tended.copied prepared.clean target loose.unlinked rfl
        (by simp [some_])
      exact ⟨works.alter prepared tended alters fun b hb owns => absurd owns (loose.unowned b hb),
        fun _ _ _ e => e, rfl⟩
    · split
      · exact .pure _
      · exact (markHard _).bind fun _ => (newFailure _ _).bind fun _ => .pure _
  · exact (newFailure _ _).bind fun _ => .pure _

theorem finished_inProgress (new : listsPath q w.own.inProgress = false)
    (e : w'.own.inProgress = (entered q w).own.inProgress) (o : Outcome) :
    (finished q o w').own.inProgress = w.own.inProgress := by
  have apart : ∀ r ∈ w.own.inProgress, r.same q = false := by simpa [listsPath] using new
  simp only [finished, e, entered, List.filter_cons, Path.same_self, Bool.not_true,
    Bool.false_eq_true, ↓reduceIte]
  exact List.filter_eq_self.2 fun r hr => by simp [apart r hr]

/-- Building a loose target is quiet if what is done for it is. -/
theorem once (loose : s.Loose used q) {produce : Step Outcome}
    (h : Quiet s used (q :: L) produce) : Quiet s used L (once q produce) := by
  intro w o w' works progress run
  cases known : lookupPath? q w.own.outcomes with
  | some o' =>
    rw [once_of_known known] at run
    obtain ⟨-, rfl⟩ := Prod.mk.inj (Option.some.inj run)
    exact ⟨works, .refl _ _ _⟩
  | none =>
    cases busy : listsPath q w.own.inProgress with
    | true =>
      rw [once_of_inProgress known busy] at run
      obtain ⟨-, rfl⟩ := Prod.mk.inj (Option.some.inj run)
      exact ⟨⟨works.tended, works.came, works.busy, works.untagged⟩, fun _ _ _ e => e, rfl⟩
    | false =>
      rw [once_of_new known busy] at run
      obtain ⟨⟨o', w₁⟩, run₁, same⟩ := Option.map_eq_some_iff.1 run
      obtain ⟨rfl, rfl⟩ := Prod.mk.inj same
      have other (a : Artifact) (ha : s.tree.HasIn used a) : q.same a.path = false :=
        loose.same_eq_false ha
      have works' := works.entered q fun a ha e => by simp [other a ha] at e
      obtain ⟨works₁, later⟩ := h _ _ _ works' (congrArg (q :: ·) progress) run₁
      have lookup (a : Artifact) (ha : s.tree.HasIn used a) :
          lookupPath? a.path (finished q o' w₁).own.outcomes = lookupPath? a.path w₁.own.outcomes := by
        change lookupPath? a.path ((q, o') :: w₁.own.outcomes) = _
        rw [Site.lookupPath?_cons, other a ha]
        rfl
      have inProgress := finished_inProgress busy later.inProgress o'
      refine ⟨⟨works₁.tended, fun a ha o e => ?_, fun a ha e => ?_, fun a ha e => ?_⟩,
        fun a ha o e => ?_, inProgress⟩
      · exact (works₁.came a ha o (lookup a ha ▸ e)).later ha fun b hb path e => lookup b hb ▸ e
      · rw [lookup a ha]
        refine works₁.busy a ha ?_
        rw [inProgress] at e
        rw [later.inProgress]
        change listsPath a.path (q :: w.own.inProgress) = true
        rw [Site.listsPath_cons, e, Bool.or_true]
      · exact works₁.untagged a ha (lookup a ha ▸ e)
      · rw [lookup a ha]
        exact later.kept a ha o e

end Quiet

end Local
end FlatModules
