import FlatModules.Proofs.Build.Run
import FlatModules.Proofs.Path.Parts
import FlatModules.Tree.Basic

/-!
# Build — every build ends

The depth that `Local.build` allows is enough: a build of any target in any world has an outcome,
and leaves the targets that are being built as it found them (`Local.build_keeps`).  A target asks
for others in two ways.  Those that its text leads to, by a declared dependency or a signal, are
lower in `chain`; the others are in the reach of the metadata, and each of these is built at most
once in a nest.  So `need` falls from a target to every target that is asked for while it is built.
-/

namespace FlatModules

/-- What the answers of metadata lead to is in its reach. -/
structure Metadata.Reaches (m : Metadata) : Prop where
  real : ∀ {path f}, m.fileAt? path = some f → f.realPath ∈ m.reach
  closure : ∀ {dir ns}, m.namespaceAt? dir = some ns → ∀ q ∈ m.closure ns, q ∈ m.reach
  library : ∀ {dir ns members}, m.namespaceAt? dir = some ns →
    m.libraryMembers? ns = some members → ∀ x ∈ members, memberDepends x ∈ m.reach

theorem Tree.metadata_reaches (t : Tree) : t.metadata.Reaches where
  real h := List.mem_append_left _ (List.mem_append_left _
    (List.mem_map_of_mem (List.mem_of_find?_eq_some h)))
  closure {dir ns} h q hq := by
    obtain ⟨s, hs, rfl⟩ := Option.map_eq_some_iff.1 h
    exact List.mem_append_left _ (List.mem_append_right _ (List.mem_flatMap.2
      ⟨s.ns, List.mem_map_of_mem (List.mem_of_find?_eq_some hs), hq⟩))
  library {dir ns members} h hm x hx := by
    obtain ⟨s, hs, rfl⟩ := Option.map_eq_some_iff.1 h
    have hm : t.libraryMembers? s.ns = some members := hm
    refine List.mem_append_right _ (List.mem_flatMap.2
      ⟨s.ns, List.mem_map_of_mem (List.mem_of_find?_eq_some hs), ?_⟩)
    rw [hm]
    exact List.mem_map_of_mem hx

theorem Metadata.namespaceAt?_of_namespaceOfRoot? {m : Metadata} {root : Path} {ns : Namespace}
    (h : m.namespaceOfRoot? root = some ns) : ∃ dir, m.namespaceAt? dir = some ns := by
  obtain ⟨dir, -, h⟩ := Option.bind_eq_some_iff.1 h
  obtain ⟨ns', hn, h⟩ := Option.bind_eq_some_iff.1 h
  split at h
  · exact ⟨dir, by rw [hn, Option.some.inj h]⟩
  · simp at h

theorem Metadata.fileAt?_of_fileOfKind? {m : Metadata} {kind : SourceKind} {path : Path}
    {f : NamespacedFile} (h : m.fileOfKind? kind path = some f) :
    m.fileAt? path = some f ∧ f.kind = kind := by
  obtain ⟨f', hf, h⟩ := Option.bind_eq_some_iff.1 h
  split at h
  case isTrue e => exact ⟨by rw [hf, Option.some.inj h], by rw [← Option.some.inj h, e]⟩
  case isFalse => simp at h

namespace Local

variable {α β : Type} {P : List (Path × Outcome) → Prop} {L : List Path}

/-- A step that ends wherever the kept outcomes have a property and these targets are being built,
and leaves both so. -/
def Keeps (P : List (Path × Outcome) → Prop) (L : List Path) (m : Step α) : Prop :=
  ∀ w, P w.own.outcomes → w.own.inProgress = L →
    ∃ a w', m w = some (a, w') ∧ P w'.own.outcomes ∧ w'.own.inProgress = L

namespace Keeps

theorem pure (a : α) : Keeps P L (pure a : Step α) :=
  fun w h e => ⟨a, w, rfl, h, e⟩

theorem bind {m : Step α} {f : α → Step β} (h : Keeps P L m) (hf : ∀ a, Keeps P L (f a)) :
    Keeps P L (m >>= f) := by
  intro w hw e
  obtain ⟨a, w₁, run, hw₁, e₁⟩ := h w hw e
  obtain ⟨b, w₂, run', h₂⟩ := hf a w₁ hw₁ e₁
  exact ⟨b, w₂, (Work.bind_of_eq_some run).trans run', h₂⟩

theorem newFailure (target : Path) (message : String) :
    Keeps P L (Work.newFailure target message) :=
  fun _ h e => ⟨_, _, Work.newFailure_run target message, h, e⟩

theorem onDisk (step : DiskM α) : Keeps P L (Work.onDisk step) :=
  fun _ h e => ⟨_, _, Work.onDisk_run step, h, e⟩

theorem noteRun (arguments : Option (List String)) : Keeps P L (Work.noteRun arguments) :=
  fun _ h e => ⟨_, _, Work.noteRun_run arguments, h, e⟩

theorem get : Keeps P L (get : Step (World LocalState)) :=
  fun w h e => ⟨w, w, rfl, h, e⟩

theorem own : Keeps P L (Work.own : Step LocalState) :=
  fun w h e => ⟨w.own, w, rfl, h, e⟩

theorem modifyOwn {f : LocalState → LocalState} (ho : ∀ s, (f s).outcomes = s.outcomes)
    (hp : ∀ s, (f s).inProgress = s.inProgress) : Keeps P L (Work.modifyOwn f) :=
  fun w h e => ⟨(), _, Work.modifyOwn_run f, by simpa [ho] using h, by simpa [hp] using e⟩

/-! ### Steps of a rule -/

theorem attempt_bind {m : Attempt LocalState α} {f : α → Attempt LocalState β}
    (h : Keeps P L m.run) (hf : ∀ a, Keeps P L (f a).run) : Keeps P L (m >>= f).run := by
  rw [ExceptT.run_bind]
  refine h.bind fun result => ?_
  cases result with
  | ok a => exact hf a
  | error e => exact pure _

theorem attempt_pure (a : α) : Keeps P L (Pure.pure a : Attempt LocalState α).run := pure _

theorem throw (e : RuleError) : Keeps P L (throw e : Attempt LocalState α).run := pure _

theorem lift {m : Step α} (h : Keeps P L m) : Keeps P L (liftM m : Attempt LocalState α).run := by
  intro w hw e
  obtain ⟨a, w₁, run, h₁⟩ := h w hw e
  exact ⟨.ok a, w₁, by rw [Attempt.lift_run, run]; rfl, h₁⟩

theorem attempt_onDisk (path : Path) (step : DiskM α) :
    Keeps P L (Attempt.onDisk path step : Attempt LocalState α).run :=
  fun _ h e => ⟨_, _, Attempt.onDisk_run path step, h, e⟩

theorem orThrow (value? : Option α) (e : RuleError) :
    Keeps P L (orThrow value? e : Attempt LocalState α).run := by
  cases value? <;> exact pure _

/-- What goes on with a value that must be there needs to keep only if it is. -/
theorem orThrow_bind {value? : Option α} {e : RuleError} {f : α → Attempt LocalState β}
    (h : ∀ a, value? = some a → Keeps P L (f a).run) :
    Keeps P L (FlatModules.orThrow value? e >>= f).run := by
  intro w hw he
  cases value? with
  | none =>
    exact ⟨.error e, w, Attempt.bind_of_error (Attempt.orThrow_none_run e), hw, he⟩
  | some a =>
    obtain ⟨b, w₁, run, h₁⟩ := h a rfl w hw he
    exact ⟨b, w₁, (Attempt.bind_of_ok (Attempt.orThrow_some_run a e)).trans run, h₁⟩

end Keeps

section Rules

variable {p : Project} {build : Path → Step Outcome}

theorem keeps_firstBuilt {targets : List Path} (h : ∀ q ∈ targets, Keeps P L (build q)) :
    Keeps P L (firstBuilt build targets) := by
  induction targets with
  | nil => exact (Keeps.newFailure _ _).bind fun _ => .pure _
  | cons q rest ih =>
    have head := h q List.mem_cons_self
    have tail := ih fun r hr => h r (List.mem_cons_of_mem _ hr)
    cases rest with
    | nil => exact head
    | cons r rest =>
      refine head.bind fun outcome => ?_
      cases outcome with
      | ok path => exact .pure _
      | error failure => exact tail

/-- The engine ends if the targets that it is asked for end. -/
theorem keeps_build {batches : List (List Path)}
    (h : ∀ targets ∈ batches, ∀ q ∈ targets, Keeps P L (build q)) :
    Keeps P L ((engineOf p build).build batches) := by
  change Keeps P L (batches.mapM (firstBuilt build))
  induction batches with
  | nil => exact .pure _
  | cons targets batches ih =>
    rw [List.mapM_cons]
    refine (keeps_firstBuilt (h targets List.mem_cons_self)).bind fun _ => ?_
    exact (ih fun ts hts => h ts (List.mem_cons_of_mem _ hts)).bind fun _ => .pure _

theorem keeps_tags (path : Path) : Keeps P L ((engineOf p build).tags path) :=
  Keeps.own.bind fun _ => .pure _

theorem keeps_attach (path : Path) (tags : Tags) : Keeps P L ((engineOf p build).attach path tags) :=
  .modifyOwn (f := fun s => { s with attached := attachTags path tags s.attached })
    (fun _ => rfl) fun _ => rfl

theorem keeps_signal {target : Path} {message : String}
    (h : Keeps P L (build ⟨signalKey target message⟩)) :
    Keeps P L ((engineOf p build).signal target message) := by
  refine Keeps.get.bind fun w => ?_
  split
  · exact .pure _
  · refine (keeps_build (by simpa using h)).bind fun outcomes => ?_
    have store (failure : Failure) : Keeps P L (do
        let w ← MonadState.get
        let failures := w.failures.insert (signalKey target message) failure
        set { w with failures := failures }
        return (failures.get? (signalKey target message)).getD failure : Step Failure) :=
      fun w h e => ⟨_, _, rfl, h, e⟩
    dsimp only
    split
    · exact (Keeps.pure _).bind store
    · exact (Keeps.newFailure _ _).bind store

variable {c : Context LocalState} (hc : c.engine = engineOf p build)

include hc

theorem keeps_requireAll {targets : List Path} (h : ∀ q ∈ targets, Keeps P L (build q)) :
    Keeps P L (c.requireAll targets).run := by
  unfold Context.requireAll
  rw [hc]
  refine Keeps.attempt_bind (Keeps.lift (keeps_build ?_)) fun outcomes => ?_
  · simpa using h
  · split
    · exact .throw _
    · exact .attempt_pure _

omit hc in
theorem keeps_writeOutput (target : Path) (content : String) :
    Keeps P L (c.writeOutput target content).run :=
  Keeps.attempt_bind (.attempt_onDisk _ _) fun _ => .attempt_pure _

omit hc in
theorem keeps_analyze (file : Path) (tags : Tags) : Keeps P L (c.analyze file tags).run := by
  unfold Context.analyze
  refine Keeps.attempt_bind (fun w h e => ⟨_, w, Attempt.disk_run, h, e⟩) fun d => ?_
  refine Keeps.attempt_bind (.lift (.noteRun _)) fun _ => ?_
  split
  · exact .attempt_pure _
  · exact .throw _

omit hc in
theorem keeps_namespaceOf_bind {r : Rule} {target : Path} {f : Namespace → Attempt LocalState α}
    (h : ∀ ns, (∃ dir, c.metadata.namespaceAt? dir = some ns) → Keeps P L (f ns).run) :
    Keeps P L (c.namespaceOf r target >>= f).run := by
  unfold Context.namespaceOf
  simp only [bind_assoc]
  exact .orThrow_bind fun _ _ => .orThrow_bind fun ns hn =>
    h ns (Metadata.namespaceAt?_of_namespaceOfRoot? hn)

/-- A rule ends if the reach of the metadata can be built. -/
theorem keeps_apply (hr : c.metadata.Reaches) (h : ∀ q ∈ c.metadata.reach, Keeps P L (build q))
    (target : Path) (r : Rule) : Keeps P L (r.apply c target).run := by
  have tags (path : Path) : Keeps P L (c.engine.tags path) := by rw [hc]; exact keeps_tags path
  have attach (path : Path) (tags : Tags) : Keeps P L (c.engine.attach path tags) := by
    rw [hc]; exact keeps_attach path tags
  cases r with
  | executableTags format =>
    simp only [Rule.apply, Context.tagExecutable]
    split
    · exact Keeps.attempt_bind (.lift (attach _ _)) fun _ => .attempt_pure _
    · exact .attempt_pure _
  | depends kind =>
    refine Keeps.orThrow_bind fun _ _ => Keeps.orThrow_bind fun source _ => ?_
    refine Keeps.orThrow_bind fun file _ => Keeps.attempt_bind (.lift (tags _)) fun _ => ?_
    exact Keeps.attempt_bind (keeps_analyze _ _) fun _ => keeps_writeOutput _ _
  | link kind =>
    refine Keeps.orThrow_bind fun file hf => Keeps.attempt_bind (keeps_requireAll hc ?_) fun _ => ?_
    · simpa using h _ (hr.real (Metadata.fileAt?_of_fileOfKind? hf).1)
    · refine Keeps.attempt_bind (.lift (tags _)) fun _ => ?_
      refine Keeps.attempt_bind (.lift (attach _ _)) fun _ => Keeps.orThrow_bind fun _ _ => ?_
      exact Keeps.attempt_bind (.attempt_onDisk _ _) fun _ => .attempt_pure _
  | stamp =>
    refine keeps_namespaceOf_bind fun ns ⟨dir, hn⟩ => ?_
    refine Keeps.attempt_bind (keeps_requireAll hc fun q hq => h q (hr.closure hn q hq)) fun _ => ?_
    refine Keeps.attempt_bind (fun w h e => ⟨_, w, Attempt.disk_run, h, e⟩) fun d => ?_
    split
    · exact keeps_writeOutput _ _
    · exact .throw _
  | aliases => exact keeps_namespaceOf_bind fun ns _ => keeps_writeOutput _ _
  | root =>
    refine Keeps.orThrow_bind fun root _ => keeps_namespaceOf_bind fun ns _ => ?_
    refine Keeps.attempt_bind (fun w h e => ⟨_, w, Attempt.disk_run, h, e⟩) fun d => ?_
    split
    · exact keeps_writeOutput _ _
    · exact .throw _
  | manifest =>
    refine Keeps.orThrow_bind fun root _ => Keeps.orThrow_bind fun ns hn => ?_
    refine Keeps.orThrow_bind fun members hm => ?_
    obtain ⟨dir, hn⟩ := Metadata.namespaceAt?_of_namespaceOfRoot? hn
    refine Keeps.attempt_bind (keeps_requireAll hc ?_) fun _ => ?_
    · simpa using fun x hx => h _ (hr.library hn hm x hx)
    · refine Keeps.attempt_bind (fun w h e => ⟨_, w, Attempt.disk_run, h, e⟩) fun d => ?_
      split
      · exact keeps_writeOutput _ _
      · exact .throw _
  | plainDepends =>
    refine Keeps.orThrow_bind fun source _ => Keeps.attempt_bind (.lift (tags _)) fun _ => ?_
    refine Keeps.attempt_bind (keeps_analyze _ _) fun _ => ?_
    exact Keeps.attempt_bind (.attempt_onDisk _ _) fun _ => .attempt_pure _

end Rules

section Produce

variable {p : Project} {build : Path → Step Outcome} {target : Path}

theorem keeps_dispatch {attempt : Attempt LocalState Applied} (h : Keeps P L attempt.run)
    (hk : ∀ message, Keeps P L (build ⟨signalKey target message⟩)) :
    Keeps P L ((engineOf p build).dispatch target attempt) := by
  refine h.bind fun result => ?_
  split
  · exact .pure _
  · exact (keeps_signal (hk _)).bind fun _ => .pure _
  · split
    · exact (keeps_signal (hk _)).bind fun _ => .pure _
    · exact .pure _

theorem keeps_markHard (path : Path) : Keeps P L (markHard path) :=
  .modifyOwn (f := fun s => { s with hard := path :: s.hard }) (fun _ => rfl) fun _ => rfl

theorem keeps_copySource : Keeps P L (copySource p target) := by
  refine Keeps.get.bind fun w => ?_
  split
  · refine (Keeps.onDisk _).bind fun copied => ?_
    split
    · exact .pure _
    · exact (keeps_markHard _).bind fun _ => (Keeps.newFailure _ _).bind fun _ => .pure _
  · exact (Keeps.newFailure _ _).bind fun _ => .pure _

/-- Trying rules ends if what each matching rule asks for can be built. -/
theorem keeps_tryRules (hr : p.metadata.Reaches) {rules : List Rule}
    (h : ∀ r ∈ rules, ∀ stem, r.product.stem? target = some stem →
      (∀ q ∈ p.metadata.reach, Keeps P L (build q)) ∧
        (∀ d ∈ r.dependencies, Keeps P L (build (d.fill stem))) ∧
          ∀ message, Keeps P L (build ⟨signalKey target message⟩))
    (blocked : Option Failure) :
    Keeps P L (tryRules p (engineOf p build) target rules blocked) := by
  induction rules generalizing blocked with
  | nil =>
    refine keeps_copySource.bind fun outcome => ?_
    split <;> exact .pure _
  | cons r rest ih =>
    have ih := ih fun r' hr' => h r' (List.mem_cons_of_mem _ hr')
    unfold tryRules
    split
    case h_1 => exact ih _
    case h_2 stem hs =>
      obtain ⟨reach, deps, keys⟩ := h r List.mem_cons_self stem hs
      refine (keeps_build (by simpa using deps)).bind fun outcomes => ?_
      split
      · have hard (failure : Failure) : Keeps P L (isHard failure) :=
          Keeps.own.bind fun _ => .pure _
        refine (hard _).bind fun _ => ?_
        split <;> exact ih _
      · refine (keeps_dispatch (keeps_apply rfl hr reach _ _) keys).bind fun result => ?_
        split
        · exact .pure _
        · exact ih _
        · exact (keeps_markHard _).bind fun _ => (Keeps.newFailure _ _).bind fun _ => .pure _

/-- A target that is neither known nor being built is built, and its outcome kept. -/
theorem keeps_once {produce : Step Outcome}
    (h : listsPath target L = false → Keeps P (target :: L) produce)
    (record : ∀ w o w', lookupPath? target w.own.outcomes = none → produce w = some (o, w') →
      P w'.own.outcomes → P ((target, o) :: w'.own.outcomes)) :
    Keeps P L (once target produce) := by
  intro w hw hl
  cases known : lookupPath? target w.own.outcomes with
  | some o => exact ⟨o, w, once_of_known known, hw, hl⟩
  | none =>
    cases busy : listsPath target w.own.inProgress with
    | true => exact ⟨_, _, once_of_inProgress known busy, hw, hl⟩
    | false =>
      obtain ⟨o, w₁, run, h₁, hl₁⟩ :=
        h (hl ▸ busy) (entered target w) hw (congrArg (target :: ·) hl)
      refine ⟨o, finished target o w₁, ?_, record (entered target w) o w₁ known run h₁, ?_⟩
      · rw [once_of_new known busy, run]
        rfl
      · have apart : ∀ q ∈ L, q.same target = false := by
          simpa [listsPath, hl] using busy
        simp only [finished, hl₁, List.filter_cons, Path.same_self, Bool.not_true,
          Bool.false_eq_true, ↓reduceIte]
        exact List.filter_eq_self.2 fun q hq => by simp [apart q hq]

end Produce

/-! ### How deep builds are nested -/

theorem Pattern_ending_fill (ending stem : String) :
    (Pattern.ending ending).fill stem = ⟨stem ++ ending⟩ := by
  have cut : Text.cutOnce '%' (Pattern.ending ending).text.toList = some ([], ending.toList) := by
    simp [Pattern.ending, Text.cutOnce]
  rw [Pattern.fill, cut]
  simp

/-- How far targets that follow from a text are from the last of them: nothing follows from a
signal, only a signal from a stamp, and from any other text a stamp or a shorter text.  A signal, a
stamp and the others are told apart by their last characters. -/
def chain (target : Path) : Nat :=
  match target.text.toList.getLast? with
  | some '>' => 1
  | some 'p' => 2
  | _ => target.text.length + 3

theorem chain_pos (target : Path) : 0 < chain target := by
  unfold chain
  split <;> omega

theorem chain_le (target : Path) : chain target ≤ target.text.length + 3 := by
  unfold chain
  split <;> omega

theorem chain_signal (target : Path) (message : String) :
    chain ⟨signalKey target message⟩ = 1 := by
  have last : (signalKey target message).toList.getLast? = some '>' := by
    rw [signalKey, String.toList_append, List.getLast?_append_of_ne_nil _ (by decide)]
    decide
  simp only [chain, last]

theorem getLast?_of_stem? {r : Rule} {target : Path} {stem : String}
    (h : r.product.stem? target = some stem) :
    target.text = stem ++ r.ending ∧
      target.text.toList.getLast? = r.ending.toList.getLast? := by
  obtain ⟨e, -⟩ := Pattern.stem?_ending_eq_some_iff.1 h
  refine ⟨e, ?_⟩
  rw [e, String.toList_append, List.getLast?_append_of_ne_nil]
  cases r <;> (try rename_i k; cases k) <;> decide

/-- Where a rule is tried, more than a signal follows. -/
theorem one_lt_chain {r : Rule} {target : Path} {stem : String}
    (h : r.product.stem? target = some stem) : 1 < chain target := by
  obtain ⟨-, last⟩ := getLast?_of_stem? h
  have signal : r.ending.toList.getLast? ≠ some '>' := by
    cases r <;> (try rename_i k; cases k) <;> decide
  unfold chain
  split <;> first | omega | simp_all

/-- A declared dependency is nearer to the end than the target that it is for. -/
theorem chain_fill_lt {r : Rule} {target : Path} {stem : String}
    (h : r.product.stem? target = some stem) {d : Pattern} (hd : d ∈ r.dependencies) :
    chain (d.fill stem) < chain target := by
  obtain ⟨text, last⟩ := getLast?_of_stem? h
  have suffix : Naming.dependsSuffix.length = 8 := by decide
  have whole : r.ending.toList.getLast? = some 's' ∨ r.ending.toList.getLast? = some 'l' →
      chain target = stem.length + r.ending.length + 3 := by
    intro e
    rw [← last] at e
    unfold chain
    rcases e with e | e <;> rw [e] <;> simp [text]
  cases r with
  | depends kind =>
    obtain rfl : d = Pattern.ending ("." ++ kind.extension) := by simpa [Rule.dependencies] using hd
    rw [Pattern_ending_fill, whole (.inl (by cases kind <;> decide))]
    refine lt_of_le_of_lt (chain_le _) ?_
    simp only [Rule.ending, String.length_append, suffix]
    omega
  | root =>
    obtain rfl : d = Pattern.ending ("." ++ Rule.stampExtension) := by
      simpa [Rule.dependencies] using hd
    have stamp : chain ⟨stem ++ ("." ++ Rule.stampExtension)⟩ = 2 := by
      simp [chain, Rule.stampExtension]
    rw [Pattern_ending_fill, stamp, whole (.inr (by decide))]
    have root : Rule.root.ending.length = 3 := by decide
    omega
  | plainDepends =>
    obtain rfl : d = Pattern.ending "" := by simpa [Rule.dependencies] using hd
    rw [Pattern_ending_fill, whole (.inl (by decide))]
    refine lt_of_le_of_lt (chain_le _) ?_
    simp only [Rule.ending, String.append_empty, suffix]
    omega
  | executableTags | link | stamp | aliases | manifest => simp [Rule.dependencies] at hd

/-- The targets of a reach that are not being built. -/
def waiting (reach L : List Path) : Nat :=
  (reach.filter fun q => !listsPath q L).length

theorem listsPath_cons {q r : Path} : listsPath q (r :: L) = (r.same q || listsPath q L) := rfl

theorem waiting_cons_le (reach : List Path) (r : Path) (L : List Path) :
    waiting reach (r :: L) ≤ waiting reach L := by
  refine (List.monotone_filter_right reach fun q h => ?_).length_le
  simp only [listsPath_cons, Bool.not_or, Bool.and_eq_true] at h
  exact h.2

theorem waiting_cons_lt {reach : List Path} {r : Path} (hr : r ∈ reach)
    (h : listsPath r L = false) : waiting reach (r :: L) < waiting reach L := by
  have split : reach.filter (fun q => !listsPath q (r :: L)) =
      (reach.filter fun q => !listsPath q L).filter fun q => !r.same q := by
    rw [List.filter_filter]
    exact List.filter_congr fun q _ => by simp [listsPath_cons]
  rw [waiting, split]
  exact List.length_filter_lt_length_iff_exists.2
    ⟨r, List.mem_filter.2 ⟨hr, by simp [h]⟩, by simp⟩

/-- The depth that the building of a target needs while others are being built; `span` bounds what
can follow from any target of the reach. -/
def need (reach : List Path) (span : Nat) (L : List Path) (target : Path) : Nat :=
  if listsPath target L then 1 else waiting reach (target :: L) * span + chain target

theorem need_pos (reach : List Path) (span : Nat) (L : List Path) (target : Path) :
    0 < need reach span L target := by
  unfold need
  have := chain_pos target
  split <;> omega

/-- A target that follows from the text of another needs less. -/
theorem need_lt_of_chain {reach L : List Path} {span n : Nat} {target next : Path}
    (new : listsPath target L = false) (h : chain next < chain target)
    (hn : need reach span L target ≤ n + 1) : need reach span (target :: L) next ≤ n := by
  have := chain_pos next
  have fewer := Nat.mul_le_mul_right span (waiting_cons_le reach next (target :: L))
  simp only [need, new, Bool.false_eq_true, ↓reduceIte] at hn
  unfold need
  split <;> omega

/-- A target of the reach needs less than one that is being built. -/
theorem need_lt_of_mem {reach L : List Path} {span n : Nat} {target next : Path}
    (new : listsPath target L = false) (hm : next ∈ reach) (hs : chain next < span)
    (h : 1 < chain target) (hn : need reach span L target ≤ n + 1) :
    need reach span (target :: L) next ≤ n := by
  simp only [need, new, Bool.false_eq_true, ↓reduceIte] at hn
  unfold need
  split
  case isTrue => omega
  case isFalse next_new =>
    have fewer := waiting_cons_lt hm (by simpa using next_new)
    have := Nat.mul_le_mul_right span (Nat.succ_le_of_lt fewer)
    rw [Nat.succ_mul] at this
    omega

/-- With the depth that it needs a build ends, and keeps what holds of the outcomes. -/
theorem buildWithin_keeps {p : Project} (hr : p.metadata.Reaches) {span : Nat}
    (hs : ∀ q ∈ p.metadata.reach, chain q < span)
    (record : ∀ n target w o w', lookupPath? target w.own.outcomes = none →
      tryRules p (engineOf p (buildWithin p n)) target rules none w = some (o, w') →
      P w'.own.outcomes → P ((target, o) :: w'.own.outcomes))
    (n : Nat) : ∀ L target, need p.metadata.reach span L target ≤ n →
      Keeps P L (buildWithin p n target) := by
  induction n with
  | zero =>
    intro L target h
    have := need_pos p.metadata.reach span L target
    omega
  | succ n ih =>
    intro L target h
    refine keeps_once (fun new => ?_) (record n target)
    refine keeps_tryRules hr (fun r _ stem hstem => ⟨fun q hq => ?_, fun d hd => ?_, ?_⟩) none
    · exact ih _ _ (need_lt_of_mem new hq (hs q hq) (one_lt_chain hstem) h)
    · exact ih _ _ (need_lt_of_chain new (chain_fill_lt hstem hd) h)
    · intro message
      exact ih _ _ (need_lt_of_chain new (chain_signal target message ▸ one_lt_chain hstem) h)

theorem le_foldl_max (xs : List Nat) (a : Nat) :
    a ≤ xs.foldl max a ∧ ∀ x ∈ xs, x ≤ xs.foldl max a := by
  induction xs generalizing a with
  | nil => simp
  | cons x xs ih =>
    obtain ⟨first, rest⟩ := ih (max a x)
    refine ⟨le_trans (le_max_left a x) first, fun y hy => ?_⟩
    rcases List.mem_cons.1 hy with rfl | hy
    · exact le_trans (le_max_right a y) first
    · exact rest y hy

/-- A build ends in any world, and leaves the targets that are being built as they were. -/
theorem build_keeps {p : Project} (hr : p.metadata.Reaches)
    (record : ∀ n target w o w', lookupPath? target w.own.outcomes = none →
      tryRules p (engineOf p (buildWithin p n)) target rules none w = some (o, w') →
      P w'.own.outcomes → P ((target, o) :: w'.own.outcomes))
    (L : List Path) (target : Path) : Keeps P L (build p target) := by
  obtain ⟨own, longest⟩ := le_foldl_max (p.metadata.reach.map (·.text.length)) target.text.length
  have span (q : Path) (hq : q ∈ p.metadata.reach) :
      chain q < (p.metadata.reach.map (·.text.length)).foldl max target.text.length + 4 := by
    have := longest _ (List.mem_map_of_mem hq)
    have := chain_le q
    omega
  refine buildWithin_keeps hr span record _ L target ?_
  · have all : waiting p.metadata.reach (target :: L) ≤ p.metadata.reach.length :=
      List.length_filter_le _ _
    have := chain_le target
    have := Nat.mul_le_mul_right
      ((p.metadata.reach.map (·.text.length)).foldl max target.text.length + 4) all
    unfold need depth
    rw [Nat.add_mul]
    split <;> omega

/-- A build of any target in any world has an outcome. -/
theorem exists_build_eq_some {p : Project} (hr : p.metadata.Reaches) (target : Path)
    (w : World LocalState) :
    ∃ o w', build p target w = some (o, w') ∧ w'.own.inProgress = w.own.inProgress := by
  obtain ⟨o, w', run, -, e⟩ :=
    build_keeps (P := fun _ => True) hr (fun _ _ _ _ _ _ _ _ => trivial) w.own.inProgress target w
      trivial rfl
  exact ⟨o, w', run, e⟩

end Local
end FlatModules
