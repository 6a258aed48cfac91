import FlatModules.Proofs.Disk.Walk

/-!
# Disks — changes

What the operations that change a disk do where links stand only at the ends of paths.  Making
directories adds none but on the trail of the path (`Grows`), and succeeds exactly if the path
fits and nothing but directories is in the way (`makeParents_spec`); writing, copying and linking
succeed exactly if no directory is at the place itself.
-/

namespace FlatModules

namespace DiskM

variable {α β : Type} {d : Disk}

theorem bind_run (m : DiskM α) (f : α → DiskM β) (d : Disk) :
    (m >>= f).run.run d = match m.run.run d with
      | (.ok a, d') => (f a).run.run d'
      | (.error e, d') => (.error e, d') := by
  rw [ExceptT.run_bind, StateT.run_bind]
  rcases m.run.run d with ⟨r, d'⟩
  cases r <;> rfl

theorem bind_run_ok {m : DiskM α} {f : α → DiskM β} {a : α} {e : Disk}
    (h : m.run.run d = (.ok a, e)) : (m >>= f).run.run d = (f a).run.run e := by
  rw [bind_run, h]

theorem bind_run_error {m : DiskM α} {f : α → DiskM β} {e : DiskError} {d' : Disk}
    (h : m.run.run d = (.error e, d')) : (m >>= f).run.run d = (.error e, d') := by
  rw [bind_run, h]

@[simp] theorem pure_run (a : α) : (pure a : DiskM α).run.run d = (.ok a, d) := rfl

@[simp] theorem throw_run (e : DiskError) : (throw e : DiskM α).run.run d = (.error e, d) := rfl

@[simp] theorem get_run : (get : DiskM Disk).run.run d = (.ok d, d) := rfl

@[simp] theorem modify_run (f : Disk → Disk) :
    (modify f : DiskM PUnit).run.run d = (.ok (), f d) := rfl

@[simp] theorem liftM_run (x : Except DiskError α) :
    (liftM x : DiskM α).run.run d = (x, d) := rfl

theorem outcome_run (step : DiskM α) :
    (outcome step).run.run d = (.ok (step.run.run d).1, (step.run.run d).2) := rfl

end DiskM

namespace Disk

/-- A disk after directories were made at some of the given places. -/
structure Grows (d : Disk) (places : List Place) (d' : Disk) : Prop where
  sound : d.Sound → d'.Sound
  entry : ∀ q, d'.entryAt? q = d.entryAt? q ∨
    (q ∈ places ∧ d.entryAt? q = none ∧ d'.entryAt? q = some .dir)

/-- Whether nothing but directories is at any of the places. -/
def Open (d : Disk) (places : List Place) : Prop :=
  ∀ q ∈ places, d.entryAt? q = none ∨ d.entryAt? q = some .dir

variable {d d' d₁ : Disk} {places : List Place}

theorem Open.noLinks (h : d.Open places) : d.NoLinks places := by
  intro q hq text e
  rcases h q hq with e' | e' <;> simp [e'] at e

theorem Dirs.open_ (h : d.Dirs places) : d.Open places := fun q hq => .inr (h q hq)

namespace Grows

theorem refl (d : Disk) (places : List Place) : d.Grows places d := ⟨id, fun _ => .inl rfl⟩

theorem trans (h : d.Grows places d₁) (h' : d₁.Grows places d') : d.Grows places d' where
  sound := h'.sound ∘ h.sound
  entry q := by
    rcases h'.entry q with e' | ⟨hq, e', e''⟩
    · rw [e']
      exact h.entry q
    · rcases h.entry q with e | ⟨-, -, e⟩
      · exact .inr ⟨hq, e ▸ e', e''⟩
      · rw [e] at e'
        simp at e'

theorem mono {places' : List Place} (h : d.Grows places d') (sub : places ⊆ places') :
    d.Grows places' d' :=
  ⟨h.sound, fun q => (h.entry q).imp_right fun ⟨hq, e⟩ => ⟨sub hq, e⟩⟩

/-- What was there is there still. -/
theorem keeps (h : d.Grows places d') {q : Place} {entry : Entry}
    (e : d.entryAt? q = some entry) : d'.entryAt? q = some entry := by
  rcases h.entry q with e' | ⟨-, e', -⟩
  · rw [e', e]
  · rw [e] at e'
    simp at e'

/-- What is no directory was there before. -/
theorem of_ne_dir (h : d.Grows places d') {q : Place} {entry : Entry} (ne : entry ≠ .dir)
    (e : d'.entryAt? q = some entry) : d.entryAt? q = some entry := by
  rcases h.entry q with e' | ⟨-, -, e'⟩
  · rw [← e', e]
  · rw [e] at e'
    exact absurd (Option.some.inj e') ne

theorem noLinks (h : d.Grows places d') {others : List Place} (hn : d.NoLinks others) :
    d'.NoLinks others :=
  fun q hq text e => hn q hq text (h.of_ne_dir (by simp) e)

theorem open_ (h : d.Grows places d') {others : List Place} (ho : d.Open others) :
    d'.Open others := by
  intro q hq
  rcases h.entry q with e | ⟨-, -, e⟩
  · exact e ▸ ho q hq
  · exact .inr e

theorem open_of_dirs (h : d.Grows places d') {others : List Place} (ho : d'.Dirs others) :
    d.Open others := by
  intro q hq
  rcases h.entry q with e | ⟨-, e, -⟩
  · exact .inr (e ▸ ho q hq)
  · exact .inl e

theorem lands (h : d.Grows places d') {place goal : Place} (hl : d.Lands place goal) :
    d'.Lands place goal := by
  cases hl with
  | here hn => exact .here fun text e => hn text (h.of_ne_dir (by simp) e)
  | beside e hn short end_ =>
    exact .beside (h.keeps e) hn short fun text e' => end_ text (h.of_ne_dir (by simp) e')

theorem leads (h : d.Grows places d') {p : Path} {above : List String} {last : String}
    (hl : d.Leads p above last) : d'.Leads p above last :=
  { hl with noLinks := h.noLinks hl.noLinks }

end Grows

/-! ### Slots -/

theorem checkPath_ne_notFound {p : Path} (h : p.text ≠ "") :
    checkPath p ≠ .error .notFound := by
  unfold checkPath checkSpelling
  have some_ : p.text.isEmpty = false := by simpa using h
  rw [some_]
  split
  · simp [bind, Except.bind]
  · simp only [Bool.false_eq_true, ↓reduceIte, bind, Except.bind]
    split <;> simp [throw, throwThe, MonadExceptOf.throw, pure, Except.pure]

theorem text_ne_empty_of_endsIn {p : Path} {last : String} (h : p.EndsIn last) : p.text ≠ "" := by
  obtain ⟨front, e, ne, -⟩ := h
  intro empty
  have : p.segments = [[]] := by rw [Path.segments, empty]; rfl
  rw [this] at e
  have := congrArg List.getLast? e
  simp only [List.getLast?_singleton, List.getLast?_concat, Option.some.injEq] at this
  exact ne (String.toList_inj.1 this.symm)

theorem slot_eq {p : Path} {above : List String} {last : String} (ends : p.EndsIn last)
    (names : p.names = above ++ [last]) (hn : d.NoLinks (Place.trail [] above)) (dots : DiskError) :
    d.slot dots p = (checkPath p >>= fun _ => d.enter [] above >>= fun here =>
      if last = ".." then .error dots
      else if last.utf8ByteSize > nameLimit then .error .nameTooLong else .ok (here ++ [last])) := by
  obtain ⟨front, e, steps_⟩ := ends.exists_steps
  obtain ⟨-, -, ne, ne'⟩ := ends
  have front_ : properSteps front = above := by
    have names' := properSteps_steps p
    rw [steps_, names] at names'
    simp only [properSteps, List.filter_append] at names' ⊢
    refine List.append_inj_left' names' ?_
    simp [ne, ne']
  have walked : walk d .target linkLimit [] (front ++ [""]) = d.enter [] above := by
    rw [walk_linkLimit, walkWith_dir (by decide) (front_ ▸ hn), front_]
  unfold slot
  simp only [e, List.getLast?_concat, List.dropLast_concat, walked]
  congr 1
  funext _
  congr 1
  funext here
  simp only [ne', false_or]
  by_cases up : last = ".."
  · simp only [up, ↓reduceIte]
    rfl
  · simp only [up, ↓reduceIte]
    by_cases long : last.utf8ByteSize > nameLimit
    · simp only [long, ↓reduceIte]
      rfl
    · simp only [long, ↓reduceIte]
      rfl

theorem enter_of_dirs (sound : d.Sound) {names : List String}
    (short : ∀ n ∈ names, n.utf8ByteSize ≤ nameLimit) (dirs : d.Dirs (Place.trail [] names)) :
    d.enter [] names = .ok (Place.follow [] names) :=
  (enter_eq_ok_iff sound (entryAt?_nil d)).2 ⟨rfl, short, dirs⟩

/-- Where nothing but directories is in the way, names lead to a missing place if anywhere. -/
theorem eq_notFound_of_enter {here : Place} {names : List String} {e : DiskError}
    (short : ∀ n ∈ names, n.utf8ByteSize ≤ nameLimit) (open_ : d.Open (here.trail names))
    (h : d.enter here names = .error e) : e = .notFound := by
  induction names generalizing here with
  | nil => simp [enter] at h
  | cons n ns ih =>
    have short' : ∀ n ∈ ns, n.utf8ByteSize ≤ nameLimit :=
      fun m hm => short m (List.mem_cons_of_mem _ hm)
    have tail : d.Open ((here.step n).trail ns) := fun q hq => open_ q (List.mem_cons_of_mem _ hq)
    unfold enter at h
    by_cases up : n = ".."
    · rw [if_pos up] at h
      rw [Place.step, if_pos up] at tail
      exact ih short' tail h
    · have first := short n List.mem_cons_self
      rw [Place.step_of_ne up] at tail
      rw [if_neg up, if_neg (by omega)] at h
      rcases open_ (here ++ [n]) (by simp [Place.trail, Place.step_of_ne up]) with e' | e'
      · simp only [e', Except.error.injEq] at h
        exact h.symm
      · simp only [e'] at h
        exact ih short' tail h

/-! ### Directories -/

theorem makeDir_run (p : Path) (d : Disk) :
    (DiskM.makeDir p).run.run d = match d.slot .alreadyExists p with
      | .error e => (.error e, d)
      | .ok place =>
        if (d.entryAt? place).isSome then (.error .alreadyExists, d)
        else (.ok (), d.put place .dir) := by
  unfold DiskM.makeDir
  rw [DiskM.bind_run_ok DiskM.get_run]
  cases d.slot .alreadyExists p with
  | error e => rfl
  | ok place =>
    rw [DiskM.bind_run_ok (DiskM.liftM_run _)]
    by_cases there : (d.entryAt? place).isSome
    · simp only [there, ↓reduceIte]
      rfl
    · simp only [there, Bool.false_eq_true, ↓reduceIte]
      rfl

theorem settle_run (p : Path) (result : Except DiskError Unit) (d : Disk) :
    (DiskM.settle p result).run.run d = match result with
      | .ok () => (.ok (), d)
      | .error e => if d.isDir p then (.ok (), d) else (.error e, d) := by
  cases result with
  | ok => rfl
  | error e =>
    unfold DiskM.settle
    rw [DiskM.bind_run_ok DiskM.get_run]
    by_cases dir : d.isDir p = true
    · simp only [dir, ↓reduceIte]
      rfl
    · simp only [dir, Bool.false_eq_true, ↓reduceIte]
      rfl

/-- Making a path a directory, whatever comes of it. -/
theorem settle_makeDir_run (p : Path) (d : Disk) :
    (do DiskM.settle p (← DiskM.outcome (DiskM.makeDir p)) : DiskM Unit).run.run d =
      (DiskM.settle p ((DiskM.makeDir p).run.run d).1).run.run ((DiskM.makeDir p).run.run d).2 :=
  DiskM.bind_run_ok (DiskM.outcome_run _)

section MakeDirs

variable {p : Path} {above : List String} {last : String}

theorem grows_put (h : d.Grows places d') {place : Place} (hp : place ∈ places)
    (none_ : d'.entryAt? place = none) (hn : ∀ n ∈ place, Path.IsName n)
    (dir : d'.entryAt? place.dropLast = some .dir) : d.Grows places (d'.put place .dir) where
  sound hs := (h.sound hs).put hn (by simp [none_]) dir
  entry q := by
    have ne : place ≠ [] := by
      rintro rfl
      simp at none_
    rw [entryAt?_put ne]
    by_cases same : q = place
    · subst same
      rw [if_pos rfl]
      rcases h.entry q with e | ⟨hq, e, -⟩
      · exact .inr ⟨hp, e ▸ none_, rfl⟩
      · exact .inr ⟨hq, e, rfl⟩
    · rw [if_neg same]
      exact h.entry q

/-- Where the way is of directories, a path is made one exactly if it fits and nothing else is
there. -/
theorem settle_makeDir_of_dirs (sound : d.Sound) (ends : p.EndsIn last)
    (names : p.names = above ++ [last]) (hn : d.NoLinks (Place.trail [] p.names))
    (check : checkPath p = .ok ()) (short : ∀ n ∈ above, n.utf8ByteSize ≤ nameLimit)
    (dirs : d.Dirs (Place.trail [] above)) :
    ∃ r d', (DiskM.settle p ((DiskM.makeDir p).run.run d).1).run.run
        ((DiskM.makeDir p).run.run d).2 = (r, d') ∧
      d.Grows (Place.trail [] p.names) d' ∧
      (r = .ok () → p.Fits ∧ d'.Dirs (Place.trail [] p.names)) ∧
      (p.Fits → d.Open (Place.trail [] p.names) → r = .ok ()) := by
  have noLinks : d.NoLinks (Place.trail [] above) := fun q hq => hn q (by simp [names, hq])
  have isDir := isDir_iff sound hn
  have slot := slot_eq ends names noLinks .alreadyExists
  simp only [check, enter_of_dirs sound short dirs, bind, Except.bind] at slot
  -- whatever keeps the directory from being made, there may be one
  have refused {e : DiskError} (run : (DiskM.makeDir p).run.run d = (.error e, d))
      (possible : p.Fits → d.Open (Place.trail [] p.names) → d.Dirs (Place.trail [] p.names)) :
      ∃ r d', (DiskM.settle p ((DiskM.makeDir p).run.run d).1).run.run
          ((DiskM.makeDir p).run.run d).2 = (r, d') ∧
        d.Grows (Place.trail [] p.names) d' ∧
        (r = .ok () → p.Fits ∧ d'.Dirs (Place.trail [] p.names)) ∧
        (p.Fits → d.Open (Place.trail [] p.names) → r = .ok ()) := by
    rw [run, settle_run]
    by_cases dir : d.isDir p = true
    · exact ⟨.ok (), d, if_pos dir, .refl _ _, fun _ => isDir.1 dir, fun _ _ => rfl⟩
    · exact ⟨.error e, d, if_neg dir, .refl _ _, by simp,
        fun fits open_ => absurd (isDir.2 ⟨fits, possible fits open_⟩) dir⟩
  have trail : Place.trail [] p.names = Place.trail [] above ++
      [(Place.follow [] above).step last] := by rw [names, Place.trail_append]; rfl
  by_cases up : last = ".."
  · rw [if_pos up] at slot
    refine refused (by rw [makeDir_run, slot]) fun _ open_ q hq => ?_
    rw [trail, List.mem_append, List.mem_singleton] at hq
    rcases hq with hq | rfl
    · exact dirs q hq
    · rw [Place.step, if_pos up]
      refine sound.dir_dropLast ?_
      by_cases nil : above = []
      · rw [nil]; rfl
      · exact dirs _ (Place.follow_mem_trail nil)
  · rw [if_neg up] at slot
    have dir_above : d.entryAt? (Place.follow [] above) = some .dir := by
      by_cases nil : above = []
      · rw [nil]; rfl
      · exact dirs _ (Place.follow_mem_trail nil)
    rw [Place.step_of_ne up] at trail
    by_cases long : last.utf8ByteSize > nameLimit
    · rw [if_pos long] at slot
      refine refused (by rw [makeDir_run, slot]) fun fits => ?_
      have := fits.short last (by simp [names])
      omega
    · rw [if_neg long] at slot
      cases e : d.entryAt? (Place.follow [] above ++ [last]) with
      | some entry =>
        refine refused (e := .alreadyExists) (by rw [makeDir_run, slot]; simp [e]) fun _ open_ q hq => ?_
        rw [trail, List.mem_append, List.mem_singleton] at hq
        rcases hq with hq | rfl
        · exact dirs q hq
        · exact (open_ _ (by simp [trail])).resolve_left (by simp [e])
      | none =>
        have run : (DiskM.makeDir p).run.run d =
            (.ok (), d.put (Place.follow [] above ++ [last]) .dir) := by
          rw [makeDir_run, slot]
          simp [e]
        have grows : d.Grows (Place.trail [] p.names)
            (d.put (Place.follow [] above ++ [last]) .dir) := by
          refine grows_put (.refl _ _) (by simp [trail]) e ?_ (by simpa using dir_above)
          simp only [List.mem_append, List.mem_singleton]
          rintro n (hn | rfl)
          · exact sound.isName_of_entry dir_above n hn
          · exact ends.isName up
        refine ⟨.ok (), _, by rw [run, settle_run], grows, fun _ => ⟨⟨check, ?_⟩, fun q hq => ?_⟩,
          fun _ _ => rfl⟩
        · rw [names]
          simp only [List.mem_append, List.mem_singleton]
          rintro n (hn | rfl)
          · exact short n hn
          · omega
        · rw [trail, List.mem_append, List.mem_singleton] at hq
          rcases hq with hq | rfl
          · exact grows.keeps (dirs q hq)
          · exact entryAt?_put_self (by simp)

theorem utf8ByteSize_le_of_isPrefix {s t : String} (h : s.toList <+: t.toList) :
    s.utf8ByteSize ≤ t.utf8ByteSize := by
  obtain ⟨rest, e⟩ := h
  have text : t = s ++ String.ofList rest := String.toList_inj.1 (by simp [e])
  rw [text, String.utf8ByteSize_append]
  omega

/-- A path that begins a path that operations take is taken too. -/
theorem checkPath_of_isPrefix {q : Path} (h : q.text.toList <+: p.text.toList) (ne : q.text ≠ "")
    (check : checkPath p = .ok ()) : checkPath q = .ok () := by
  have size := utf8ByteSize_le_of_isPrefix h
  obtain ⟨rest, e⟩ := h
  have some_ : q.text.isEmpty = false := by simpa using ne
  unfold checkPath checkSpelling at check ⊢
  by_cases zero : '\x00' ∈ p.text.toList
  · simp [zero, bind, Except.bind] at check
  · have zero' : '\x00' ∉ q.text.toList := fun h => zero (by simp [← e, h])
    by_cases long : p.text.utf8ByteSize > pathLimit
    · cases empty : p.text.isEmpty <;>
        simp [zero, long, empty, bind, Except.bind, throw, throwThe, MonadExceptOf.throw] at check
    · have short : ¬ q.text.utf8ByteSize > pathLimit := by omega
      simp [zero', some_, short, bind, Except.bind, pure, Except.pure]

/-- Making directories up to a path adds none but on its trail, and succeeds exactly if the path
fits and nothing else is there. -/
theorem makeDirsUp_spec {names : List String} (hne : names ≠ []) :
    ∀ {p : Path} {bound : Nat} {d : Disk}, p.names = names →
      (∀ front last, names = front ++ [last] → p.EndsIn last) → names.length ≤ bound → d.Sound →
      d.NoLinks (Place.trail [] names) →
      ∃ r d', (DiskM.makeDirsUp bound p).run.run d = (r, d') ∧ d.Grows (Place.trail [] names) d' ∧
        (r = .ok () → p.Fits ∧ d'.Dirs (Place.trail [] names)) ∧
        (p.Fits → d.Open (Place.trail [] names) → r = .ok ()) := by
  induction names using List.reverseRecOn with
  | nil => exact absurd rfl hne
  | append_singleton above last ih =>
    intro p bound d names ends enough sound hn
    have ends := ends above last rfl
    obtain ⟨bound, rfl⟩ : ∃ b, bound = b + 1 := ⟨bound - 1, by simp at enough; omega⟩
    obtain ⟨up, parent, names_up, ends_up, prefix_up⟩ := ends.exists_parent?
    have names_above : up.names = above := by
      rw [names] at names_up
      exact (List.append_inj_left' names_up rfl).symm
    have noLinks : d.NoLinks (Place.trail [] above) := fun q hq => hn q (by simp [hq])
    have isDir := isDir_iff sound (p := p) (by rwa [names])
    rw [names] at isDir
    -- what is no success of the first attempt is final unless something above is missing
    have final {e : DiskError} (ne : e ≠ .notFound)
        (run : (DiskM.makeDir p).run.run d = (.error e, d))
        (impossible : p.Fits → ¬ d.Open (Place.trail [] (above ++ [last]))) :
        ∃ r d', (DiskM.makeDirsUp (bound + 1) p).run.run d = (r, d') ∧
          d.Grows (Place.trail [] (above ++ [last])) d' ∧
          (r = .ok () → p.Fits ∧ d'.Dirs (Place.trail [] (above ++ [last]))) ∧
          (p.Fits → d.Open (Place.trail [] (above ++ [last])) → r = .ok ()) := by
      have notDir : ¬ d.isDir p = true := fun h =>
        impossible (isDir.1 h).1 (isDir.1 h).2.open_
      refine ⟨.error e, d, ?_, .refl _ _, by simp, fun fits open_ => absurd open_ (impossible fits)⟩
      rw [DiskM.makeDirsUp, DiskM.bind_run_ok (DiskM.outcome_run _), run, parent]
      have settled : (DiskM.settle p (.error e)).run.run d = (.error e, d) := by
        rw [settle_run]
        exact if_neg notDir
      cases e <;> first | exact absurd rfl ne | exact settled
    cases check : checkPath p with
    | error e =>
      refine final (fun h => checkPath_ne_notFound (text_ne_empty_of_endsIn ends) (h ▸ check)) ?_
        fun fits => absurd fits.check (by simp [check])
      rw [makeDir_run, slot_eq ends names noLinks, check]
      rfl
    | ok =>
      have slot := slot_eq ends names noLinks .alreadyExists
      simp only [check, bind, Except.bind] at slot
      cases walked : d.enter [] above with
      | ok here =>
        obtain ⟨-, short, dirs⟩ := (enter_eq_ok_iff sound (entryAt?_nil d)).1 walked
        obtain ⟨r, d', run, spec⟩ := settle_makeDir_of_dirs sound ends names (by rwa [names]) check
          short dirs
        rw [names] at spec
        refine ⟨r, d', ?_, spec⟩
        rw [DiskM.makeDirsUp, DiskM.bind_run_ok (DiskM.outcome_run _), ← run]
        have found : ∀ e, ((DiskM.makeDir p).run.run d).1 = .error e → e ≠ .notFound := by
          intro e
          rw [makeDir_run, slot, walked]
          dsimp only
          by_cases up : last = ".."
          · simp only [up, ↓reduceIte, Except.error.injEq]
            rintro rfl
            simp
          · by_cases long : last.utf8ByteSize > nameLimit
            · simp only [up, long, ↓reduceIte, Except.error.injEq]
              rintro rfl
              simp
            · simp only [up, long, ↓reduceIte]
              split
              · simp only [Except.error.injEq]
                rintro rfl
                simp
              · simp
        cases made : ((DiskM.makeDir p).run.run d).1 with
        | ok => rfl
        | error e =>
          have ne := found e made
          cases e <;> first | exact absurd rfl ne | rfl
      | error e =>
        have run : (DiskM.makeDir p).run.run d = (.error e, d) := by
          rw [makeDir_run, slot, walked]
        by_cases missing : e = .notFound
        · subst missing
          have some_ : above ≠ [] := by
            rintro rfl
            simp [enter] at walked
          have up_text : up.text ≠ "" := by
            obtain ⟨front, last', e⟩ := (List.eq_nil_or_concat' above).resolve_left some_
            exact text_ne_empty_of_endsIn (ends_up front last' (names_above.trans e))
          have up_fits (fits : p.Fits) : up.Fits :=
            ⟨checkPath_of_isPrefix prefix_up up_text fits.check,
              fun n hn => fits.short n (by simp [names, ← names_above, hn])⟩
          have sub : Place.trail [] above ⊆ Place.trail [] (above ++ [last]) := by
            intro q hq
            simp [hq]
          obtain ⟨r₁, d₁, run₁, grows₁, ok₁, made₁⟩ := ih some_ names_above
            (fun front last' e => ends_up front last' (names_above.trans e))
            (by simpa using enough) sound noLinks
          have whole : (DiskM.makeDirsUp (bound + 1) p).run.run d =
              (do
                DiskM.makeDirsUp bound up
                DiskM.settle p (← DiskM.outcome (DiskM.makeDir p)) : DiskM Unit).run.run d := by
            rw [DiskM.makeDirsUp, DiskM.bind_run_ok (DiskM.outcome_run _), run, parent]
          cases r₁ with
          | error e₁ =>
            refine ⟨.error e₁, d₁, whole.trans (DiskM.bind_run_error run₁), grows₁.mono sub, by simp,
              fun fits open_ => ?_⟩
            exact made₁ (up_fits fits) fun q hq => open_ q (sub hq)
          | ok =>
            obtain ⟨fits₁, dirs₁⟩ := ok₁ rfl
            obtain ⟨r, d', run', grows, ok, made⟩ := settle_makeDir_of_dirs (grows₁.sound sound) ends
              names (grows₁.noLinks (by rwa [names])) check
              (fun n hn => fits₁.short n (names_above ▸ hn)) dirs₁
            rw [names] at grows ok made
            refine ⟨r, d', ?_, (grows₁.mono sub).trans grows, ok, fun fits open_ => ?_⟩
            · rw [whole, DiskM.bind_run_ok run₁, settle_makeDir_run, run']
            · exact made fits (grows₁.open_ open_)
        · refine final missing run fun fits open_ => missing ?_
          refine eq_notFound_of_enter (fun n hn => fits.short n ?_) (fun q hq => open_ q ?_) walked
          · simp [names, hn]
          · simp [hq]

/-- Making the directories above a path adds none but on the way to it, and succeeds for a path
that fits if nothing else is there. -/
theorem makeParents_spec (leads : d.Leads p above last) (some_ : above ≠ []) (sound : d.Sound) :
    ∃ r d', (DiskM.makeParents p).run.run d = (r, d') ∧ d.Grows (Place.trail [] above) d' ∧
      (r = .ok () → d'.Dirs (Place.trail [] above)) ∧
      (p.Fits → d.Open (Place.trail [] above) → r = .ok ()) := by
  obtain ⟨up, parent, names_up, ends_up, prefix_up⟩ := leads.ends.exists_parent?
  have names : up.names = above := by
    rw [leads.names] at names_up
    exact (List.append_inj_left' names_up rfl).symm
  have ends (front : List String) (last' : String) (e : above = front ++ [last']) :
      up.EndsIn last' := ends_up front last' (names.trans e)
  have text : up.text ≠ "" := by
    obtain ⟨front, last', e⟩ := (List.eq_nil_or_concat' above).resolve_left some_
    exact text_ne_empty_of_endsIn (ends front last' e)
  have enough : above.length ≤ up.segments.length := names ▸ up.length_names_le
  obtain ⟨r, d', run, grows, ok, made⟩ := makeDirsUp_spec some_ names ends enough sound leads.noLinks
  refine ⟨r, d', ?_, grows, fun e => (ok e).2, fun fits => made ⟨?_, fun n hn => ?_⟩⟩
  · rw [DiskM.makeParents, parent]
    dsimp only
    rw [DiskM.makeDirs, if_neg text, run]
  · exact checkPath_of_isPrefix prefix_up text fits.check
  · exact fits.short n (by simp [leads.names, ← names, hn])

/-! ### Files -/

/-- Whether a file can be written at a place, by a path that leads there over the given names. -/
structure Writable (d : Disk) (p : Path) (above : List String) (goal : Place) : Prop where
  fits : p.Fits
  dirs : d.Dirs (Place.trail [] above)
  ne_dir : d.entryAt? goal ≠ some .dir

theorem placeToWrite_eq_ok_iff (leads : d.Leads p above last) (sound : d.Sound) {goal q : Place}
    (lands : d.Lands (Place.follow [] p.names) goal) :
    d.placeToWrite p = .ok q ↔ q = goal ∧ d.Writable p above goal := by
  have located {q : Place} :=
    leads.locate_eq_ok_iff (q := q) sound (show Aim.output ≠ .entry by decide) lands
  unfold placeToWrite
  cases e : d.locate .output p with
  | error e' =>
    simp only [bind, Except.bind, reduceCtorEq, false_iff]
    rintro ⟨rfl, fits, dirs, -⟩
    rw [e] at located
    exact absurd (located.2 ⟨rfl, fits, dirs⟩) (by simp)
  | ok q' =>
    obtain ⟨rfl, fits, dirs⟩ := located.1 e
    simp only [bind, Except.bind]
    constructor
    · intro e
      split at e
      · simp [throw, throwThe, MonadExceptOf.throw] at e
      · exact ⟨(Except.ok.inj e).symm, fits, dirs, ‹_›⟩
    · rintro ⟨rfl, -, -, ne⟩
      split
      · exact absurd ‹_› ne
      · rfl

theorem write_of_writable (leads : d.Leads p above last) (sound : d.Sound) {goal : Place}
    (lands : d.Lands (Place.follow [] p.names) goal) (writable : d.Writable p above goal)
    (bytes : ByteArray) :
    (DiskM.write p bytes).run.run d = (.ok (), d.put goal (.file bytes)) := by
  have place := (placeToWrite_eq_ok_iff leads sound lands).2 ⟨rfl, writable⟩
  unfold DiskM.write
  rw [DiskM.bind_run_ok DiskM.get_run, place]
  rfl

theorem write_of_not_writable (leads : d.Leads p above last) (sound : d.Sound) {goal : Place}
    (lands : d.Lands (Place.follow [] p.names) goal) (not_ : ¬ d.Writable p above goal)
    (bytes : ByteArray) : ∃ e, (DiskM.write p bytes).run.run d = (.error e, d) := by
  unfold DiskM.write
  rw [DiskM.bind_run_ok DiskM.get_run]
  cases place : d.placeToWrite p with
  | ok q => exact absurd ((placeToWrite_eq_ok_iff leads sound lands).1 place).2 not_
  | error e => exact ⟨e, rfl⟩

theorem put_put (d : Disk) (place : Place) (entry entry' : Entry) :
    (d.put place entry).put place entry' = d.put place entry' := by
  simp [put, List.filter_filter]

theorem put_remove (d : Disk) (place : Place) (entry : Entry) :
    (d.remove place).put place entry = d.put place entry := by
  simp [put, remove, List.filter_filter]

/-- Whether a file can be put at a place, by a path that leads there over the given names, once the
directories on the way are made. -/
structure Savable (d : Disk) (p : Path) (above : List String) (goal : Place) : Prop where
  fits : p.Fits
  open_ : d.Open (Place.trail [] above)
  /-- None of these directories is at the place itself. -/
  free : goal ∉ Place.trail [] above
  ne_dir : d.entryAt? goal ≠ some .dir

/-- What comes of a step that makes the directories above a path and then puts an entry at a place,
if it can. -/
inductive Saved (d : Disk) (p : Path) (above : List String) (goal : Place) (entry : Entry) :
    Except DiskError Unit × Disk → Prop
  | done {made : Disk} (savable : d.Savable p above goal)
      (grows : d.Grows (Place.trail [] above) made) (dirs : made.Dirs (Place.trail [] above)) :
      Saved d p above goal entry (.ok (), made.put goal entry)
  | refused {e : DiskError} {made : Disk} (not_ : ¬ d.Savable p above goal)
      (grows : d.Grows (Place.trail [] above) made) : Saved d p above goal entry (.error e, made)

theorem Grows.entryAt?_eq (h : d.Grows places d') {q : Place} (hq : q ∉ places) :
    d'.entryAt? q = d.entryAt? q :=
  (h.entry q).resolve_right fun h => hq h.1

/-- A step after the making of directories saves if it can write and does nothing otherwise. -/
theorem saved_of_step (leads : d.Leads p above last) (some_ : above ≠ []) (sound : d.Sound)
    {goal : Place} {entry : Entry} {s : DiskM Unit}
    (yes : ∀ d₁, d.Grows (Place.trail [] above) d₁ → d₁.Writable p above goal →
      s.run.run d₁ = (.ok (), d₁.put goal entry))
    (no : ∀ d₁, d.Grows (Place.trail [] above) d₁ → d₁.Dirs (Place.trail [] above) →
      ¬ d₁.Writable p above goal → ∃ e, s.run.run d₁ = (.error e, d₁)) :
    Saved d p above goal entry ((do DiskM.makeParents p; s : DiskM Unit).run.run d) := by
  obtain ⟨r, d₁, run, grows, dirs, made⟩ := makeParents_spec leads some_ sound
  cases r with
  | error e =>
    rw [DiskM.bind_run_error run]
    exact .refused (fun h => by simpa using made h.fits h.open_) grows
  | ok =>
    rw [DiskM.bind_run_ok run]
    by_cases writable : d₁.Writable p above goal
    · have free : goal ∉ Place.trail [] above := fun h => writable.ne_dir (dirs rfl goal h)
      have ne := grows.entryAt?_eq free ▸ writable.ne_dir
      rw [yes d₁ grows writable]
      exact .done ⟨writable.fits, grows.open_of_dirs (dirs rfl), free, ne⟩ grows (dirs rfl)
    · obtain ⟨e, run'⟩ := no d₁ grows (dirs rfl) writable
      rw [run']
      exact .refused (fun h => writable ⟨h.fits, dirs rfl, (grows.entryAt?_eq h.free).symm ▸ h.ne_dir⟩)
        grows

/-- Writing a file, with the directories above it. -/
theorem saved_write (leads : d.Leads p above last) (some_ : above ≠ []) (sound : d.Sound)
    {goal : Place} (lands : d.Lands (Place.follow [] p.names) goal) (bytes : ByteArray) :
    Saved d p above goal (.file bytes)
      ((do DiskM.makeParents p; DiskM.write p bytes : DiskM Unit).run.run d) :=
  saved_of_step leads some_ sound
    (fun _ grows writable =>
      write_of_writable (grows.leads leads) (grows.sound sound) (grows.lands lands) writable bytes)
    fun _ grows _ not_ => write_of_not_writable (grows.leads leads) (grows.sound sound)
      (grows.lands lands) not_ bytes

/-- Writing a file where the directories above it are there. -/
theorem saved_write_of_dirs (leads : d.Leads p above last) (sound : d.Sound) {goal : Place}
    (lands : d.Lands (Place.follow [] p.names) goal) (dirs : d.Dirs (Place.trail [] above))
    (bytes : ByteArray) :
    Saved d p above goal (.file bytes) ((DiskM.write p bytes).run.run d) := by
  by_cases writable : d.Writable p above goal
  · rw [write_of_writable leads sound lands writable]
    exact .done ⟨writable.fits, dirs.open_, fun h => writable.ne_dir (dirs goal h),
      writable.ne_dir⟩ (.refl d _) dirs
  · obtain ⟨e, run⟩ := write_of_not_writable leads sound lands writable bytes
    rw [run]
    exact .refused (fun h => writable ⟨h.fits, dirs, h.ne_dir⟩) (.refl d _)

theorem Sound.follow_dir (dirs : d.Dirs (Place.trail [] above)) :
    d.entryAt? (Place.follow [] above) = some .dir := by
  by_cases nil : above = []
  · rw [nil]; rfl
  · exact dirs _ (Place.follow_mem_trail nil)

/-- A link that is followed or a file at a place can be replaced by a file where it leads. -/
theorem sound_put_goal (leads : d.Leads p above last) (sound : d.Sound) {goal : Place}
    (lands : d.Lands (Place.follow [] p.names) goal) (dirs : d.Dirs (Place.trail [] above))
    (ne : d.entryAt? goal ≠ some .dir) (entry : Entry) : (d.put goal entry).Sound := by
  have dir := Sound.follow_dir dirs
  rw [leads.follow_names] at lands
  generalize e : Place.follow [] above ++ [last] = place at lands
  cases lands with
  | here hn =>
    subst e
    refine sound.put ?_ ne (by simpa using dir)
    simp only [List.mem_append, List.mem_singleton]
    rintro n (hn | rfl)
    · exact sound.isName_of_entry dir n hn
    · exact leads.ends.isName leads.ne_up
  | @beside above' name text h hn short end_ =>
    obtain ⟨rfl, rfl⟩ : Place.follow [] above = above' ∧ last = name := by simpa using e
    refine sound.put ?_ ne (by simpa using dir)
    simp only [List.mem_append, List.mem_singleton]
    rintro n (hn' | rfl)
    · exact sound.isName_of_entry dir n hn'
    · exact hn

/-- A file whose bytes are read elsewhere is read as before. -/
theorem readBytes_put {q : Path} {front : List String} {final : String}
    (leads : d.Leads q front final) (sound : d.Sound)
    (plain : ∀ text, d.entryAt? (Place.follow [] q.names) ≠ some (.link text)) {bytes : ByteArray}
    (read : d.readBytes q = .ok bytes) {goal : Place} (hg : goal ≠ Place.follow [] q.names)
    (ne : d.entryAt? goal ≠ some .dir) {bytes' : ByteArray}
    (sound' : (d.put goal (.file bytes')).Sound) :
    (d.put goal (.file bytes')).readBytes q = .ok bytes := by
  obtain ⟨fits, dirs, file⟩ := (leads.readBytes_eq_ok_iff sound (.here plain)).1 read
  have root : goal ≠ [] := by
    rintro rfl
    exact ne rfl
  have elsewhere : (d.put goal (.file bytes')).entryAt? (Place.follow [] q.names) =
      d.entryAt? (Place.follow [] q.names) := entryAt?_put_of_ne root hg.symm
  have dirs' : (d.put goal (.file bytes')).Dirs (Place.trail [] front) := by
    intro q hq
    rw [entryAt?_put_of_ne root]
    · exact dirs q hq
    · rintro rfl
      exact ne (dirs q hq)
  have leads' : (d.put goal (.file bytes')).Leads q front final :=
    { leads with noLinks := dirs'.noLinks }
  refine (leads'.readBytes_eq_ok_iff sound' (.here ?_)).2 ⟨fits, dirs', elsewhere.trans file⟩
  rw [elsewhere]
  exact plain

/-- A path that leads to a place leads there when a file is written at it. -/
theorem Leads.put (leads : d.Leads p above last) {goal : Place}
    (ne : d.entryAt? goal ≠ some .dir) (dirs : d.Dirs (Place.trail [] above)) (bytes : ByteArray) :
    (d.put goal (.file bytes)).Leads p above last ∧
      (d.put goal (.file bytes)).Dirs (Place.trail [] above) := by
  have root : goal ≠ [] := by
    rintro rfl
    exact ne rfl
  have dirs' : (d.put goal (.file bytes)).Dirs (Place.trail [] above) := by
    intro q hq
    rw [entryAt?_put_of_ne root]
    · exact dirs q hq
    · rintro rfl
      exact ne (dirs q hq)
  exact ⟨{ leads with noLinks := dirs'.noLinks }, dirs'⟩

theorem Lands.put {place goal : Place} (lands : d.Lands place goal)
    (ne : d.entryAt? goal ≠ some .dir) (bytes : ByteArray) :
    (d.put goal (.file bytes)).Lands place goal := by
  have root : goal ≠ [] := by
    rintro rfl
    exact ne rfl
  cases lands with
  | here h => exact .here fun text => by simp [entryAt?_put_self root]
  | @beside above name text h hn short end_ =>
    refine .beside ?_ hn short fun text' => by simp [entryAt?_put_self root]
    rw [entryAt?_put_of_ne root]
    · exact h
    · rintro e
      rw [e] at h
      exact end_ _ h

/-- Copying a file, with the directories above the copy. -/
theorem saved_copy (leads : d.Leads p above last) (some_ : above ≠ []) (sound : d.Sound)
    {goal : Place} (lands : d.Lands (Place.follow [] p.names) goal)
    {source : Path} {front : List String} {final : String}
    (leads' : d.Leads source front final)
    (plain : ∀ text, d.entryAt? (Place.follow [] source.names) ≠ some (.link text))
    {bytes : ByteArray} (read : d.readBytes source = .ok bytes)
    (apart : goal ≠ Place.follow [] source.names) :
    Saved d p above goal (.file bytes)
      ((do DiskM.makeParents p; DiskM.copy source p : DiskM Unit).run.run d) := by
  obtain ⟨fits, dirs, file⟩ := (leads'.readBytes_eq_ok_iff sound (.here plain)).1 read
  -- the source is read alike on the way
  have read₁ {d₁ : Disk} (grows : d.Grows (Place.trail [] above) d₁) :
      d₁.readBytes source = .ok bytes :=
    ((grows.leads leads').readBytes_eq_ok_iff (grows.sound sound)
      (.here fun text e => plain text (grows.of_ne_dir (by simp) e))).2
        ⟨fits, fun q hq => grows.keeps (dirs q hq), grows.keeps file⟩
  have plain₁ {d₁ : Disk} (grows : d.Grows (Place.trail [] above) d₁) (text : String) :
      d₁.entryAt? (Place.follow [] source.names) ≠ some (.link text) :=
    fun e => plain text (grows.of_ne_dir (by simp) e)
  refine saved_of_step leads some_ sound (fun d₁ grows writable => ?_)
    (fun d₁ grows dirs₁ not_ => ?_)
  · have sound₁ := grows.sound sound
    have leads₁ := grows.leads leads
    have lands₁ := grows.lands lands
    have sound₂ := sound_put_goal leads₁ sound₁ lands₁ writable.dirs writable.ne_dir
      (.file ByteArray.empty)
    have read₂ := readBytes_put (grows.leads leads') sound₁ (plain₁ grows) (read₁ grows) apart
      writable.ne_dir sound₂
    obtain ⟨leads₂, dirs₂⟩ := leads₁.put writable.ne_dir writable.dirs ByteArray.empty
    have root : goal ≠ [] := by
      rintro rfl
      exact writable.ne_dir rfl
    have first := write_of_writable leads₁ sound₁ lands₁ writable ByteArray.empty
    have second := write_of_writable leads₂ sound₂ (lands₁.put writable.ne_dir _)
      ⟨writable.fits, dirs₂, by simp [entryAt?_put_self root]⟩ bytes
    have empty : (d₁.readBytes source) = .ok bytes := read₁ grows
    unfold DiskM.copy
    rw [DiskM.bind_run_ok DiskM.get_run, DiskM.bind_run_ok (a := bytes) (e := d₁)
      (by rw [DiskM.liftM_run, empty]), DiskM.bind_run_ok first, DiskM.bind_run_ok DiskM.get_run,
      DiskM.bind_run_ok (a := bytes) (e := d₁.put goal (.file ByteArray.empty))
      (by rw [DiskM.liftM_run, read₂]), second, put_put]
  · obtain ⟨e, run⟩ := write_of_not_writable (grows.leads leads) (grows.sound sound)
      (grows.lands lands) not_ ByteArray.empty
    refine ⟨e, ?_⟩
    unfold DiskM.copy
    rw [DiskM.bind_run_ok DiskM.get_run, DiskM.bind_run_ok (a := bytes) (e := d₁)
      (by rw [DiskM.liftM_run, read₁ grows])]
    exact DiskM.bind_run_error run

/-- Copying a file of which nothing is known: if it does anything but make directories, it leaves a
file. -/
theorem copy_cases (leads : d.Leads p above last) (some_ : above ≠ []) (sound : d.Sound)
    {goal : Place} (lands : d.Lands (Place.follow [] p.names) goal) (source : Path) :
    ∃ r d' made, (do DiskM.makeParents p; DiskM.copy source p : DiskM Unit).run.run d = (r, d') ∧
      d.Grows (Place.trail [] above) made ∧
      (d' = made ∨ made.Writable p above goal ∧ ∃ bytes, d' = made.put goal (.file bytes)) := by
  obtain ⟨r, made, run, grows, -⟩ := makeParents_spec leads some_ sound
  cases r with
  | error e => exact ⟨_, made, made, DiskM.bind_run_error run, grows, .inl rfl⟩
  | ok =>
    rw [DiskM.bind_run_ok run]
    unfold DiskM.copy
    rw [DiskM.bind_run_ok DiskM.get_run]
    have sound₁ := grows.sound sound
    have leads₁ := grows.leads leads
    have lands₁ := grows.lands lands
    cases read : made.readBytes source with
    | error e => exact ⟨_, made, made, rfl, grows, .inl rfl⟩
    | ok first =>
      rw [DiskM.bind_run_ok (DiskM.liftM_run _)]
      by_cases writable : made.Writable p above goal
      · have root : goal ≠ [] := by
          rintro rfl
          exact writable.ne_dir rfl
        have sound₂ := sound_put_goal leads₁ sound₁ lands₁ writable.dirs writable.ne_dir
          (.file ByteArray.empty)
        obtain ⟨leads₂, dirs₂⟩ := leads₁.put writable.ne_dir writable.dirs ByteArray.empty
        rw [DiskM.bind_run_ok (write_of_writable leads₁ sound₁ lands₁ writable ByteArray.empty),
          DiskM.bind_run_ok DiskM.get_run]
        cases again : (made.put goal (.file ByteArray.empty)).readBytes source with
        | error e =>
          exact ⟨_, _, made, DiskM.bind_run_error (DiskM.liftM_run _), grows,
            .inr ⟨writable, _, rfl⟩⟩
        | ok bytes =>
          rw [DiskM.bind_run_ok (DiskM.liftM_run _),
            write_of_writable leads₂ sound₂ (lands₁.put writable.ne_dir _)
              ⟨writable.fits, dirs₂, by simp [entryAt?_put_self root]⟩ bytes, put_put]
          exact ⟨_, _, made, rfl, grows, .inr ⟨writable, bytes, rfl⟩⟩
      · obtain ⟨e, refused⟩ := write_of_not_writable leads₁ sound₁ lands₁ writable ByteArray.empty
        exact ⟨_, made, made, DiskM.bind_run_error refused, grows, .inl rfl⟩

/-! ### Links -/

theorem endsInSlash_eq_false (ends : p.EndsIn last) : endsInSlash p = false := by
  obtain ⟨front, e, ne, -⟩ := ends
  rw [endsInSlash, beq_eq_false_iff_ne]
  intro slash
  obtain ⟨cs, text⟩ := List.getLast?_eq_some_iff.1 slash
  rw [Path.segments, text, Text.cutAt_append_cons (by simp)] at e
  have := congrArg List.getLast? e
  simp only [Text.cutAt, List.getLast?_concat, Option.some.injEq] at this
  exact ne (String.toList_inj.1 this.symm)

theorem slot_eq_ok_iff (leads : d.Leads p above last) (sound : d.Sound) {dots : DiskError}
    {q : Place} (dirs : d.Dirs (Place.trail [] above)) :
    d.slot dots p = .ok q ↔ q = Place.follow [] p.names ∧ p.Fits := by
  rw [slot_eq leads.ends leads.names leads.noLinks, leads.follow_names]
  constructor
  · intro e
    cases check : checkPath p with
    | error e' => simp [check, bind, Except.bind] at e
    | ok =>
      cases walked : d.enter [] above with
      | error e' => simp [check, walked, bind, Except.bind] at e
      | ok here =>
        obtain ⟨rfl, short, -⟩ := (enter_eq_ok_iff sound (entryAt?_nil d)).1 walked
        simp only [check, walked, bind, Except.bind, leads.ne_up, ↓reduceIte] at e
        split at e
        · simp at e
        · refine ⟨(Except.ok.inj e).symm, check, ?_⟩
          rw [leads.names]
          simp only [List.mem_append, List.mem_singleton]
          rintro n (hn | rfl)
          · exact short n hn
          · omega
  · rintro ⟨rfl, check, short⟩
    rw [leads.names] at short
    have last_ := short last (by simp)
    simp only [check, enter_of_dirs sound (fun n hn => short n (List.mem_append_left _ hn)) dirs,
      bind, Except.bind, leads.ne_up, ↓reduceIte]
    rw [if_neg (by omega)]

theorem symlink_run {text : Path} (check : checkPath text = .ok ()) (leads : d.Leads p above last)
    (sound : d.Sound) (dirs : d.Dirs (Place.trail [] above)) (fits : p.Fits)
    (none_ : d.entryAt? (Place.follow [] p.names) = none) :
    (DiskM.symlink text p).run.run d =
      (.ok (), d.put (Place.follow [] p.names) (.link text.text)) := by
  have slot : d.slot .alreadyExists p = .ok (Place.follow [] p.names) :=
    (slot_eq_ok_iff leads sound dirs).2 ⟨rfl, fits⟩
  unfold DiskM.symlink
  rw [DiskM.bind_run_ok (a := ()) (e := d) (by rw [DiskM.liftM_run, check]),
    DiskM.bind_run_ok DiskM.get_run, DiskM.bind_run_ok (a := Place.follow [] p.names) (e := d)
      (by rw [DiskM.liftM_run, slot])]
  simp only [none_, Option.isSome_none, Bool.false_eq_true, ↓reduceIte,
    endsInSlash_eq_false leads.ends]
  rfl

theorem symlink_error {text : Path} (check : checkPath text = .ok ())
    (leads : d.Leads p above last) (sound : d.Sound) (dirs : d.Dirs (Place.trail [] above))
    (not_ : ¬ p.Fits) : ∃ e, (DiskM.symlink text p).run.run d = (.error e, d) := by
  unfold DiskM.symlink
  rw [DiskM.bind_run_ok (a := ()) (e := d) (by rw [DiskM.liftM_run, check]),
    DiskM.bind_run_ok DiskM.get_run]
  cases slot : d.slot .alreadyExists p with
  | ok q => exact absurd ((slot_eq_ok_iff leads sound dirs).1 slot).2 not_
  | error e => exact ⟨e, rfl⟩

theorem unlink_run (leads : d.Leads p above last) (sound : d.Sound)
    (dirs : d.Dirs (Place.trail [] above)) (fits : p.Fits) {entry : Entry}
    (there : d.entryAt? (Place.follow [] p.names) = some entry) :
    (DiskM.unlink p).run.run d =
      if entry = .dir then (.error .isDirectory, d)
      else (.ok (), d.remove (Place.follow [] p.names)) := by
  have slot : d.slot .isDirectory p = .ok (Place.follow [] p.names) :=
    (slot_eq_ok_iff leads sound dirs).2 ⟨rfl, fits⟩
  unfold DiskM.unlink
  rw [DiskM.bind_run_ok DiskM.get_run, DiskM.bind_run_ok (a := Place.follow [] p.names) (e := d)
      (by rw [DiskM.liftM_run, slot]), there]
  cases entry with
  | dir => rfl
  | file bytes =>
    simp only [endsInSlash_eq_false leads.ends, Bool.false_eq_true, ↓reduceIte, reduceCtorEq]
    rfl
  | link text =>
    simp only [endsInSlash_eq_false leads.ends, Bool.false_eq_true, ↓reduceIte, reduceCtorEq]
    rfl

/-- Making a path a link, with the directories above it. -/
theorem saved_replaceLink (leads : d.Leads p above last) (some_ : above ≠ []) (sound : d.Sound)
    {text : Path} (check : checkPath text = .ok ()) :
    Saved d p above (Place.follow [] p.names) (.link text.text)
      ((DiskM.replaceLink text p).run.run d) := by
  unfold DiskM.replaceLink
  refine saved_of_step leads some_ sound (fun d₁ grows writable => ?_)
    (fun d₁ grows dirs₁ not_ => ?_)
  · have sound₁ := grows.sound sound
    have leads₁ := grows.leads leads
    have located := (leads₁.locate_entry_eq_ok_iff sound₁).2 ⟨rfl, writable.fits, writable.dirs⟩
    rw [DiskM.bind_run_ok DiskM.get_run]
    cases there : d₁.entryAt? (Place.follow [] p.names) with
    | none =>
      have lstat : d₁.lstat p = .error .notFound := by
        simp [lstat, located, entryThere, there, bind, Except.bind]
      rw [lstat]
      exact symlink_run check leads₁ sound₁ writable.dirs writable.fits there
    | some entry =>
      have lstat : d₁.lstat p = .ok entry := by
        simp [lstat, located, entryThere, there, bind, Except.bind]
      have ne : entry ≠ .dir := by
        rintro rfl
        exact writable.ne_dir there
      have gone := unlink_run leads₁ sound₁ writable.dirs writable.fits there
      rw [if_neg ne] at gone
      have sound₂ := sound₁.filter_ne writable.ne_dir
      have root : Place.follow [] p.names ≠ [] := by
        intro e
        exact writable.ne_dir (by rw [e]; rfl)
      have dirs₂ : (d₁.remove (Place.follow [] p.names)).Dirs (Place.trail [] above) := by
        intro q hq
        rw [entryAt?_remove root, if_neg]
        · exact writable.dirs q hq
        · rintro rfl
          exact writable.ne_dir (writable.dirs _ hq)
      have leads₂ : (d₁.remove (Place.follow [] p.names)).Leads p above last :=
        { leads with noLinks := dirs₂.noLinks }
      rw [lstat, DiskM.bind_run_ok gone, symlink_run check leads₂ sound₂ dirs₂ writable.fits
        (by rw [entryAt?_remove root, if_pos rfl]), put_remove]
  · have sound₁ := grows.sound sound
    have leads₁ := grows.leads leads
    rw [DiskM.bind_run_ok DiskM.get_run]
    by_cases fits : p.Fits
    · have located := (leads₁.locate_entry_eq_ok_iff sound₁).2 ⟨rfl, fits, dirs₁⟩
      have there : d₁.entryAt? (Place.follow [] p.names) = some .dir := by
        by_contra ne
        exact not_ ⟨fits, dirs₁, ne⟩
      have lstat : d₁.lstat p = .ok .dir := by
        simp [lstat, located, entryThere, there, bind, Except.bind]
      rw [lstat]
      exact ⟨_, DiskM.bind_run_error (unlink_run leads₁ sound₁ dirs₁ fits there)⟩
    · obtain ⟨e, linked⟩ := symlink_error check leads₁ sound₁ dirs₁ fits
      cases lstat : d₁.lstat p with
      | ok entry =>
        exfalso
        unfold Disk.lstat at lstat
        cases located : d₁.locate .entry p with
        | error e' => simp [located, bind, Except.bind] at lstat
        | ok q => exact fits ((leads₁.locate_entry_eq_ok_iff sound₁).1 located).2.1
      | error e' =>
        cases e' <;> first | exact ⟨e, linked⟩ | exact ⟨_, rfl⟩

end MakeDirs

end Disk
end FlatModules
