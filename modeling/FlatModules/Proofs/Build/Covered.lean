import FlatModules.Proofs.Build.Cache
import FlatModules.Proofs.Build.Clean
import FlatModules.Proofs.Build.Levels
import FlatModules.Proofs.Build.Manifest

/-!
# Build — what was built for a digest

Where the digest of a namespace was built, so was all that it covers, and where a root module was
built, the digest that it tells was asked for (`Covered`).  Rules go by how a target is spelled at its
end; all that a digest leads to ends in a name that rules know (`Path.Sharp`).
-/

namespace FlatModules

open Naming FlatModules.Path Tree

/-- Whether a target was built. -/
def LocalState.HasBuilt (s : LocalState) (q : Path) : Prop :=
  ∃ path, lookupPath? q s.outcomes = some (.ok path)

/-! ### How targets end -/

/-- Whether a path is spelled up to the end of a name, which is that of a source file, a digest or a
signal. -/
def Path.Sharp (q : Path) : Prop := ∃ c ∈ q.text.toList.getLast?, c ∈ ['l', 'i', 'p', '>']

namespace Path

variable {q r : Path} {stem e : String}

theorem Sharp.of_text (text : q.text = stem ++ e) {c : Char} (last : e.toList.getLast? = some c)
    (mem : c ∈ ['l', 'i', 'p', '>']) : q.Sharp := by
  refine ⟨c, ?_, mem⟩
  rw [text, String.toList_append, List.getLast?_append, last]
  rfl

theorem Sharp.signalKey (q : Path) (message : String) :
    (⟨signalKey q message⟩ : Path).Sharp :=
  ⟨'>', Local.getLast?_signalKey q message, by simp⟩

/-- A sharp path ends in its last name. -/
theorem Sharp.exists_spelled (h : q.Sharp) : ∃ above last, q.Spelled above last ∧ ¬ Idle last := by
  obtain ⟨c, hc, mem⟩ := h
  obtain ⟨above, last, spelled⟩ := q.exists_spelled
  refine ⟨above, last, spelled, ?_⟩
  rw [spelled.text, String.toList_append, List.getLast?_append] at hc
  rintro (rfl | rfl)
  · rcases spelled.above with rfl | slash
    · simp at hc
    · obtain rfl : '/' = c := by simpa [slash] using hc
      simp at mem
  · obtain rfl : '.' = c := by simpa using hc
    simp at mem

theorem Sharp.beside (hq : q.Sharp) (hr : r.Sharp) (same : q.parts = r.parts) : q.Beside r := by
  obtain ⟨above, last, spelled, proper⟩ := hq.exists_spelled
  obtain ⟨above', last', spelled', proper'⟩ := hr.exists_spelled
  exact .of_parts same spelled spelled' proper proper'

end Path

namespace Tree

variable {t : Tree} {sources : List Path} {Done : Path → List String → Entry → Prop} {ns : Namespace}
  {q : Path}

theorem sharp_target {r : Rule} {c : Char} (last : r.ending.toList.getLast? = some c)
    (mem : c ∈ ['l', 'i', 'p', '>']) (ns : Namespace) : (ns.target r).Sharp :=
  .of_text (show _ = ns.rootPath.text ++ r.ending from rfl) last mem

/-- A path to a source file is sharp. -/
theorem sharp_div (dir : Path) {stem : String} (kind : SourceKind)
    (isName : IsName (stem ++ "." ++ kind.extension)) :
    (dir / ⟨stem ++ "." ++ kind.extension⟩).Sharp := by
  have text : (dir / ⟨stem ++ "." ++ kind.extension⟩).text =
      (dir.front ++ (stem ++ ".")) ++ kind.extension := by
    rw [div_eq isName, ← String.append_assoc]
  cases kind with
  | implementation => exact .of_text text (by decide) (c := 'l') (by simp)
  | interface => exact .of_text text (by decide) (c := 'i') (by simp)

/-- What a digest covers is sharp. -/
theorem Tidy.sharp_closure (h : Tidy sources Done t) (hn : ns ∈ t.namespaces)
    (hq : q ∈ t.closure ns) : q.Sharp := by
  obtain ⟨f, hf, -, rfl⟩ | ⟨c, hc, -, rfl⟩ := (h.mem_closure hn).1 hq
  · obtain ⟨components, stem, made⟩ := h.shaped.made f hf
    rw [made.virtualPath_eq]
    exact sharp_div _ _ made.isName
  · obtain ⟨source, -, lies⟩ := h.shaped.below c hc
    rw [lies.rootFile_eq]
    exact sharp_target (c := 'l') (by decide) (by simp) c

/-- Sharp targets lead to sharp ones. -/
theorem Tidy.closed_sharp (h : Tidy sources Done t) (root : Path) (config : Config)
    (programs : Analyzer.Programs) : Local.Closed (t.project root config programs) Path.Sharp := by
  -- the rules for dependencies and manifests are not tried for sharp targets
  have other {q : Path} {r : Rule} {stem : String} {c : Char} (hq : q.Sharp)
      (hs : r.product.stem? q = some stem) (last : r.ending.toList.getLast? = some c) :
      c ∈ ['l', 'i', 'p', '>'] := by
    obtain ⟨c', hc, mem⟩ := hq
    rw [Local.getLast?_eq_of_stem? hs last] at hc
    exact Option.some.inj hc ▸ mem
  constructor
  case dependency =>
    intro q r stem hq hs d hd
    cases r with
    | root =>
      obtain rfl := List.mem_singleton.1 hd
      rw [Local.Pattern_ending_fill]
      exact .of_text (show _ = stem ++ ".stamp" from rfl) (c := 'p') (by decide) (by simp)
    | depends kind =>
      have mem := other hq hs (c := 's') (by cases kind <;> decide)
      simp at mem
    | plainDepends =>
      have mem := other hq hs (c := 's') (by decide)
      simp at mem
    | _ => simp [Rule.dependencies] at hd
  case signal => exact fun _ message => .signalKey _ message
  case real =>
    intro q f _ found
    have hf : f ∈ t.files := List.mem_of_find?_eq_some found
    obtain ⟨source, components, stem, -, -, -, -, lies, -⟩ := h.file f hf
    rw [lies.realPath_eq]
    have valid := lies.made.valid stem (by simp)
    refine sharp_div _ _ ?_
    rw [String.append_assoc]
    exact (isStem_of_isComponent valid).append (by simpa using f.kind.noSlash_extension)
  case closure =>
    intro q stem ns _ _ hn c hc
    exact h.sharp_closure (Local.mem_namespaces_of_namespaceOfRoot? hn).1 hc
  case library =>
    intro q stem ns members hq hs
    have mem := other hq hs (c := 'b') (by decide)
    simp at mem

end Tree

namespace Local

variable {p : Project} {build : Path → Step Outcome} {q target : Path} {t : Tree}
  {sources : List Path} {Done : Path → List String → Entry → Prop} {ns : Namespace} {n : Nat}
  {r : Rule} {rest : List Rule} {blocked : Option Failure} {stem : String}
  {w w₁ w' : World LocalState} {o : Outcome}

/-! ### What was built is kept -/

theorem Grown.hasBuilt (h : Grown w w') (built : w.own.HasBuilt q) : w'.own.HasBuilt q :=
  built.imp fun _ known => h.outcomes _ _ known

theorem Grown.met (h : Grown w w') (met : w.own.Met q) : w'.own.Met q := by
  refine met.imp (fun busy => h.inProgress ▸ busy) fun known => ?_
  obtain ⟨o, known⟩ := Option.ne_none_iff_exists'.1 known
  rw [h.outcomes q o known]
  simp

theorem met_congr {s : LocalState} {q r : Path} (same : q.parts = r.parts) : s.Met q ↔ s.Met r := by
  have same' : r.same q = true := same_iff.2 same.symm
  have busy : listsPath q s.inProgress = listsPath r s.inProgress :=
    congrArg s.inProgress.any (funext fun x => (Path.same_congr same' x).symm)
  rw [LocalState.Met, LocalState.Met, busy, lookupPath?_congr same']

theorem hasBuilt_of_buildWithin {path : Path} (run : buildWithin p n q w = some (.ok path, w')) :
    w'.own.HasBuilt q := by
  cases n with
  | zero => simp [buildWithin, Work.exhausted] at run
  | succ n =>
    rw [buildWithin] at run
    cases busy : listsPath q w.own.inProgress with
    | false => exact ⟨path, lookupPath?_of_once busy run⟩
    | true =>
      cases known : lookupPath? q w.own.outcomes with
      | some o =>
        rw [once_of_known known] at run
        obtain ⟨rfl, rfl⟩ := Prod.mk.inj (Option.some.inj run)
        exact ⟨path, known⟩
      | none =>
        rw [once_of_inProgress known busy] at run
        exact absurd (Prod.mk.inj (Option.some.inj run)).1 (by simp)

/-- Targets that were asked for one after the other and built are all kept. -/
theorem hasBuilt_of_build {targets : List Path} {outcomes : List Outcome}
    (run : (engineOf p (buildWithin p n)).build (targets.map ([·])) w = some (outcomes, w'))
    (ok : ∀ o ∈ outcomes, o.isOk) : ∀ q ∈ targets, w'.own.HasBuilt q := by
  change (targets.map ([·])).mapM (firstBuilt (buildWithin p n)) w = some (outcomes, w') at run
  induction targets generalizing w outcomes with
  | nil => simp
  | cons q rest ih =>
    rw [List.map_cons, List.mapM_cons] at run
    obtain ⟨o, w₁, first, run⟩ := Work.bind_eq_some.1 run
    obtain ⟨os, w₂, others, run⟩ := Work.bind_eq_some.1 run
    obtain ⟨rfl, rfl⟩ := Prod.mk.inj (Option.some.inj run)
    have grown : Grown w₁ w₂ := by
      have follows : Follows p (fun _ => True) ((engineOf p (buildWithin p n)).build (rest.map ([·]))) :=
        follows_build fun _ _ r _ => buildWithin_follows (closed_true p) n r trivial
      exact (follows w₁ os w₂ others).grown
    intro r hr
    rcases List.mem_cons.1 hr with rfl | hr
    · have built := ok o List.mem_cons_self
      cases o with
      | error f => simp [Except.isOk, Except.toBool] at built
      | ok path => exact grown.hasBuilt (hasBuilt_of_buildWithin first)
    · exact ih (fun o ho => ok o (List.mem_cons_of_mem _ ho)) others r hr

/-! ### What rules ask for -/

theorem follows_any (p : Project) (n : Nat) :
    ∀ q, (fun _ : Path => True) q → Follows p (fun _ => True) (buildWithin p n q) :=
  buildWithin_follows (closed_true p) n

/-- The dependencies of a rule that was tried were asked for, and the rest came after. -/
theorem Tried.exists_asked {result : Option Outcome}
    (h : Tried p (buildWithin p n) target r stem w result w') :
    ∃ outcomes w₁, (engineOf p (buildWithin p n)).build (r.dependencies.map fun d => [d.fill stem]) w =
      some (outcomes, w₁) ∧ Grown w₁ w' := by
  have applied (r : Rule) := follows_apply (closed_true p) (q := target) trivial (follows_any p n) r
  cases h with
  | skipped asked => exact ⟨_, _, asked, .refl _⟩
  | built asked _ run => exact ⟨_, _, asked, (applied r _ _ _ run).grown⟩
  | left asked _ run _ signal =>
    have signaled := follows_signal (p := p) (T := fun _ => True) (q := target) trivial
      (follows_any p n _ trivial) _ _ _ signal
    exact ⟨_, _, asked, (applied r _ _ _ run).grown.trans signaled.grown⟩
  | @failed outcomes w₁ e w₂ asked _ run =>
    have hardened : Course p (fun _ => True) w₂ (hardened target w₂) :=
      .trans (.act (q := target) trivial (.hard w₂)) (.fail _)
    exact ⟨_, _, asked, (applied r _ _ _ run).grown.trans hardened.grown⟩

/-- A rule that leaves a target to others is followed by the next. -/
theorem tryRules_of_leaves (leaves : Leaves p build target r)
    (run : tryRules p (engineOf p build) target (r :: rest) blocked w = some (o, w')) :
    ∃ w₁ blocked', tryRules p (engineOf p build) target rest blocked' w₁ = some (o, w') := by
  obtain ⟨e, reason, because, apply⟩ := leaves
  cases hs : r.product.stem? target with
  | none => exact ⟨w, blocked, by rwa [tryRules_cons_of_none hs] at run⟩
  | some stem =>
    obtain ⟨result, w₁, tried, next⟩ := tryRules_cons hs run
    cases tried with
    | built asked ready run =>
      rw [apply] at run
      simp at run
    | failed asked ready run final =>
      rw [apply] at run
      obtain ⟨same, -⟩ := Prod.mk.inj (Option.some.inj run)
      rw [← Except.error.inj same, because] at final
      simp at final
    | skipped | left =>
      obtain ⟨-, blocked', run⟩ := next.resolve_left (by simp)
      exact ⟨w₁, blocked', run⟩

/-- What is done after the last rule takes nothing away. -/
theorem grown_of_tryRules {rs : List Rule}
    (run : tryRules p (engineOf p (buildWithin p n)) target rs blocked w = some (o, w')) :
    Grown w w' :=
  (follows_tryRules (closed_true p) trivial (follows_any p n) rs blocked w o w' run).grown

section Covers

variable (h : Tidy sources Done t) (hm : p.metadata = t.metadata) (hn : ns ∈ t.namespaces)
  (sharp : q.Sharp)

include h hm hn sharp

/-- A target that is that of a namespace's rule, spelled otherwise. -/
theorem exists_stem (same : (ns.target r).parts = q.parts) (hr : (ns.target r).Sharp)
    (noSlash : '/' ∉ r.ending.toList) :
    ∃ stem, r.product.stem? q = some stem ∧ p.metadata.namespaceOfRoot? ⟨stem⟩ = some ns ∧
      ns.rootPath.Beside ⟨stem⟩ := by
  obtain ⟨source, -, lies⟩ := h.shaped.below ns hn
  obtain ⟨stem, text, beside⟩ := (hr.beside sharp same).cut noSlash
    (show _ = ns.rootPath.text ++ r.ending from rfl)
  have ne : stem ≠ "" := fun empty => by
    refine absurd ((beside.text_eq_empty_iff).2 empty) ?_
    rw [lies.rootPath_eq]
    exact text_div_ne_empty lies.isStem.isName
  refine ⟨stem, Pattern.stem?_ending_eq_some_iff.2 ⟨text, ne⟩, ?_, beside⟩
  rw [hm, ← t.metadata_byParts.namespaceOfRoot? beside.parts]
  exact h.shaped.namespaceOfRoot?_rootPath hn

/-- The digest of a namespace is built only where all is that it covers. -/
theorem hasBuilt_closure (same : (ns.target .stamp).parts = q.parts) {path : Path}
    (run : tryRules p (engineOf p (buildWithin p n)) q rules none w = some (.ok path, w')) :
    ∀ c ∈ t.closure ns, w'.own.HasBuilt c := by
  obtain ⟨stem, matched, root, -⟩ := exists_stem h hm hn sharp same
    (sharp_target (c := 'p') (by decide) (by simp) ns) (by decide)
  have root : (contextOf p (buildWithin p n)).metadata.namespaceOfRoot? ⟨stem⟩ = some ns := root
  have writes : Writes q (Rule.stamp.apply (contextOf p (buildWithin p n)) q) := by
    rw [Rule.apply, Context.writeStamp, Context.namespaceOf, bind_assoc, matched]
    refine Writes.some_bind ?_
    rw [root]
    refine Writes.some_bind (Writes.bind (.requireAll _) fun _ => Writes.bind .disk fun d => ?_)
    split
    · exact .writeOutput _
    · exact .throw rfl
  rw [tryRules_rules rules_filter_p (getLast?_eq_of_stem? matched (by decide))] at run
  obtain ⟨result, w₁, tried, ⟨rfl, rfl⟩ | ⟨rfl, -⟩⟩ := tryRules_cons matched run
  · cases tried with
    | built asked ready run =>
      rw [Rule.apply, Context.writeStamp, Context.namespaceOf, bind_assoc, matched,
        Attempt.bind_of_ok (Attempt.orThrow_some_run _ _), root,
        Attempt.bind_of_ok (Attempt.orThrow_some_run _ _)] at run
      obtain ⟨u, w₂, required, run⟩ | ⟨e, w₂, -, failed⟩ := Attempt.bind_eq_some.1 run
      · have grown : Grown w₂ w' := by
          refine Course.grown (p := p) (T := fun _ => True) (Follows.attempt_bind .disk (fun d => ?_) _ _ _ run)
          split
          · exact follows_writeOutput trivial _
          · exact .throw _
        obtain ⟨outcomes, built, ⟨-, ok⟩ | ⟨r, failure, -, failed⟩⟩ := requireAll_cases required
        · intro c hc
          refine grown.hasBuilt (hasBuilt_of_build built ok c ?_)
          change c ∈ p.metadata.closure ns
          rw [hm]
          exact hc
        · simp at failed
      · simp at failed
  · cases tried with
    | skipped asked failed =>
      obtain ⟨d, dependencies, -⟩ := Tried.exists_of_skipped asked failed
      simp [Rule.dependencies] at dependencies
    | left asked ready run because signal =>
      rcases writes _ _ _ run with rfl | ⟨e, rfl, final⟩
      · simp [reasonOf] at because
      · simp [reasonOf, final] at because

/-- When a root module is built the digest is asked for. -/
theorem met_stamp (same : (ns.target .root).parts = q.parts)
    (run : tryRules p (engineOf p (buildWithin p n)) q rules none w = some (o, w')) :
    w'.own.Met (ns.target .stamp) := by
  obtain ⟨source, -, lies⟩ := h.shaped.below ns hn
  have sharp' : (ns.target .root).Sharp := sharp_target (c := 'l') (by decide) (by simp) ns
  obtain ⟨stem, matched, -, beside⟩ := exists_stem h hm hn sharp same sharp' (by decide)
  -- the rules before that for root modules do nothing
  have file : p.metadata.fileOfKind? .implementation q = none := by
    rw [hm, ← t.metadata_byParts.fileOfKind? same]
    exact h.shaped.fileOfKind?_target hn (.inl rfl) _
  have aliases : Rule.aliases.product.stem? q = none := by
    obtain ⟨above, last, spelled⟩ := (⟨stem⟩ : Path).exists_spelled
    have ends : ns.rootPath.EndsIn ns.flatName := lies.rootPath_eq ▸ endsIn_div lies.isStem.isName
    have name : last = ns.flatName := (beside.endsIn ends).eq_of_spelled spelled
    have front : (⟨above⟩ : Path).front = above :=
      if_pos (spelled.above.imp_left fun empty => by simp [empty])
    have text : q.text = (⟨above⟩ : Path).front ++ flatName ns.components ++ Rule.root.ending := by
      rw [(Pattern.stem?_ending_eq_some_iff.1 matched).1, front, ← lies.flatName_eq, ← name, ← spelled.text]
    exact stem?_aliases_flatName lies.valid text
  rw [tryRules_rules rules_filter_l (getLast?_eq_of_stem? matched (by decide))] at run
  obtain ⟨w₁, blocked, run⟩ := tryRules_of_leaves (leaves_link file) run
  rw [tryRules_cons_of_none aliases] at run
  obtain ⟨result, w₂, tried, next⟩ := tryRules_cons matched run
  obtain ⟨outcomes, w₃, asked, grown⟩ := tried.exists_asked
  obtain ⟨o', -, first⟩ := build_singleton_eq_some asked
  have met : w₃.own.Met (ns.target .stamp) := by
    have parts := (beside.append (e := Rule.stamp.ending) (by decide)).parts
    rw [Pattern_ending_fill] at first
    exact (met_congr parts).2 (met_of_buildWithin first)
  have after : Grown w₂ w' := by
    obtain ⟨-, rfl⟩ | ⟨-, blocked', run⟩ := next
    · exact .refl _
    · exact grown_of_tryRules run
  exact after.met (grown.met met)

end Covers

/-- Whether with a digest all was built that it covers, and with a root module the digest was asked
for. -/
structure Covered (t : Tree) (s : LocalState) : Prop where
  closure : ∀ ns ∈ t.namespaces, s.HasBuilt (ns.target .stamp) → ∀ q ∈ t.closure ns, s.HasBuilt q
  digest : ∀ ns ∈ t.namespaces, s.HasBuilt (ns.target .root) → s.Met (ns.target .stamp)

namespace Covered

theorem start (t : Tree) : Covered t {} where
  closure _ _ built := absurd built (by simp [LocalState.HasBuilt, lookupPath?])
  digest _ _ built := absurd built (by simp [LocalState.HasBuilt, lookupPath?])

theorem entered (h : Covered t w.own) (q : Path) : Covered t (entered q w).own where
  closure := h.closure
  digest ns hn built := met_entered (h.digest ns hn built)

/-- What is built for a digest is a digest of what it covers, the root module of a digest, or
neither. -/
theorem once (h : Covered t w'.own) (tidy : Tidy sources Done t) (hm : p.metadata = t.metadata)
    (sharp : q.Sharp) (new : lookupPath? q w.own.outcomes = none)
    (run : tryRules p (engineOf p (buildWithin p n)) q rules none (Local.entered q w) = some (o, w')) :
    Covered t (finished q o w').own := by
  have kept {x : Path} (other : q.same x = false) :
      (finished q o w').own.HasBuilt x ↔ w'.own.HasBuilt x := by
    simp [finished, LocalState.HasBuilt, Site.lookupPath?_cons, other]
  -- what is being built gets no outcome meanwhile
  have later {x : Path} (built : w'.own.HasBuilt x) : (finished q o w').own.HasBuilt x := by
    refine (kept ?_).2 built
    rw [Bool.eq_false_iff]
    intro same
    obtain ⟨path, known⟩ := built
    have busy := (grown_of_tryRules run).busy q (by simp [Local.entered, Site.listsPath_cons])
    rw [← lookupPath?_congr same, busy] at known
    simp [Local.entered, new] at known
  have own {x : Path} (same : q.same x = true) (built : (finished q o w').own.HasBuilt x) :
      ∃ path, o = .ok path := by
    obtain ⟨path, known⟩ := built
    rw [finished, Site.lookupPath?_cons, if_pos same] at known
    exact ⟨path, Option.some.inj known⟩
  constructor
  · intro ns hn built x hx
    by_cases same : q.same (ns.target .stamp) = true
    · obtain ⟨path, rfl⟩ := own same built
      exact later (hasBuilt_closure tidy hm hn sharp (same_iff.1 same).symm run x hx)
    · exact later (h.closure ns hn ((kept (Bool.not_eq_true _ ▸ same)).1 built) x hx)
  · intro ns hn built
    by_cases same : q.same (ns.target .root) = true
    · exact met_finished (met_stamp tidy hm hn sharp (same_iff.1 same).symm run)
    · exact met_finished (h.digest ns hn ((kept (Bool.not_eq_true _ ▸ same)).1 built))

end Covered

theorem Course.covered (course : Course p Path.Sharp w w') (tidy : Tidy sources Done t)
    (hm : p.metadata = t.metadata) (h : Covered t w.own) : Covered t w'.own := by
  induction course with
  | refl => exact h
  | trans _ _ ih ih' => exact ih' (ih h)
  | fail => exact h
  | act _ acts => cases acts <;> exact ⟨h.closure, h.digest⟩
  | once sharp new _ run _ ih => exact (ih (h.entered _)).once tidy hm sharp new run

end Local
end FlatModules
