import FlatModules.Proofs.Build.Course
import FlatModules.Proofs.Build.Keys
import FlatModules.Proofs.Disk.Spares
import FlatModules.Proofs.Tree.History

/-!
# Build — what targets end in

A rule is tried for what a target's text ends in, and asks for targets with endings that depend on
the rule alone.  Source files, root modules, digests and signals lead to targets of the same kinds
only (`closed_linkEndings`), and with dependencies among them to those and dependencies
(`closed_dependsEndings`).  So a build of such a target spares the files of every other ending
(`Course.spared`), and one without dependencies runs no analyzer (`Course.runs_eq`).
-/

namespace FlatModules

open Naming Path

/-- Whether a name has an ending. -/
def HasEnding (ending name : String) : Prop := ending.toList <:+ name.toList

instance (ending : String) : DecidablePred (HasEnding ending) := fun name =>
  inferInstanceAs (Decidable (ending.toList <:+ name.toList))

/-- Whether the last name of a path has one of some endings. -/
def Path.Named (endings : List String) (q : Path) : Prop :=
  ∃ n ∈ q.names.getLast?, ∃ e ∈ endings, HasEnding e n

/-- An ending that leaves a name a name, whatever is before it. -/
structure IsEnding (e : String) : Prop where
  noSlash : '/' ∉ e.toList
  long : 1 < e.toList.length

instance (e : String) : Decidable (IsEnding e) :=
  decidable_of_iff ('/' ∉ e.toList ∧ 1 < e.toList.length) ⟨fun ⟨a, b⟩ => ⟨a, b⟩, fun ⟨a, b⟩ => ⟨a, b⟩⟩

variable {es : List String} {e stem : String} {p q : Path}

/-- What is written after a text is written after the last segment of its path. -/
theorem Path.exists_segments_append (stem : String) : ∃ front x, ∀ e : String, '/' ∉ e.toList →
    (⟨stem ++ e⟩ : Path).segments = front ++ [(x ++ e).toList] := by
  have nothing : '/' ∉ ([] : List Char) := by simp
  obtain ⟨front, last, whole, -⟩ := Text.cutAt_append_right nothing stem.toList
  refine ⟨front, String.ofList last, fun e slash => ?_⟩
  obtain ⟨front', last', whole', cut⟩ := Text.cutAt_append_right slash stem.toList
  obtain ⟨rfl, same⟩ := List.append_inj' (whole.symm.trans whole') rfl
  obtain rfl := List.singleton_inj.1 same
  rw [segments, String.toList_append, cut, String.toList_append, String.toList_ofList]

theorem Path.namesOf_singleton {n : String} (proper : n ≠ "" ∧ n ≠ ".") : namesOf [n.toList] = [n] := by
  rw [namesOf_cons ⟨fun e => proper.1 (String.toList_inj.1 e), fun e => proper.2 (String.toList_inj.1 e)⟩]
  simp

/-- What is written after a text is written after the last name of its path. -/
theorem Path.exists_names_append (stem : String) : ∃ front x, ∀ e : String, '/' ∉ e.toList →
    x ++ e ≠ "" → x ++ e ≠ "." → (⟨stem ++ e⟩ : Path).names = front ++ [x ++ e] := by
  obtain ⟨front, x, same⟩ := exists_segments_append stem
  refine ⟨namesOf front, x, fun e slash ne ne' => ?_⟩
  rw [names, same e slash, namesOf_append, namesOf_singleton ⟨ne, ne'⟩]

namespace IsEnding

theorem append_ne (h : IsEnding e) (x : String) : x ++ e ≠ "" ∧ x ++ e ≠ "." := by
  have long := h.long
  have length : 1 < (x ++ e).toList.length := by
    rw [String.toList_append, List.length_append]
    omega
  constructor <;>
  · intro same
    rw [same] at length
    revert length
    decide

theorem getLast?_names (h : IsEnding e) (stem : String) :
    ∃ x, (⟨stem ++ e⟩ : Path).names.getLast? = some (x ++ e) := by
  obtain ⟨front, x, names⟩ := exists_names_append stem
  exact ⟨x, by rw [names e h.noSlash (h.append_ne x).1 (h.append_ne x).2]; simp⟩

end IsEnding

theorem hasEnding_append (x e : String) : HasEnding e (x ++ e) :=
  ⟨x.toList, String.toList_append.symm⟩

theorem HasEnding.getLast?_eq {name : String} (h : HasEnding e name) (ne : e ≠ "") :
    name.toList.getLast? = e.toList.getLast? := by
  obtain ⟨x, ends⟩ := h
  have ne : e.toList ≠ [] := fun h => ne (String.toList_inj.1 h)
  rw [← ends, List.getLast?_append, List.getLast?_eq_some_getLast ne, Option.some_or]

namespace Path.Named

theorem of_text (h : IsEnding e) (mem : e ∈ es) (text : q.text = stem ++ e) : q.Named es := by
  obtain ⟨x, last⟩ := h.getLast?_names stem
  have path : q = ⟨stem ++ e⟩ := congrArg Path.mk text
  exact ⟨x ++ e, path ▸ last, e, mem, hasEnding_append x e⟩

theorem of_fileName? {n : String} (name : q.fileName? = some n) (mem : e ∈ es)
    (ending : HasEnding e n) : q.Named es := by
  have last : q.parts.getLast? = some (.name n) := by
    unfold fileName? at name
    split at name
    · rename_i m last
      rw [last, Option.some.inj name]
    · simp at name
  obtain ⟨front, parts⟩ := List.getLast?_eq_some_iff.1 last
  refine ⟨n, ?_, e, mem, ending⟩
  rw [names_eq_filterMap, parts]
  simp [Part.step?]

/-- Endings are told apart by their last characters. -/
theorem avoids (h : q.Named es) {k : String}
    (other : ∀ e ∈ es, e.toList.getLast? ≠ k.toList.getLast?)
    (proper : ∀ e ∈ es, e ≠ "") (ne : k ≠ "") : q.Avoids (HasEnding k) := by
  rintro n hn ends
  obtain ⟨m, hm, e, he, ends'⟩ := h
  obtain rfl := Option.mem_unique hn hm
  exact other e he ((ends'.getLast?_eq (proper e he)).symm.trans (ends.getLast?_eq ne))

/-- A path below another one ends as it does. -/
theorem div (h : q.Named es) (b : Path) : (b / q).Named es := by
  cases absolute : q.isAbsolute with
  | true =>
    have same : b / q = q := if_pos absolute
    rwa [same]
  | false =>
    obtain ⟨n, hn, ends⟩ := h
    refine ⟨n, ?_, ends⟩
    rw [names_div_relative absolute, List.getLast?_append, hn]
    rfl

end Path.Named

theorem IsEnding.not_avoids (h : IsEnding e) (stem : String) :
    ¬ (⟨stem ++ e⟩ : Path).Avoids (HasEnding e) := by
  obtain ⟨x, last⟩ := h.getLast?_names stem
  exact fun avoids => avoids _ last (hasEnding_append x e)

/-! ### What targets lead to -/

/-- The endings of source files, root modules, digests and signals. -/
def linkEndings : List String :=
  [Rule.root.ending, (Rule.link .interface).ending, Rule.stamp.ending, signalClose]

/-- The same endings, and those of the dependencies of source files. -/
def dependsEndings : List String :=
  linkEndings ++ [(Rule.depends .implementation).ending, (Rule.depends .interface).ending]

variable {d : Disk} {root : Path} {config : Config} {programs : Analyzer.Programs} {t : Tree}

theorem mem_linkEndings (kind : SourceKind) : (Rule.link kind).ending ∈ linkEndings := by
  cases kind <;> decide

theorem isEnding_link (kind : SourceKind) : IsEnding (Rule.link kind).ending := by
  cases kind <;> decide

theorem Tree.Shaped.fileName?_realPath {sources : List Path} (h : t.Shaped sources) {q : Path}
    {f : NamespacedFile} (found : t.fileAt? q = some f) :
    ∃ stem, isComponent stem = true ∧ f.realPath.fileName? = some (stem ++ (Rule.link f.kind).ending) := by
  obtain ⟨hf, components, stem, made, -⟩ := h.exists_made_of_fileAt? found
  refine ⟨stem, made.valid stem (by simp), made.fileName?_eq.trans ?_⟩
  rw [Rule.ending, String.append_assoc]

/-- What a digest covers has the ending of a source file. -/
theorem Tree.After.named_closure {sources : List Path} {vs : List Visit} (h : t.After sources vs)
    {ns : Namespace} (hq : q ∈ t.closure ns) : q.Named linkEndings := by
  unfold closure at hq
  split at hq
  case h_1 => simp at hq
  case h_2 s found =>
    have hs : s ∈ t.scopes := List.mem_of_find?_eq_some found
    obtain ⟨source, -, lies⟩ := h.shaped.below s.ns (List.mem_map_of_mem hs)
    obtain ⟨before, u, after, -, -, filled⟩ := h.scope s hs
    obtain ⟨m, -, hq⟩ := List.mem_flatMap.1 hq
    unfold memberFiles at hq
    split at hq
    · split at hq
      case h_1 l found =>
        have hl : l ∈ s.leaves := List.mem_of_find?_eq_some found
        have mem := filled.files.mem_iff.1 (List.mem_flatMap.2 ⟨l, hl, hq⟩)
        obtain ⟨v, -, seen⟩ := List.mem_filterMap.1 mem
        unfold Visit.virtualIn? at seen
        split at seen
        case h_1 kind stem is =>
          obtain rfl := Option.some.inj (Option.ite_none_right_eq_some.1 seen).2
          have made := v.made_fileIn lies is
          exact .of_text (isEnding_link kind) (mem_linkEndings kind)
            (congrArg Path.text made.virtualPath_eq_append)
        case h_2 => simp at seen
      case h_2 => simp at hq
    · split at hq
      case h_1 c found =>
        have hc : c ∈ t.scopes := List.mem_of_find?_eq_some found
        obtain ⟨source, -, below⟩ := h.shaped.below c.ns (List.mem_map_of_mem hc)
        obtain rfl := List.mem_singleton.1 hq
        rw [below.rootFile_eq]
        exact .of_text (by decide) (by decide : Rule.root.ending ∈ linkEndings) rfl
      case h_2 => simp at hq

namespace Local

/-- What is asked for because of a member of a library are the dependencies of an implementation. -/
theorem exists_memberDepends_text (x : String) :
    ∃ stem, (memberDepends x).text = stem ++ (Rule.depends .implementation).ending := by
  unfold memberDepends
  dsimp only
  split
  case isTrue h =>
    obtain ⟨rest, e⟩ := Option.isSome_iff_exists.1 h
    have e := Text.dropTail?_eq_some_iff.1 e
    exact ⟨String.ofList rest, String.toList_inj.1 (by simp [Path.append, e, Rule.ending])⟩
  case isFalse => exact ⟨x, String.toList_inj.1 (by simp [Path.append, Rule.ending])⟩

theorem named_memberDepends (x : String) : (memberDepends x).Named dependsEndings := by
  obtain ⟨stem, text⟩ := exists_memberDepends_text x
  exact .of_text (by decide) (by decide : (Rule.depends .implementation).ending ∈ dependsEndings) text

/-- The endings of source files and what rules make of them lead to no others. -/
theorem closed_named (sound : d.Sound) (ok : Tree.scan d root config = .ok t) (sub : linkEndings ⊆ es)
    (plain : ∀ stem, (⟨stem ++ dependsSuffix⟩ : Path).Named es → (⟨stem⟩ : Path).Named es)
    (library : ∀ stem, (⟨stem ++ Rule.manifest.ending⟩ : Path).Named es → ∀ x, (memberDepends x).Named es) :
    Closed (t.project root config programs) (Path.Named es) := by
  have after := Tree.After.scan sound ok
  have mono {q : Path} (h : q.Named linkEndings) : q.Named es := by
    obtain ⟨n, hn, e, he, ends⟩ := h
    exact ⟨n, hn, e, sub he, ends⟩
  constructor
  case dependency =>
    intro q r stem hq matched d hd
    have text := (Pattern.stem?_ending_eq_some_iff.1 matched).1
    cases r with
    | depends kind =>
      obtain rfl := List.mem_singleton.1 hd
      rw [Pattern_ending_fill]
      exact mono (.of_text (isEnding_link kind) (mem_linkEndings kind) rfl)
    | root =>
      obtain rfl := List.mem_singleton.1 hd
      rw [Pattern_ending_fill]
      exact mono (.of_text (by decide) (by decide : Rule.stamp.ending ∈ linkEndings) rfl)
    | plainDepends =>
      obtain rfl := List.mem_singleton.1 hd
      rw [Pattern_ending_fill, String.append_empty]
      exact plain stem (text ▸ hq)
    | _ => simp [Rule.dependencies] at hd
  case signal =>
    intro q _ message
    exact mono (.of_text (by decide) (by decide : signalClose ∈ linkEndings) rfl)
  case real =>
    intro q f _ found
    obtain ⟨stem, -, name⟩ := after.shaped.fileName?_realPath found
    exact mono (.of_fileName? name (mem_linkEndings f.kind) (hasEnding_append _ _))
  case closure =>
    intro q root' ns _ _ _ c hc
    exact mono (after.named_closure hc)
  case library =>
    intro q root' ns members hq matched _ _ x _
    have text := (Pattern.stem?_ending_eq_some_iff.1 matched).1
    exact library root' (text ▸ hq) x

/-- Without dependencies, no target leads to any. -/
theorem closed_linkEndings (sound : d.Sound) (ok : Tree.scan d root config = .ok t) :
    Closed (t.project root config programs) (Path.Named linkEndings) := by
  have other {k : String} (h : IsEnding k) (apart : ∀ e ∈ linkEndings, e.toList.getLast? ≠ k.toList.getLast?)
      (stem : String) : ¬ (⟨stem ++ k⟩ : Path).Named linkEndings := fun named =>
    h.not_avoids stem (named.avoids apart (by decide) (by rintro rfl; exact absurd h.long (by decide)))
  exact closed_named sound ok (List.Subset.refl _)
    (fun stem h => absurd h (other (by decide) (by decide) stem))
    (fun stem h => absurd h (other (by decide) (by decide) stem))

theorem closed_dependsEndings (sound : d.Sound) (ok : Tree.scan d root config = .ok t) :
    Closed (t.project root config programs) (Path.Named dependsEndings) := by
  refine closed_named sound ok (List.subset_append_left _ _) (fun stem named => ?_)
    fun _ _ => named_memberDepends
  obtain ⟨front, x, names⟩ := Path.exists_names_append stem
  have proper : IsEnding dependsSuffix := by decide
  obtain ⟨n, hn, e, he, y, ends⟩ := named
  rw [names _ proper.noSlash (proper.append_ne x).1 (proper.append_ne x).2] at hn
  obtain rfl : x ++ dependsSuffix = n := by simpa using hn
  -- the ending is that of a dependency, so that what is before it is a source file
  obtain ⟨kind, rfl⟩ : ∃ kind, e = (Rule.depends kind).ending := by
    rcases List.mem_append.1 he with he | he
    · exfalso
      have other : ∀ e ∈ linkEndings, e ≠ "" ∧ e.toList.getLast? ≠ dependsSuffix.toList.getLast? := by
        decide
      have last := HasEnding.getLast?_eq ⟨y, ends⟩ (other e he).1
      have last' := (hasEnding_append x dependsSuffix).getLast?_eq (by decide)
      exact (other e he).2 (last.symm.trans last')
    · simp only [List.mem_cons, List.not_mem_nil, or_false] at he
      rcases he with rfl | rfl
      exacts [⟨_, rfl⟩, ⟨_, rfl⟩]
  have x_eq : x = String.ofList y ++ (Rule.link kind).ending := by
    refine (String.append_left_inj dependsSuffix).1 (String.toList_inj.1 (ends.symm.trans ?_))
    simp [Rule.ending]
  have bare := names "" (by simp) ?_ ?_
  · rw [String.append_empty, String.append_empty] at bare
    refine ⟨x, by simp [bare], _, List.mem_append_left _ (mem_linkEndings kind), y, ?_⟩
    simp [x_eq]
  · rw [String.append_empty, x_eq]
    exact ((isEnding_link kind).append_ne _).1
  · rw [String.append_empty, x_eq]
    exact ((isEnding_link kind).append_ne _).2

/-! ### What a course spares -/

section

variable {p : Project} {w w' : World LocalState} {K : String → Prop}

/-- What is done for a target is a chain of changes for its path; it is made a link only to the name
of the real file behind it. -/
theorem Touches.chain {step : DiskM Unit} (h : Touches p q step) (d : Disk) :
    ∃ text?, Disk.Chain (Disk.Edit (p.buildDir / q) text?) d step ∧
      ∀ text ∈ text?, ∃ f, p.metadata.fileAt? q = some f ∧ f.realPath.fileName? = some text := by
  cases h with
  | save bytes => exact ⟨none, (Disk.Chain.parents _).bind fun _ _ => .write bytes, by simp⟩
  | write bytes => exact ⟨none, .write bytes, by simp⟩
  | copy => exact ⟨none, (Disk.Chain.parents _).bind fun _ _ => .copy _, by simp⟩
  | @link f name file named => exact ⟨some name, .replaceLink ⟨name⟩, by simpa using ⟨f, file, named⟩⟩

/-- What single changes keep of the disk, a course keeps. -/
theorem Course.keeps {T : Path → Prop} (course : Course p T w w') {I : Disk → Prop}
    (edit : ∀ q text? d d', T q →
      (∀ text ∈ text?, ∃ f, p.metadata.fileAt? q = some f ∧ f.realPath.fileName? = some text) →
      Disk.Edit (p.buildDir / q) text? d d' → I d → I d') (start : I w.disk) : I w'.disk := by
  induction course with
  | refl w => exact start
  | trans _ _ ih ih' => exact ih' (ih start)
  | fail w => exact start
  | act hq h =>
    cases h with
    | disk touches =>
      obtain ⟨text?, chain, linked⟩ := touches.chain _
      exact chain.keeps (fun _ _ => edit _ _ _ _ hq linked) start
    | _ => exact start
  | once _ _ _ _ _ ih => exact ih start

/-- What is done for targets whose last names are not of a kind spares the files of that kind. -/
theorem Course.spared {T : Path → Prop} (course : Course p T w w')
    (avoids : ∀ q, T q → (p.buildDir / q).Avoids K)
    (real : ∀ q f name, p.metadata.fileAt? q = some f → f.realPath.fileName? = some name →
      (⟨name⟩ : Path).Avoids K) (guarded : w.disk.Guarded K) : w.disk.Spared K w'.disk := by
  refine course.keeps (I := fun d => w.disk.Spared K d) (fun q text? d d' hq linked edit spared => ?_)
    ⟨guarded, .refl _ _⟩
  refine spared.trans (edit.spared (avoids q hq) (fun text mem => ?_) spared.1)
  obtain ⟨f, file, named⟩ := linked text mem
  exact real q f text file named

theorem Course.sound {T : Path → Prop} (course : Course p T w w') (sound : w.disk.Sound) :
    w'.disk.Sound :=
  course.keeps (fun _ _ _ _ _ _ edit => edit.sound) sound

end

variable {w w' : World LocalState} {k : String}

/-- What is done for targets of some endings spares the files of another. -/
theorem Course.spared_ending (ok : Tree.scan d root config = .ok t)
    (course : Course (t.project root config programs) (Path.Named es) w w') (sub : linkEndings ⊆ es)
    (other : ∀ e ∈ es, e ≠ "" ∧ e.toList.getLast? ≠ k.toList.getLast?) (ne : k ≠ "")
    (guarded : w.disk.Guarded (HasEnding k)) : w.disk.Spared (HasEnding k) w'.disk := by
  have avoids {q : Path} (h : q.Named es) : q.Avoids (HasEnding k) :=
    h.avoids (fun e he => (other e he).2) (fun e he => (other e he).1) ne
  refine course.spared (fun q hq => avoids (hq.div _)) (fun q f name found named => avoids ?_) guarded
  obtain ⟨stem, -, name'⟩ := (Tree.Shaped.scan ok).fileName?_realPath found
  obtain rfl := Option.some.inj (named.symm.trans name')
  exact .of_text (isEnding_link f.kind) (sub (mem_linkEndings f.kind)) rfl

/-- Without dependencies no analyzer is run. -/
theorem Course.runs_eq {p : Project} (course : Course p (Path.Named linkEndings) w w') :
    w'.runs = w.runs := by
  induction course with
  | refl w => rfl
  | trans _ _ ih ih' => exact ih'.trans ih
  | fail w => rfl
  | @act q _ _ hq h =>
    cases h with
    | run depends =>
      exfalso
      obtain ⟨source, e⟩ := Option.isSome_iff_exists.1 depends
      obtain ⟨rest, cut, rfl⟩ := Option.map_eq_some_iff.1 e
      have text : q = ⟨String.ofList rest ++ dependsSuffix⟩ :=
        congrArg Path.mk (String.toList_inj.1 (by simp [Text.dropTail?_eq_some_iff.1 cut]))
      have proper : IsEnding dependsSuffix := by decide
      exact proper.not_avoids _ (text ▸ hq.avoids (by decide) (by decide) (by decide))
    | _ => rfl
  | once _ _ _ _ _ ih => exact ih

end Local
end FlatModules
