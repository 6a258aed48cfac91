import FlatModules.Proofs.Build.Lockstep
import FlatModules.Proofs.Build.Analysis

/-!
# Build — the spelling of a target

Two spellings of a target that both end in its last name are for the rules almost the same: each rule
that applies to one of them applies to the other, with stems that are spellings of one path, and asks
for targets that are again two such spellings (`Mates`).  The exceptions are texts that hold the
spelling itself: what a digest says of a namespace is read off its directory, not off the target.
-/

namespace FlatModules

open Naming FlatModules.Path Text

/-- Metadata that goes by the parts of paths. -/
structure Metadata.ByParts (m : Metadata) : Prop where
  namespaceAt? : ∀ {q q' : Path}, q.parts = q'.parts → m.namespaceAt? q = m.namespaceAt? q'
  fileAt? : ∀ {q q' : Path}, q.parts = q'.parts → m.fileAt? q = m.fileAt? q'
  executables : ∀ {q q' : Path} {last : String}, q.Beside q' → q.EndsIn last →
    m.executableLibraries q = m.executableLibraries q'

theorem Tree.metadata_byParts (t : Tree) : t.metadata.ByParts where
  namespaceAt? same := by
    simp only [Tree.metadata, Tree.scopeAt?, same_congr (same_iff.2 same)]
  fileAt? same := by
    simp only [Tree.metadata, Tree.fileAt?, same_congr (same_iff.2 same)]
  executables beside ends := by
    have same := beside.withoutExtension ends
    simp only [Tree.metadata, Tree.executableLibraries, same_congr (same_iff.2 same)]

/-- A root path belongs to the same directory however it is spelled. -/
theorem Naming.dirOfRoot?_rel {q q' : Path} (same : q.parts = q'.parts) :
    Option.Rel (fun x y => x.parts = y.parts) (dirOfRoot? q) (dirOfRoot? q') := by
  unfold dirOfRoot?
  rw [← fileName?_congr same]
  cases named : q.fileName? with
  | none => exact .none
  | some flat =>
    simp only [Option.bind_eq_bind, Option.bind_some]
    split
    case isFalse => exact .none
    case isTrue components =>
      cases end_ : (componentsOf flat).getLast? with
      | none => exact .none
      | some last =>
        have name := isName_of_isComponent (List.all_eq_true.1 components _ (List.mem_of_getLast? end_))
        obtain ⟨above, up, parts⟩ := exists_parent?_of_fileName? named
        obtain ⟨above', up', parts'⟩ := exists_parent?_of_fileName? (fileName?_congr same ▸ named)
        rw [up, up']
        refine .some ?_
        rw [parts_div name, parts_div name,
          List.append_inj_left' (parts.symm.trans (same.trans parts')) rfl]

/-- The file name of a root path has no extension. -/
theorem Naming.noDot_of_dirOfRoot? {q dir : Path} (h : dirOfRoot? q = some dir) :
    ∃ flat, q.fileName? = some flat ∧ '.' ∉ flat.toList := by
  obtain ⟨flat, named, h⟩ := Option.bind_eq_some_iff.1 h
  refine ⟨flat, named, fun dot => ?_⟩
  have components : (componentsOf flat).all isComponent = true := by
    by_contra other
    rw [if_neg other] at h
    simp at h
  have ne : '.' ≠ '_' := by decide
  obtain ⟨piece, mem, hc⟩ := mem_cutAtPair ne dot
  have component := List.all_eq_true.1 components _ (List.mem_map_of_mem mem)
  exact dot_notMem_of_isComponent component (by simpa using hc)

namespace Metadata.ByParts

variable {m : Metadata} {q q' : Path}

theorem fileOfKind? (h : m.ByParts) (same : q.parts = q'.parts) (kind : SourceKind) :
    m.fileOfKind? kind q = m.fileOfKind? kind q' := by
  rw [Metadata.fileOfKind?, Metadata.fileOfKind?, h.fileAt? same]

theorem namespaceOfRoot? (h : m.ByParts) (same : q.parts = q'.parts) :
    m.namespaceOfRoot? q = m.namespaceOfRoot? q' := by
  have dirs := dirOfRoot?_rel same
  unfold Metadata.namespaceOfRoot?
  generalize dirOfRoot? q = dir at dirs
  generalize dirOfRoot? q' = dir' at dirs
  cases dirs with
  | none => rfl
  | some parts =>
    simp only [Option.bind_eq_bind, Option.bind_some, h.namespaceAt? parts,
      same_congr (same_iff.2 same)]

end Metadata.ByParts

namespace Local

variable {p : Project} {q q' x : Path} {stem stem' last : String} {n : Nat}

/-! ### Targets that are asked for side by side -/

/-- Whether no operation on a target, or on one of at most `n` bytes more, gets too long a path. -/
structure Room (p : Project) (n : Nat) (q : Path) : Prop where
  root : p.root.text.utf8ByteSize + q.text.utf8ByteSize + n ≤ Disk.pathLimit
  buildDir : p.buildDir.text.utf8ByteSize + q.text.utf8ByteSize + n ≤ Disk.pathLimit

theorem Room.mono {m : Nat} (h : Room p n q)
    (le : x.text.utf8ByteSize + m ≤ q.text.utf8ByteSize + n) : Room p m x := by
  obtain ⟨root, buildDir⟩ := h
  exact ⟨by omega, by omega⟩

/-- How many bytes longer the paths of a target can get: by a slash, by the text of a signal, which no
rule builds, and by the extension of a stamp in place of that of a root module. -/
def spare (q : Path) : Nat :=
  1 + (if signalClose.toList <:+ q.text.toList then 0 else 53)
    + (if Rule.root.ending.toList <:+ q.text.toList then 3 else 0)

theorem not_isSuffix_of_getLast? {e t : List Char} (ne : e ≠ []) (h : t.getLast? ≠ e.getLast?) :
    ¬ e <:+ t := by
  rintro ⟨front, rfl⟩
  exact h (List.getLast?_append_of_ne_nil _ ne)

theorem getLast?_signalKey (q : Path) (message : String) :
    (⟨signalKey q message⟩ : Path).text.toList.getLast? = some '>' := by
  rw [signalKey_eq, String.toList_append, List.getLast?_append, getLast?_signalTail]
  rfl

/-- A target that a rule is tried for may get longer by the text of a signal. -/
theorem spare_of_stem? {r : Rule} (hs : r.product.stem? q = some stem) :
    spare q = if Rule.root.ending.toList <:+ q.text.toList then 57 else 54 := by
  have closed : ¬ signalClose.toList <:+ q.text.toList := by
    refine not_isSuffix_of_getLast? (by decide) ?_
    rw [(getLast?_of_stem? hs).2]
    cases r <;> (try rename_i k; cases k) <;> decide
  rw [spare, if_neg closed]
  split <;> rfl

theorem Room.stamp (room : Room p (spare q) q) (hs : Rule.root.product.stem? q = some stem) :
    Room p (spare ((⟨stem⟩ : Path).append ".stamp")) ((⟨stem⟩ : Path).append ".stamp") := by
  obtain ⟨text, -⟩ := Pattern.stem?_ending_eq_some_iff.1 hs
  have root : Rule.root.ending.toList <:+ q.text.toList := ⟨stem.toList, by simp [text]⟩
  have bound : spare q = 57 := by rw [spare_of_stem? hs, if_pos root]
  have bound' : spare ((⟨stem⟩ : Path).append ".stamp") ≤ 54 := by
    have other : ¬ Rule.root.ending.toList <:+ ((⟨stem⟩ : Path).append ".stamp").text.toList :=
      not_isSuffix_of_getLast? (by decide) (by simp [Path.append, Rule.ending, SourceKind.extension])
    rw [spare, if_neg other]
    split <;> omega
  have size : q.text.utf8ByteSize = stem.utf8ByteSize + 3 := by
    rw [text, String.utf8ByteSize_append]
    rfl
  have size' : ((⟨stem⟩ : Path).append ".stamp").text.utf8ByteSize = stem.utf8ByteSize + 6 := by
    rw [Path.append, String.utf8ByteSize_append]
    rfl
  exact room.mono (by omega)

theorem Room.key (room : Room p (spare q) q) {r : Rule} (hs : r.product.stem? q = some stem)
    {message : String} (hm : message ∈ reasons) :
    Room p (spare ⟨signalKey q message⟩) ⟨signalKey q message⟩ := by
  have bound : 54 ≤ spare q := by
    rw [spare_of_stem? hs]
    split <;> omega
  have bound' : spare ⟨signalKey q message⟩ = 1 := by
    have closed : signalClose.toList <:+ (⟨signalKey q message⟩ : Path).text.toList :=
      ⟨(signalOpen ++ q.text ++ ":" ++ String.ofList (message.toList.map signalChar)).toList,
        by simp [signalKey]⟩
    have other : ¬ Rule.root.ending.toList <:+ (⟨signalKey q message⟩ : Path).text.toList :=
      not_isSuffix_of_getLast? (by decide) (by rw [getLast?_signalKey]; decide)
    rw [spare, if_pos closed, if_neg other]
  have tail : ∀ m ∈ reasons, (signalTail m).utf8ByteSize ≤ 30 := by decide +kernel
  have size : (signalKey q message).utf8ByteSize = 23 + q.text.utf8ByteSize + (signalTail message).utf8ByteSize := by
    rw [signalKey_eq, String.utf8ByteSize_append, String.utf8ByteSize_append]
    rfl
  have tail := tail message hm
  refine room.mono ?_
  dsimp only
  omega

/-- Whether a target is for the dependencies of a source file under its flat name, or for none at all.
Other dependencies are written as their file is spelled. -/
def Settled (p : Project) (q : Path) : Prop :=
  dependsSuffix.toList <:+ q.text.toList → ∃ kind stem,
    (Rule.depends kind).product.stem? q = some stem ∧
      (p.metadata.fileOfKind? kind ⟨stem ++ "." ++ kind.extension⟩).isSome

/-- Targets that two builds in lockstep ask for: the same one, or spellings of one that are the same
from the last slash on, short enough, and not for dependencies that are written as spelled. -/
structure Mates (p : Project) (q q' : Path) : Prop where
  beside : q.Beside q'
  either : q = q' ∨ Room p (spare q) q ∧ Room p (spare q') q' ∧ Settled p q

theorem Settled.of_not_isSuffix (h : ¬ dependsSuffix.toList <:+ q.text.toList) : Settled p q :=
  fun ends => absurd ends h

/-- What a source file's dependencies are made from is no dependency. -/
theorem Settled.source {kind : SourceKind} : Settled p ⟨stem ++ "." ++ kind.extension⟩ := by
  refine .of_not_isSuffix (not_isSuffix_of_getLast? (by decide) ?_)
  cases kind <;> simp [SourceKind.extension, dependsSuffix]

theorem size_div (base q : Path) :
    (base / q).text.utf8ByteSize ≤ base.text.utf8ByteSize + q.text.utf8ByteSize + 1 := by
  change (base.join q).text.utf8ByteSize ≤ _
  unfold Path.join
  have slash : ("/" : String).utf8ByteSize = 1 := by decide
  split
  · omega
  · split
    · simp only [String.utf8ByteSize_append]
      omega
    · simp only [String.utf8ByteSize_append, slash]
      omega

/-- A rule that is tried for one of two spellings is tried for the other, for stems that are such
spellings too. -/
theorem stem?_rel (h : q.Beside q') (r : Rule) :
    Option.Rel (fun s s' => Path.Beside ⟨s⟩ ⟨s'⟩) (r.product.stem? q) (r.product.stem? q') := by
  have main {q q' : Path} {stem : String} (h : q.Beside q') (hs : r.product.stem? q = some stem) :
      ∃ stem', r.product.stem? q' = some stem' ∧ Path.Beside ⟨stem⟩ ⟨stem'⟩ := by
    obtain ⟨text, ne⟩ := Pattern.stem?_ending_eq_some_iff.1 hs
    obtain ⟨stem', text', beside⟩ := h.cut (isEnding_ending r).noSlash text
    exact ⟨stem', Pattern.stem?_ending_eq_some_iff.2 ⟨text', mt beside.text_eq_empty_iff.2 ne⟩, beside⟩
  cases hs : r.product.stem? q with
  | some stem =>
    obtain ⟨stem', hs', beside⟩ := main h hs
    rw [hs']
    exact .some beside
  | none =>
    cases hs' : r.product.stem? q' with
    | none => exact .none
    | some stem' =>
      obtain ⟨stem, hs'', -⟩ := main h.symm hs'
      cases hs.symm.trans hs''

/-- What a rule is tried for ends in a name. -/
theorem exists_endsIn {r : Rule} (hs : r.product.stem? q = some stem) : ∃ last, q.EndsIn last := by
  obtain ⟨above, last, spelled⟩ := q.exists_spelled
  have proper : ¬ Idle last := fun idle => by
    simp [stem?_eq_none_of_idle spelled idle r] at hs
  obtain ⟨front, e⟩ := spelled.segments_eq
  exact ⟨last, front, e, not_or.1 proper⟩

namespace Mates

theorem refl (q : Path) : Mates p q q := ⟨.refl q, .inl rfl⟩

theorem parts (h : Mates p q q') : q.parts = q'.parts := h.beside.parts

theorem stems (h : Mates p q q') {r : Rule} (hs : r.product.stem? q = some stem)
    (hs' : r.product.stem? q' = some stem') : Path.Beside ⟨stem⟩ ⟨stem'⟩ := by
  have rel := stem?_rel h.beside r
  rw [hs, hs'] at rel
  cases rel with
  | some stems => exact stems

/-- What goes by how the disk sees a path is the same for both. -/
theorem congr {γ : Type} (h : Mates p q q') (ends : q.EndsIn last) {base : Path}
    (hb : base = p.root ∨ base = p.buildDir) (F : Path → γ)
    (hF : ∀ x y, Disk.Alike x y → F x = F y) : F (base / q) = F (base / q') := by
  obtain ⟨beside, rfl | ⟨room, room', -⟩⟩ := h
  · rfl
  · have short {q : Path} (room : Room p (spare q) q) :
        (base / q).text.utf8ByteSize ≤ Disk.pathLimit := by
      have size := size_div base q
      have one : 1 ≤ spare q := by
        unfold spare
        omega
      have root := room.root
      have buildDir := room.buildDir
      rcases hb with rfl | rfl <;> omega
    exact hF _ _ ⟨beside.div base, ⟨last, ends.under base, (beside.endsIn ends).under base⟩, short room,
      short room'⟩

/-- What a rule must have built first, for the stems of both. -/
theorem dependency (h : Mates p q q') {r : Rule} (hs : r.product.stem? q = some stem)
    (hs' : r.product.stem? q' = some stem') {d : Pattern} (hd : d ∈ r.dependencies) :
    Mates p (d.fill stem) (d.fill stem') := by
  obtain ⟨text, -⟩ := Pattern.stem?_ending_eq_some_iff.1 hs
  have stems := h.stems hs hs'
  obtain ⟨beside, rfl | ⟨room, room', settled⟩⟩ := h
  · obtain rfl := Option.some.inj (hs.symm.trans hs')
    exact refl _
  have source {kind : SourceKind} {x x' : String} (hx : (Rule.depends kind).product.stem? q = some x)
      (hx' : (Rule.depends kind).product.stem? q' = some x') :
      Mates p ⟨x ++ "." ++ kind.extension⟩ ⟨x' ++ "." ++ kind.extension⟩ := by
    have fits {q : Path} {x : String} (room : Room p (spare q) q)
        (hx : (Rule.depends kind).product.stem? q = some x) :
        Room p (spare ⟨x ++ "." ++ kind.extension⟩) ⟨x ++ "." ++ kind.extension⟩ := by
      obtain ⟨text, -⟩ := Pattern.stem?_ending_eq_some_iff.1 hx
      have size : q.text.utf8ByteSize = (x ++ "." ++ kind.extension).utf8ByteSize + 8 := by
        rw [text, Rule.ending, ← String.append_assoc, String.utf8ByteSize_append, ← String.append_assoc]
        rfl
      have bound : 54 ≤ spare q := by
        rw [spare_of_stem? hx]
        split <;> omega
      have bound' : spare ⟨x ++ "." ++ kind.extension⟩ ≤ 57 := by
        unfold spare
        split <;> split <;> omega
      exact room.mono (by dsimp only; omega)
    have rel := stem?_rel beside (Rule.depends kind)
    rw [hx, hx'] at rel
    cases rel with
    | some stems =>
      have beside := stems.append (e := "." ++ kind.extension) (by cases kind <;> decide)
      simp only [Path.append, ← String.append_assoc] at beside
      exact ⟨beside, .inr ⟨fits room hx, fits room' hx', .source⟩⟩
  cases r with
  | root =>
    obtain rfl : d = Pattern.ending ("." ++ Rule.stampExtension) := by
      simpa [Rule.dependencies] using hd
    have stamp (stem : String) : (Pattern.ending ("." ++ Rule.stampExtension)).fill stem =
        (⟨stem⟩ : Path).append ".stamp" := Pattern_ending_fill _ _
    have end_ (stem : String) :
        ((⟨stem⟩ : Path).append ".stamp").text.toList.getLast? = some 'p' := by
      simp [Path.append]
    rw [stamp, stamp]
    refine ⟨stems.append (by decide), .inr ⟨?_, ?_, ?_⟩⟩
    · exact room.stamp hs
    · exact room'.stamp hs'
    · exact .of_not_isSuffix (not_isSuffix_of_getLast? (by decide) (by rw [end_]; decide))
  | depends kind =>
    obtain rfl : d = Pattern.ending ("." ++ kind.extension) := by simpa [Rule.dependencies] using hd
    rw [Pattern_ending_fill, Pattern_ending_fill, ← String.append_assoc, ← String.append_assoc]
    exact source hs hs'
  | plainDepends =>
    obtain rfl : d = Pattern.ending "" := by simpa [Rule.dependencies] using hd
    obtain ⟨kind, x, hx, -⟩ := settled ⟨stem.toList, by simp [text, Rule.ending]⟩
    have rel := stem?_rel beside (Rule.depends kind)
    rw [hx] at rel
    generalize hx' : (Rule.depends kind).product.stem? q' = found at rel
    cases rel with
    | some stems' =>
      have cut {q : Path} {stem x : String} (hs : Rule.plainDepends.product.stem? q = some stem)
          (hx : (Rule.depends kind).product.stem? q = some x) : stem = x ++ "." ++ kind.extension := by
        obtain ⟨text, -⟩ := Pattern.stem?_ending_eq_some_iff.1 hs
        obtain ⟨text', -⟩ := Pattern.stem?_ending_eq_some_iff.1 hx
        rw [Rule.ending, ← String.append_assoc, ← String.append_assoc] at text'
        exact String.append_left_inj _ |>.1 (text.symm.trans text')
      rw [Pattern_ending_fill, Pattern_ending_fill, String.append_empty, String.append_empty, cut hs hx,
        cut hs' hx']
      exact source hx hx'
  | executableTags | link | stamp | aliases | manifest => simp [Rule.dependencies] at hd

/-- The digest of a namespace is read alike for both spellings of its root module. -/
theorem readText_stamp (h : Mates p q q') (hs : Rule.root.product.stem? q = some stem)
    (hs' : Rule.root.product.stem? q' = some stem') {ns : Namespace}
    (found : p.metadata.namespaceOfRoot? ⟨stem⟩ = some ns) (d : Disk) :
    d.readText (p.buildDir / Path.withExtension ⟨stem⟩ Rule.stampExtension) =
      d.readText (p.buildDir / Path.withExtension ⟨stem'⟩ Rule.stampExtension) := by
  have stems := h.stems hs hs'
  obtain ⟨-, rfl | ⟨room, room', -⟩⟩ := h
  · obtain rfl := Option.some.inj (hs.symm.trans hs')
    rfl
  obtain ⟨dir, dirOf, -⟩ := Option.bind_eq_some_iff.1 found
  obtain ⟨flat, named, noDot⟩ := noDot_of_dirOfRoot? dirOf
  obtain ⟨r, parts, ends, short, spell⟩ := exists_withExtension named noDot
  obtain ⟨r', parts', ends', short', spell'⟩ :=
    exists_withExtension ((fileName?_congr stems.parts).symm.trans named) noDot
  have beside : r.Beside r' := .of_endsIn (by rw [parts, parts', stems.parts]) ends ends'
  have size {q x : Path} {stem : String} (room : Room p (spare q) q)
      (hs : Rule.root.product.stem? q = some stem) (short : x.text.toList <+: stem.toList) :
      (p.buildDir / x.append ".stamp").text.utf8ByteSize ≤ Disk.pathLimit := by
    obtain ⟨text, -⟩ := Pattern.stem?_ending_eq_some_iff.1 hs
    have below := size_div p.buildDir (x.append ".stamp")
    have stem_le := Disk.utf8ByteSize_le_of_isPrefix short
    have long : q.text.utf8ByteSize = stem.utf8ByteSize + 3 := by
      rw [text, String.utf8ByteSize_append]
      rfl
    have long' : (x.append ".stamp").text.utf8ByteSize = x.text.utf8ByteSize + 6 := by
      rw [Path.append, String.utf8ByteSize_append]
      rfl
    have spare : 54 ≤ spare q := by
      rw [spare_of_stem? hs]
      split <;> omega
    have buildDir := room.buildDir
    omega
  have alike : Disk.Alike (p.buildDir / r.append ".stamp") (p.buildDir / r'.append ".stamp") :=
    ⟨(beside.append (by decide)).div _, ⟨_, (ends.append (by decide)).under _,
      (ends'.append (by decide)).under _⟩, size room hs short, size room' hs' short'⟩
  rw [spell _ (by decide), spell' _ (by decide)]
  exact alike.twins.readText_eq d

theorem signal (h : Mates p q q') {r : Rule} (hs : r.product.stem? q = some stem)
    {message : String} (hm : message ∈ reasons) :
    Mates p ⟨signalKey q message⟩ ⟨signalKey q' message⟩ := by
  obtain ⟨beside, rfl | ⟨room, room', -⟩⟩ := h
  · exact refl _
  have rel := stem?_rel beside r
  rw [hs] at rel
  generalize hs' : r.product.stem? q' = found at rel
  cases rel with
  | some stems =>
    refine ⟨beside.signalKey (noSlash_reasons _ hm), .inr ⟨room.key hs hm, room'.key hs' hm, ?_⟩⟩
    exact .of_not_isSuffix (not_isSuffix_of_getLast? (by decide) (by rw [getLast?_signalKey]; decide))

end Mates

/-! ### Rules in lockstep -/

theorem Touches.sound {step : DiskM Unit} (h : Touches p q step) (d : Disk) (sound : d.Sound) :
    (step.run.run d).2.Sound := by
  obtain ⟨text?, chain, -⟩ := h.chain d
  exact chain.keeps (fun _ _ => Disk.Edit.sound) sound

namespace Lockstep

variable {build build' : Path → Step Outcome}

theorem writeOutput (mates : Mates p q q') (ends : q.EndsIn last) (content : String) :
    Lockstep (Ends Applied.Alike) ((contextOf p build).writeOutput q content).run
      ((contextOf p build').writeOutput q' content).run := by
  have same := mates.congr ends (.inr rfl)
    (fun path => (do DiskM.makeParents path; DiskM.write path content.toUTF8 : DiskM Unit))
    fun x y alike => by rw [DiskM.makeParents_congr alike, DiskM.write_congr alike.twins]
  refine attempt_bind (Q := fun _ _ => True) ?_ fun _ _ _ => attempt_pure (.built _ _)
  dsimp only [contextOf, engineOf, Context.outputPath] at same ⊢
  rw [← same]
  exact (attempt_onDisk (Touches.sound (.save _)) _ _).mono fun _ _ ends => by
    cases ends with
    | ok => exact .ok trivial
    | error same => exact .error same

theorem namespaceOf_bind {α β : Type} {Q : α → β → Prop} (byParts : p.metadata.ByParts)
    (mates : Mates p q q') {r : Rule} (hs : r.product.stem? q = some stem)
    (hs' : r.product.stem? q' = some stem') {f : Namespace → Attempt LocalState α}
    {f' : Namespace → Attempt LocalState β}
    (h : ∀ ns, p.metadata.namespaceOfRoot? ⟨stem⟩ = some ns → Lockstep (Ends Q) (f ns).run (f' ns).run) :
    Lockstep (Ends Q) ((contextOf p build).namespaceOf r q >>= f).run
      ((contextOf p build').namespaceOf r q' >>= f').run := by
  have stems := mates.stems hs hs'
  have root : (contextOf p build').metadata.namespaceOfRoot? ⟨stem'⟩ =
      (contextOf p build).metadata.namespaceOfRoot? ⟨stem⟩ := (byParts.namespaceOfRoot? stems.parts).symm
  unfold Context.namespaceOf
  rw [bind_assoc, bind_assoc, hs, hs']
  refine orThrow_bind (Q := fun s s' => s = stem ∧ s' = stem') (.some ⟨rfl, rfl⟩) rfl fun s s' both => ?_
  obtain ⟨rfl, rfl⟩ := both
  rw [root]
  exact orThrow_same rfl h

/-- What a rule does for spellings of a target, other than writing dependencies as spelled. -/
theorem apply (byParts : p.metadata.ByParts) (mates : Mates p q q') {r : Rule}
    (hs : r.product.stem? q = some stem) (hs' : r.product.stem? q' = some stem')
    (plain : r = .plainDepends → q = q')
    (same : ∀ x, Lockstep Outcome.Alike (build x) (build' x)) :
    Lockstep (Ends Applied.Alike) (r.apply (contextOf p build) q).run
      (r.apply (contextOf p build') q').run := by
  obtain ⟨last, ends⟩ := exists_endsIn hs
  cases r with
  | executableTags format =>
    have libraries := byParts.executables mates.beside ends
    by_cases linked : p.metadata.executableLibraries q' = []
    · simp only [Rule.apply, Context.tagExecutable, contextOf, libraries, linked, ne_eq,
        not_true_eq_false, ↓reduceIte]
      exact attempt_pure (Applied.Alike.inapplicable _)
    · simp only [Rule.apply, Context.tagExecutable, contextOf, libraries, linked, ne_eq,
        not_false_eq_true, ↓reduceIte]
      exact attempt_bind (lift (attach mates.parts _)) fun _ _ _ =>
        attempt_pure (Applied.Alike.inapplicable _)
  | depends kind =>
    change Lockstep _ ((contextOf p build).writeDepends (.depends kind) kind q).run
      ((contextOf p build').writeDepends (.depends kind) kind q').run
    unfold Context.writeDepends
    rw [hs, hs']
    refine orThrow_bind (Q := fun _ _ => True) (.some trivial) rfl fun _ _ _ => ?_
    refine orThrow_bind (mates.beside.dropSuffix?_rel (by decide)) rfl fun source source' beside => ?_
    have file : (contextOf p build').metadata.fileOfKind? kind source' =
        (contextOf p build).metadata.fileOfKind? kind source := (byParts.fileOfKind? beside.parts kind).symm
    rw [file]
    refine orThrow_same rfl fun file _ => attempt_bind (lift (tags rfl rfl)) fun ts ts' same => ?_
    obtain rfl := same
    refine attempt_bind (analyze _ _) fun raw raw' same => ?_
    obtain rfl := same
    exact writeOutput mates ends _
  | link kind =>
    have file : (contextOf p build').metadata.fileOfKind? kind q' =
        (contextOf p build).metadata.fileOfKind? kind q := (byParts.fileOfKind? mates.parts kind).symm
    simp only [Rule.apply, Context.linkSource, file]
    refine orThrow_same rfl fun file hf => attempt_bind (requireAll fun x _ => same x) fun _ _ _ => ?_
    refine attempt_bind (lift (tags rfl rfl)) fun ts ts' same => ?_
    obtain rfl := same
    refine attempt_bind (lift (attach mates.parts _)) fun _ _ _ => orThrow_same rfl fun name hn => ?_
    have replace : DiskM.replaceLink ⟨name⟩ (p.buildDir / q) = DiskM.replaceLink ⟨name⟩ (p.buildDir / q') :=
      mates.congr ends (.inr rfl) _ fun x y alike => DiskM.replaceLink_congr alike _
    have touches := Touches.link (Metadata.fileAt?_of_fileOfKind? hf).1 hn
    refine attempt_bind (Q := fun x y => x = y) ?_ fun _ _ _ => attempt_pure (Applied.Alike.built _ _)
    dsimp only [contextOf, engineOf, Context.outputPath]
    rw [← replace]
    exact attempt_onDisk touches.sound _ _
  | stamp =>
    refine namespaceOf_bind byParts mates hs hs' fun ns _ => ?_
    refine attempt_bind (requireAll fun x _ => same x) fun _ _ _ => ?_
    refine attempt_bind attempt_disk fun d e both => ?_
    obtain ⟨rfl, -⟩ := both
    dsimp only [contextOf, engineOf]
    split
    · exact writeOutput mates ends _
    · exact throw rfl
  | aliases =>
    exact namespaceOf_bind byParts mates hs hs' fun ns _ => writeOutput mates ends _
  | root =>
    change Lockstep _ ((contextOf p build).writeRoot q).run ((contextOf p build').writeRoot q').run
    unfold Context.writeRoot
    rw [hs, hs']
    refine orThrow_bind (Q := fun s s' => s = stem ∧ s' = stem') (.some ⟨rfl, rfl⟩) rfl fun s s' both => ?_
    obtain ⟨rfl, rfl⟩ := both
    refine namespaceOf_bind byParts mates hs hs' fun ns found => ?_
    refine attempt_bind attempt_disk fun d e both => ?_
    obtain ⟨rfl, -⟩ := both
    have stamp : d.readText (p.buildDir / Path.withExtension ⟨s⟩ Rule.stampExtension) =
        d.readText (p.buildDir / Path.withExtension ⟨s'⟩ Rule.stampExtension) :=
      mates.readText_stamp hs hs' found d
    dsimp only [contextOf, engineOf, Context.outputPath]
    rw [stamp]
    split
    · exact writeOutput mates ends _
    · exact throw rfl
  | manifest =>
    change Lockstep _ ((contextOf p build).writeManifest q).run ((contextOf p build').writeManifest q').run
    have root : (contextOf p build').metadata.namespaceOfRoot? ⟨stem'⟩ =
        (contextOf p build).metadata.namespaceOfRoot? ⟨stem⟩ :=
      (byParts.namespaceOfRoot? (mates.stems hs hs').parts).symm
    unfold Context.writeManifest
    rw [hs, hs']
    refine orThrow_bind (Q := fun s s' => s = stem ∧ s' = stem') (.some ⟨rfl, rfl⟩) rfl fun s s' both => ?_
    obtain ⟨rfl, rfl⟩ := both
    rw [root]
    refine orThrow_same rfl fun ns _ => orThrow_same rfl fun members _ => ?_
    refine attempt_bind (requireAll fun x _ => same x) fun _ _ _ => ?_
    refine attempt_bind attempt_disk fun d e both => ?_
    obtain ⟨rfl, -⟩ := both
    dsimp only [contextOf, engineOf, Context.outputPath]
    split
    · exact writeOutput mates ends _
    · exact throw rfl
  | plainDepends =>
    obtain rfl := plain rfl
    refine orThrow_same rfl fun source _ => attempt_bind (lift (tags rfl rfl)) fun ts ts' same => ?_
    obtain rfl := same
    refine attempt_bind (analyze _ _) fun raw raw' same => ?_
    obtain rfl := same
    exact attempt_bind (attempt_onDisk (Touches.sound (.write _)) _ _) fun _ _ _ =>
      attempt_pure (Applied.Alike.built _ _)

end Lockstep

end Local
end FlatModules
