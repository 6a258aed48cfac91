import FlatModules.Proofs.Build.Analysis
import FlatModules.Proofs.Build.Inward
import FlatModules.Proofs.Build.Owners
import FlatModules.Proofs.Disk.Elsewhere

/-!
# Build — where what is asked for lies

What is asked for while a target is built lies beside it under a lesser name, or in a directory beside
it, or where signals are (`Asks.lies`).  So nothing that is done for any of these is done where the
target is, not even through the links that builds make (`Elsewhere.asks`).
-/

namespace FlatModules

open Naming FlatModules.Path Text

/-! ### Names by what they end in -/

/-- Whether a name begins with a dot, as that of a target does that is named after nothing. -/
def Dotted (n : String) : Prop := n.toList.head? = some '.'

instance : DecidablePred Dotted := fun _ => inferInstanceAs (Decidable (_ = _))

/-- The rank of a name among those of targets: that of a digest is lowest, next are those of source
files and root modules, of their dependencies, of manifests, and of the dependencies of anything. -/
def rankOf (n : String) : Nat :=
  match n.toList.getLast? with
  | some 'p' => 0
  | some 's' =>
    if HasEnding (Rule.depends .implementation).ending n ∨
        HasEnding (Rule.depends .interface).ending n then 2 else 4
  | some 'b' => 3
  | _ => 1

/-- Whether a name comes before another one: no dotted name before one that is not, otherwise by rank,
and the shorter of two of a rank before the other. -/
def Lesser (m n : String) : Prop :=
  ¬ Dotted m ∧ Dotted n ∨ (Dotted m ↔ Dotted n) ∧
    (rankOf m < rankOf n ∨ rankOf m = rankOf n ∧ m.toList.length < n.toList.length)

variable {l m n x e e' : String}

theorem Lesser.trans (h : Lesser l m) (h' : Lesser m n) : Lesser l n := by
  unfold Lesser at *
  by_cases Dotted l <;> by_cases Dotted m <;> by_cases Dotted n <;> simp_all <;> omega

theorem Lesser.asymm (h : Lesser m n) : ¬ Lesser n m := by
  unfold Lesser at *
  by_cases Dotted m <;> by_cases Dotted n <;> simp_all <;> omega

theorem Lesser.ne (h : Lesser m n) : m ≠ n := by
  rintro rfl
  exact h.asymm h

theorem Lesser.dotted (h : Lesser m n) (hm : Dotted m) : Dotted n :=
  h.elim And.right fun both => both.1.1 hm

theorem dotted_append (he : Dotted e) : Dotted (x ++ e) ↔ x = "" ∨ Dotted x := by
  unfold Dotted at *
  rw [String.toList_append, List.head?_append, ← String.toList_inj]
  cases x.toList <;> simp [he]

theorem Lesser.of_rank (he : Dotted e) (he' : Dotted e') (less : rankOf (x ++ e) < rankOf (x ++ e')) :
    Lesser (x ++ e) (x ++ e') :=
  .inr ⟨(dotted_append he).trans (dotted_append he').symm, .inl less⟩

theorem rankOf_le (n : String) : rankOf n ≤ 4 := by
  unfold rankOf
  split <;> try omega
  split <;> omega

theorem rankOf_append_link (x : String) (kind : SourceKind) :
    rankOf (x ++ (Rule.link kind).ending) = 1 := by
  rw [rankOf, (Closing.ending (.link kind)).getLast?_append]
  cases kind <;> rfl

theorem rankOf_append_stamp (x : String) : rankOf (x ++ Rule.stamp.ending) = 0 := by
  rw [rankOf, (Closing.ending .stamp).getLast?_append]
  rfl

theorem rankOf_append_manifest (x : String) : rankOf (x ++ Rule.manifest.ending) = 3 := by
  rw [rankOf, (Closing.ending .manifest).getLast?_append]
  rfl

theorem rankOf_append_depends (x : String) (kind : SourceKind) :
    rankOf (x ++ (Rule.depends kind).ending) = 2 := by
  have last : (Rule.depends kind).ending.toList.getLast? = some 's' := by cases kind <;> decide
  rw [rankOf, (Closing.ending (.depends kind)).getLast?_append, last]
  refine if_pos ?_
  cases kind
  · exact .inr (hasEnding_append x _)
  · exact .inl (hasEnding_append x _)

/-- What dependencies are named after comes before them. -/
theorem lesser_append_plainDepends (ne : x ≠ "") : Lesser x (x ++ Rule.plainDepends.ending) := by
  have last : Rule.plainDepends.ending.toList.getLast? = some 's' := by decide
  have dotted : Dotted x ↔ Dotted (x ++ Rule.plainDepends.ending) := by
    rw [dotted_append (by decide)]
    simp [ne]
  refine .inr ⟨dotted, ?_⟩
  by_cases known : HasEnding (Rule.depends .implementation).ending (x ++ Rule.plainDepends.ending) ∨
      HasEnding (Rule.depends .interface).ending (x ++ Rule.plainDepends.ending)
  · have rank : rankOf (x ++ Rule.plainDepends.ending) = 2 := by
      rw [rankOf, (Closing.ending .plainDepends).getLast?_append, last]
      exact if_pos known
    obtain ⟨kind, y, rfl⟩ : ∃ kind y, x = y ++ (Rule.link kind).ending := by
      rcases known with h | h
      · exact ⟨_, Local.exists_of_hasEnding_depends _ h⟩
      · exact ⟨_, Local.exists_of_hasEnding_depends _ h⟩
    exact .inl (by rw [rank, rankOf_append_link]; omega)
  · have rank : rankOf (x ++ Rule.plainDepends.ending) = 4 := by
      rw [rankOf, (Closing.ending .plainDepends).getLast?_append, last]
      exact if_neg known
    have bound := rankOf_le x
    have longer : x.toList.length < (x ++ Rule.plainDepends.ending).toList.length := by
      rw [String.toList_append, List.length_append]
      exact Nat.lt_add_of_pos_right (by decide)
    omega

theorem not_dotted_append (h : isComponent x = true) : ¬ Dotted (x ++ e) := by
  obtain ⟨first, rest, text, alpha, -⟩ := isComponent_iff.1 h
  unfold Dotted
  rw [String.toList_append, text, List.cons_append, List.head?_cons, Option.some.injEq]
  rintro rfl
  exact absurd alpha (by decide)

theorem not_dotted_of_isComponent (h : isComponent x = true) : ¬ Dotted x := by
  simpa using not_dotted_append (e := "") h

theorem not_dotted_flatName_append {components : List String} (ne : components ≠ [])
    (valid : ∀ c ∈ components, isComponent c = true) : ¬ Dotted (flatName components ++ e) := by
  intro dotted
  have stem := isStem_flatName ne valid
  unfold Dotted at dotted
  rw [String.toList_append, List.head?_append] at dotted
  cases whole : (flatName components).toList with
  | nil => exact stem.isName.ne_empty (String.toList_inj.1 whole)
  | cons c cs =>
    rw [whole, List.head?_cons, Option.some_or, Option.some.injEq] at dotted
    exact stem.noDot (by simp [whole, dotted])

/-! ### The links that builds make -/

/-- The flat name of a source file with the file's own name. -/
def FlatLink (n m : String) : Prop :=
  ∃ components stem, ∃ kind : SourceKind, components ≠ [] ∧
    (∀ c ∈ components ++ [stem], isComponent c = true) ∧
    n = flatName (components ++ [stem]) ++ "." ++ kind.extension ∧ m = stem ++ "." ++ kind.extension

namespace FlatLink

theorem not_dotted (h : FlatLink n m) : ¬ Dotted n ∧ ¬ Dotted m := by
  obtain ⟨components, stem, kind, -, valid, rfl, rfl⟩ := h
  rw [String.append_assoc, String.append_assoc]
  exact ⟨not_dotted_flatName_append (by simp) valid, not_dotted_append (valid stem (by simp))⟩

theorem lesser (h : FlatLink n m) : Lesser m n := by
  have shown := h.not_dotted
  obtain ⟨components, stem, kind, ne, -, rfl, rfl⟩ := h
  have rank (x : String) : rankOf (x ++ "." ++ kind.extension) = 1 := by
    rw [String.append_assoc]
    exact rankOf_append_link x kind
  refine .inr ⟨iff_of_false shown.2 shown.1, .inr ⟨by rw [rank, rank], ?_⟩⟩
  rw [flatName_append_singleton ne]
  simp [flatName, joinWith, separator]
  omega

theorem oneHop : Disk.OneHop FlatLink where
  isName := by
    rintro n m ⟨components, stem, kind, -, valid, -, rfl⟩
    rw [String.append_assoc]
    exact (isStem_of_isComponent (valid stem (by simp))).append
      (Closing.ending (.link kind)).noSlash
  stop := by
    rintro n m l ⟨components, stem, kind, -, valid, -, rfl⟩ ⟨components', stem', kind', ne', valid', same, -⟩
    have component := valid stem (by simp)
    obtain ⟨flat, -⟩ := (isStem_of_isComponent component).inj (isStem_flatName (by simp) valid') same
    exact flatName_ne_component ne' valid' component flat.symm

theorem dot_mem (h : FlatLink n m) : '.' ∈ n.toList := by
  obtain ⟨components, stem, kind, -, -, rfl, -⟩ := h
  simp

/-- The names are of the characters of components and dots. -/
theorem notMem (h : FlatLink n m) {c : Char} (other : isComponentChar c = false) (dot : c ≠ '.') :
    c ∉ n.toList ∧ c ∉ m.toList := by
  obtain ⟨components, stem, kind, -, valid, rfl, rfl⟩ := h
  have extension : c ∉ kind.extension.toList := fun mem => by
    have component : isComponent kind.extension = true := by cases kind <;> decide
    simp [isComponentChar_of_isComponent component mem] at other
  have flat : c ∉ (flatName (components ++ [stem])).toList := fun mem => by
    simp [isComponentChar_of_mem_flatName valid mem] at other
  have own : c ∉ stem.toList := fun mem => by
    simp [isComponentChar_of_isComponent (valid stem (by simp)) mem] at other
  simp [extension, flat, own, dot]

/-- Neither name has a character of a signal's opening. -/
theorem lt_notMem (h : FlatLink n m) : '<' ∉ n.toList ∧ '<' ∉ m.toList := h.notMem (by decide) (by decide)

/-- Where there can be the name, the file's own name is taken as a path. -/
theorem checkPath_eq (h : FlatLink n m) (short : n.utf8ByteSize ≤ Disk.nameLimit) :
    Disk.checkPath ⟨m⟩ = .ok () := by
  have noZero := (h.notMem (c := '\x00') (by decide) (by decide)).2
  have name := oneHop.isName h
  obtain ⟨components, stem, kind, ne, -, rfl, rfl⟩ := h
  have ends : flatName (components ++ [stem]) = flatName components ++ separator ++ stem := by
    rw [flatName_append_singleton ne]
    exact String.toList_inj.1 (by simp [flatName, joinWith])
  have long : ¬ (stem ++ "." ++ kind.extension).utf8ByteSize > Disk.pathLimit := by
    simp only [ends, String.utf8ByteSize_append, Disk.nameLimit, Disk.pathLimit] at short ⊢
    omega
  rw [Disk.checkPath, Disk.checkSpelling, if_neg (by simpa using noZero), if_neg (by simp [name.ne_empty])]
  simp only [bind, Except.bind, pure, Except.pure, long, ↓reduceIte]

theorem getLast?_ne (h : FlatLink n m) : n.toList.getLast? ≠ some '>' := by
  obtain ⟨components, stem, kind, -, -, rfl, -⟩ := h
  rw [String.append_assoc, show "." ++ kind.extension = (Rule.link kind).ending from rfl,
    (Closing.ending (.link kind)).getLast?_append]
  cases kind <;> decide

end FlatLink

/-! ### Names that lie onward -/

/-- A name of a target that a rule is tried for. -/
def TargetName (n : String) : Prop := ∃ x, ∃ r : Rule, n = x ++ r.ending

theorem TargetName.dot_mem (h : TargetName n) : '.' ∈ n.toList := by
  obtain ⟨x, r, rfl⟩ := h
  rw [String.toList_append]
  refine List.mem_append_right _ ?_
  cases r <;> (try rename_i k; cases k) <;> decide

theorem FlatLink.targetName (h : FlatLink n m) : TargetName n := by
  obtain ⟨components, stem, kind, -, -, rfl, -⟩ := h
  exact ⟨_, .link kind, String.append_assoc ..⟩

theorem TargetName.getLast?_notMem (h : TargetName n) :
    n.toList.getLast? ∉ [some '>', some '.', some ':'] := by
  obtain ⟨x, r, rfl⟩ := h
  rw [(Closing.ending r).getLast?_append]
  cases r <;> (try rename_i k; cases k) <;> decide

/-- Names that go on from where a target is: to a name before its own, into a directory beside it, or,
if the target is dotted in a directory, to what is beside that or in it. -/
inductive Onward (above : List String) (last : String) : List String → Prop
  | beside {n : String} (less : Lesser n last) : Onward above last (above ++ [n])
  | within {c : String} {more : List String} (plain : '.' ∉ c.toList)
      (seen : ∀ m ∈ c :: more, ¬ Dotted m) : Onward above last (above ++ c :: more)
  | beyond {around more : List String} {c dir : String} (dotted : Dotted last)
      (inside : above = around ++ [dir]) (plain : '.' ∉ dir.toList) (seen : ∀ m ∈ c :: more, ¬ Dotted m) :
      Onward above last (around ++ c :: more)

variable {above front names : List String} {last : String}

/-- What goes on from a name that is not dotted is not dotted either. -/
theorem Onward.exists_of_seen {c : String} {more : List String} (whole : front ++ [n] = above ++ c :: more)
    (seen : ∀ m ∈ c :: more, ¬ Dotted m) (h : Onward front n names) :
    ∃ c' more', names = above ++ c' :: more' ∧ (∀ m ∈ c' :: more', ¬ Dotted m) ∧ (more ≠ [] → c' = c) := by
  have own : ¬ Dotted n := by
    rcases Tree.append_singleton_eq_append_cons.1 whole with ⟨-, rfl, -⟩ | ⟨rest, rfl, -⟩
    · exact seen n (by simp)
    · exact seen n (by simp)
  rcases Tree.append_singleton_eq_append_cons.1 whole with ⟨rfl, rfl, rfl⟩ | ⟨rest, rfl, rfl⟩
  · cases h with
    | @beside m less => exact ⟨m, [], rfl, by simpa using fun hm => own (less.dotted hm), by simp⟩
    | within plain seen' => exact ⟨_, _, rfl, seen', by simp⟩
    | beyond dotted => exact absurd dotted own
  · cases h with
    | @beside m less =>
      refine ⟨c, rest ++ [m], by simp, fun l hl => ?_, fun _ => rfl⟩
      rcases List.mem_append.1 (show l ∈ (c :: rest) ++ [m] from hl) with hl | hl
      · exact seen l (by simpa using (List.mem_cons.1 hl).imp_right .inl)
      · obtain rfl := List.mem_singleton.1 hl
        exact fun hm => own (less.dotted hm)
    | @within c' more' plain seen' =>
      refine ⟨c, rest ++ c' :: more', by simp, fun l hl => ?_, fun _ => rfl⟩
      rcases List.mem_append.1 (show l ∈ (c :: rest) ++ c' :: more' from hl) with hl | hl
      · exact seen l (by simpa using (List.mem_cons.1 hl).imp_right .inl)
      · exact seen' l hl
    | beyond dotted => exact absurd dotted own

theorem Onward.trans (h : Onward above last (front ++ [n])) (own : TargetName n)
    (h' : Onward front n names) : Onward above last names := by
  generalize whole : front ++ [n] = names₁ at h
  cases h with
  | beside less =>
    obtain ⟨rfl, rfl⟩ := List.append_singleton_inj.1 whole
    cases h' with
    | beside less' => exact .beside (less'.trans less)
    | within plain seen => exact .within plain seen
    | beyond dotted inside plain seen => exact .beyond (less.dotted dotted) inside plain seen
  | @within c more plain seen =>
    obtain ⟨c', more', rfl, seen', same⟩ := h'.exists_of_seen whole seen
    obtain rfl := same fun none_ => by
      subst none_
      obtain ⟨-, rfl⟩ := List.append_singleton_inj.1 whole
      exact plain own.dot_mem
    exact .within plain seen'
  | beyond dotted inside plain seen =>
    obtain ⟨c', more', rfl, seen', -⟩ := h'.exists_of_seen whole seen
    exact .beyond dotted inside plain seen'

theorem Disk.Via.final {L : String → String → Prop} {xs ms : List String}
    (h : Via L (xs ++ [n]) (ms ++ [m])) : m = n ∨ L n m := by
  have back := List.forall₂_reverse_iff.2 h
  rw [List.reverse_append, List.reverse_append] at back
  exact (List.forall₂_cons.1 back).1

/-- Where names lie onward, nothing is done where the target is. -/
theorem Onward.away (h : Onward above last names) (own : TargetName last) :
    Disk.Away FlatLink above last names := by
  intro ms via
  -- what counts is the name at the target's own depth
  have beside {front rest : List String} {n : String} (level : front.length = above.length) (ne : n ≠ last)
      (unlinked : rest = [] → ¬ FlatLink n last) :
      (∀ front', front' ++ [last] <+: front ++ n :: rest → ¬ Disk.Via FlatLink front' ms) ∧
        ¬ Disk.Via FlatLink (front ++ n :: rest) (ms ++ [last]) := by
    constructor
    · rintro front' ⟨more, whole⟩ via'
      have lengths : front'.length = front.length :=
        (via'.length_eq.symm.trans via.length_eq).trans level.symm
      rw [List.append_assoc, List.singleton_append] at whole
      obtain ⟨-, same⟩ := List.append_inj whole lengths
      exact ne (List.cons.inj same).1.symm
    · intro via'
      have lengths := via'.length_eq
      rw [List.length_append, List.length_append, via.length_eq, level] at lengths
      obtain rfl : rest = [] := by
        refine List.length_eq_zero_iff.1 ?_
        simp only [List.length_cons, List.length_nil] at lengths
        omega
      exact via'.final.elim (fun same => ne same.symm) (unlinked rfl)
  cases h with
  | beside less => exact beside rfl less.ne fun _ link => link.lesser.asymm less
  | within plain =>
    exact beside rfl (fun same => plain (same ▸ own.dot_mem)) fun _ link => plain link.dot_mem
  | @beyond around more c dir dotted inside plain seen =>
    have seen' {m : String} (hm : m ∈ c :: more) : m ≠ last ∧ ¬ FlatLink m last :=
      ⟨fun same => seen m hm (same ▸ dotted), fun link => link.not_dotted.2 dotted⟩
    cases more with
    | nil =>
      -- the names are too few to go on there
      have few : (around ++ [c]).length = above.length := by simp [inside]
      constructor
      · intro front' begins via'
        have length := begins.length_le
        rw [List.length_append, few, ← via.length_eq, via'.length_eq] at length
        simp at length
      · intro via'
        have length := via'.length_eq
        rw [List.length_append, few, via.length_eq] at length
        simp at length
    | cons m more =>
      have apart := seen' (m := m) (by simp)
      have := @beside (around ++ [c]) more m (by simp [inside]) apart.1
        fun _ => apart.2
      simpa using this


/-- A link onward from a target is not on the way there. -/
theorem Onward.not_onWay (h : Onward above last (front ++ [n])) (link : FlatLink n m) :
    above[front.length]? ≠ some n := by
  generalize whole : front ++ [n] = names₁ at h
  have far (long : above.length ≤ front.length) : above[front.length]? ≠ some n := by
    simp [List.getElem?_eq_none long]
  cases h with
  | beside => exact far (by rw [(List.append_singleton_inj.1 whole).1])
  | within =>
    rcases Tree.append_singleton_eq_append_cons.1 whole with ⟨rfl, -⟩ | ⟨rest, -, rfl⟩
    · exact far le_rfl
    · exact far (by simp)
  | beyond dotted inside plain =>
    subst inside
    rcases Tree.append_singleton_eq_append_cons.1 whole with ⟨rfl, rfl, -⟩ | ⟨rest, -, rfl⟩
    · rw [List.getElem?_concat_length]
      exact fun same => plain (Option.some.inj same ▸ link.dot_mem)
    · exact far (by simp)

/-! ### Signals -/

section Signals

variable {q : Path} {file message : String} {ms : List String}

/-- A name with a character that links have not leads nowhere else, and nothing else to it. -/
theorem eq_of_marked {a x m : String} (marked : '<' ∈ x.toList) (h : m = x ∨ FlatLink x m)
    (h' : m = a ∨ FlatLink a m) : a = x := by
  obtain rfl : m = x := h.resolve_right fun link => link.lt_notMem.1 marked
  exact (h'.resolve_right fun link => link.lt_notMem.2 marked).symm

/-- Names that lead to where they themselves lead one later are all one name. -/
theorem eq_of_shifted {above front rest : List String} {n x : String} (marked : '<' ∈ x.toList)
    (via : Disk.Via FlatLink front ms) (via' : Disk.Via FlatLink above ms)
    (h : front ++ [n] <+: x :: (above ++ rest)) : n = x := by
  induction above generalizing front ms with
  | nil =>
    obtain rfl := List.forall₂_nil_left_iff.1 via'
    obtain rfl := List.forall₂_nil_right_iff.1 via
    simpa using h
  | cons a above ih =>
    obtain ⟨m, ms', first', rest', rfl⟩ := List.forall₂_cons_left_iff.1 via'
    obtain ⟨f, front', first, rest'', rfl⟩ := List.forall₂_cons_right_iff.1 via
    rw [List.cons_append, List.cons_prefix_cons] at h
    obtain ⟨rfl, h⟩ := h
    obtain rfl := eq_of_marked marked first first'
    exact ih rest'' rest' h

/-- The last name of a signal's target is closed. -/
theorem exists_names_signalKey (q : Path) (message : String) : ∃ init x,
    (⟨signalKey q message⟩ : Path).names = init ++ [x ++ signalClose] ∧
      (x ++ signalClose).toList.getLast? = some '>' := by
  obtain ⟨init, x, closed⟩ := exists_names_append
    (signalOpen ++ q.text ++ ":" ++ String.ofList (message.toList.map signalChar))
  have ending : IsEnding signalClose := by decide
  exact ⟨init, x, closed _ ending.noSlash (ending.append_ne x).1 (ending.append_ne x).2,
    (hasEnding_append x signalClose).getLast?_eq (by decide)⟩

section Opened

variable {front mid : List String} {first : String} (own : TargetName last)
  (via : Disk.Via FlatLink above ms) (via' : Disk.Via FlatLink front ms)

include own via via'

/-- With the opening before a segment that names nothing, all names come one later. -/
theorem not_isPrefix_of_idle (idle : first = "" ∨ first = ".")
    (lies : mid ++ [file] = above ++ [last] ∨ Onward above last (mid ++ [file])) :
    ¬ front ++ [last] <+: (signalOpen ++ first) :: mid := by
  intro begins
  have level : front.length = above.length := via'.length_eq.symm.trans via.length_eq
  have ends : (signalOpen ++ first).toList.getLast? ∈ [some '>', some '.', some ':'] := by
    rcases idle with rfl | rfl <;> decide
  have shifted {rest : List String} (more : mid = above ++ rest) : False := by
    subst more
    exact own.getLast?_notMem (eq_of_shifted (lt_mem_signalOpen_append first) via' via begins ▸ ends)
  rcases lies with same | lies
  · exact @shifted [] (by simpa using (List.append_singleton_inj.1 same).1)
  generalize both : mid ++ [file] = onward at lies
  cases lies with
  | beside less => exact @shifted [] (by simpa using (List.append_singleton_inj.1 both).1)
  | within =>
    rcases Tree.append_singleton_eq_append_cons.1 both with ⟨rfl, -⟩ | ⟨rest, -, rfl⟩
    · exact shifted (List.append_nil _).symm
    · exact shifted rfl
  | beyond dotted inside plain seen =>
    subst inside
    rcases Tree.append_singleton_eq_append_cons.1 both with ⟨rfl, -⟩ | ⟨rest, rfl, rfl⟩
    · simpa [level] using begins.length_le
    · -- the name at the target's depth is one that is not dotted
      obtain ⟨more, begins⟩ := begins
      rw [← List.cons_append, List.append_assoc, List.singleton_append] at begins
      obtain ⟨-, same⟩ := List.append_inj begins (by simpa using level)
      exact seen last (by simp [(List.cons.inj same).1]) dotted

/-- With the opening before its first name, a path leads elsewhere from there. -/
theorem not_isPrefix_of_named
    (lies : first :: mid ++ [file] = above ++ [last] ∨ Onward above last (first :: mid ++ [file])) :
    ¬ front ++ [last] <+: (signalOpen ++ first) :: mid := by
  intro begins
  have longer : first ≠ signalOpen ++ first := by
    intro same
    have length := congrArg String.length same
    simp [signalOpen] at length
  cases above with
  | nil =>
    obtain rfl := List.forall₂_nil_left_iff.1 via
    obtain rfl := List.forall₂_nil_right_iff.1 via'
    obtain rfl : last = signalOpen ++ first := by simpa using begins
    rcases lies with same | lies
    · simp at same
    generalize both : first :: mid ++ [file] = onward at lies
    cases lies with
    | beside => simp at both
    | within plain =>
      obtain ⟨rfl, -⟩ := List.cons.inj both
      have dot := own.dot_mem
      rw [String.toList_append] at dot
      exact (List.mem_append.1 dot).elim (by decide) plain
    | beyond _ inside => simp at inside
  | cons a above =>
    obtain ⟨m, ms', first', rest', rfl⟩ := List.forall₂_cons_left_iff.1 via
    obtain ⟨f, front', first'', rest'', rfl⟩ := List.forall₂_cons_right_iff.1 via'
    have level : front'.length = above.length :=
      (List.Forall₂.length_eq rest'').trans (List.Forall₂.length_eq rest').symm
    rw [List.cons_append, List.cons_prefix_cons] at begins
    obtain ⟨rfl, begins⟩ := begins
    obtain rfl := eq_of_marked (lt_mem_signalOpen_append first) first'' first'
    rcases lies with same | lies
    · exact longer (List.cons.inj same).1
    generalize both : first :: mid ++ [file] = onward at lies
    cases lies with
    | beside => exact longer (List.cons.inj both).1
    | within => exact longer (List.cons.inj both).1
    | @beyond around more c dir dotted inside plain seen =>
      cases around with
      | cons b around => exact longer ((List.cons.inj both).1.trans (List.cons.inj inside).1.symm)
      | nil =>
        obtain ⟨rfl, rfl⟩ := List.cons.inj both
        obtain ⟨-, rfl⟩ := List.cons.inj inside
        obtain rfl := List.length_eq_zero_iff.1 level
        obtain ⟨rest, rfl⟩ := begins
        exact seen last (by simp) dotted

end Opened

/-- The signal of a target that lies onward is elsewhere, and so is that of the target itself. -/
theorem away_signalKey (own : TargetName last) (lies : q.names = above ++ [last] ∨ Onward above last q.names)
    (ends : q.EndsIn file) (hm : '/' ∉ message.toList) :
    Disk.Away FlatLink above last (⟨signalKey q message⟩ : Path).names := by
  intro ms via
  obtain ⟨init, x, whole, close⟩ := exists_names_signalKey q message
  have apart : last ≠ x ++ signalClose := fun same => own.getLast?_notMem (by rw [same, close]; decide)
  obtain ⟨first, rest, names, from_⟩ := signalKey_names ends hm
  rw [whole]
  refine ⟨fun front begins via' => ?_, fun via' => via'.final.elim apart fun link => link.getLast?_ne close⟩
  replace begins : front ++ [last] <+: init :=
    (List.prefix_concat_iff.1 begins).resolve_left fun same => apart (List.append_singleton_inj.1 same).2
  rw [whole] at names
  rcases from_ with ⟨-, rfl⟩ | ⟨mid, rfl, ⟨before, idle⟩ | before⟩
  · obtain ⟨rfl, -⟩ := List.append_singleton_inj.1 (names.trans (List.nil_append _).symm)
    simpa using begins.length_le
  · obtain ⟨rfl, -⟩ := List.append_singleton_inj.1 (names.trans (List.cons_append ..).symm)
    exact not_isPrefix_of_idle own via via' idle (before ▸ lies) begins
  · obtain ⟨rfl, -⟩ := List.append_singleton_inj.1 (names.trans (List.cons_append ..).symm)
    exact not_isPrefix_of_named own via via' (before ▸ lies) begins

end Signals

/-! ### What is asked for -/

namespace Tree

variable {sources : List Path} {vs : List Visit} {t : Tree} {s : Scope} {q : Path}

/-- A source file lies where it is seen, under a name that a link leads to. -/
theorem After.names_file (h : After sources vs t) (it : Itinerary sources vs) {f : NamespacedFile}
    (hf : f ∈ t.files) : ∃ dir n m, f.virtualPath.names = dir ++ [n] ∧ f.realPath.names = dir ++ [m] ∧
      f.realPath.fileName? = some m ∧ FlatLink n m := by
  obtain ⟨components, stem, made⟩ := h.shaped.made f hf
  obtain ⟨v, hv, u, -, kind, stem', -, -, source, rfl, -⟩ := h.file f hf
  have parts := v.parts_of_source? (it.isName v hv) (it.ne_nil v hv) source
  have own := fileName?_of_parts parts
  refine ⟨v.above.names, _, _, ?_, names_of_parts_singleton parts, own, components, stem, kind,
    made.ne_nil, made.valid, rfl, ?_⟩
  · rw [made.virtualPath_eq, names_div made.isName]
    rfl
  · exact Option.some.inj (own.symm.trans made.fileName?_eq)

/-- What the digest of a namespace covers is in its directory. -/
theorem After.names_closure (h : After sources vs t) (it : Itinerary sources vs) (hs : s ∈ t.scopes)
    (hq : q ∈ t.closure s.ns) : ∃ n, q.names = s.ns.dir.names ++ [n] ∧ ¬ Dotted n := by
  obtain ⟨source, -, lies⟩ := h.shaped.below s.ns (List.mem_map_of_mem hs)
  rcases h.closure_cases hs hq with ⟨l, hl, hq⟩ | ⟨c, child, rfl⟩
  · obtain ⟨before, u, after, -, -, filled⟩ := h.scope s hs
    have mem := filled.files.mem_iff.1 (List.mem_flatMap.2 ⟨l, hl, hq⟩)
    obtain ⟨v, -, seen⟩ := List.mem_filterMap.1 mem
    unfold Visit.virtualIn? at seen
    split at seen
    case h_1 kind stem is =>
      obtain ⟨here, seen⟩ := Option.ite_none_right_eq_some.1 seen
      obtain rfl := Option.some.inj seen
      have made := v.made_fileIn lies is
      refine ⟨flatName (s.ns.components ++ [stem]) ++ ("." ++ kind.extension), ?_,
        not_dotted_flatName_append (by simp) made.valid⟩
      rw [← String.append_assoc]
      exact (names_of_parts_singleton (v.parts_fileIn lies is)).trans (by rw [names_congr here])
    case h_2 => simp at seen
  · obtain ⟨hc, last, parts⟩ := h.parts_childScopes it hs child
    obtain ⟨source', -, below⟩ := h.shaped.below c.ns (List.mem_map_of_mem hc)
    have flat := below.isStem
    refine ⟨c.ns.flatName ++ Rule.root.ending, ?_, ?_⟩
    · have slash : '/' ∉ Rule.root.ending.toList := by decide
      have above : c.ns.above.parts = s.ns.dir.parts := by
        obtain ⟨front, last', comps, -, -⟩ := below.exists_last
        have dir := below.parts_dir
        rw [comps, List.map_append, ← List.append_assoc, parts] at dir
        rw [below.parts_above, comps, List.dropLast_concat]
        exact (List.append_inj_left' dir rfl).symm
      rw [below.rootFile_eq, Namespace.target, below.rootPath_append slash,
        names_div (below.isStem.append slash), names_congr above]
    · rw [below.flatName_eq]
      exact not_dotted_flatName_append below.ne_nil below.valid

/-- The namespaces of a library are in directories of components. -/
theorem After.names_scopesWithin (h : After sources vs t) (it : Itinerary sources vs) (k : Nat)
    (hs : s ∈ t.scopes) {r : Scope} (hr : r ∈ t.scopesWithin k s) :
    r ∈ t.scopes ∧ ∃ rest, r.ns.dir.names = s.ns.dir.names ++ rest ∧ ∀ c ∈ rest, isComponent c = true := by
  induction k generalizing s with
  | zero => simp [scopesWithin] at hr
  | succ k ih =>
    rcases List.mem_cons.1 hr with rfl | hr
    · exact ⟨hs, [], by simp⟩
    · obtain ⟨c, hc, hr⟩ := List.mem_flatMap.1 hr
      obtain ⟨there, last, parts⟩ := h.parts_childScopes it hs hc
      obtain ⟨hr, rest, names, valid⟩ := ih there hr
      obtain ⟨source', -, below⟩ := h.shaped.below c.ns (List.mem_map_of_mem there)
      obtain ⟨front, last', comps, -, -⟩ := below.exists_last
      have dir := below.parts_dir
      rw [comps, List.map_append, ← List.append_assoc, parts] at dir
      obtain rfl : last = last' := by
        simpa using List.append_inj_right' dir rfl
      refine ⟨hr, last :: rest, ?_, ?_⟩
      · rw [names, names_of_parts_singleton parts, List.append_assoc, List.singleton_append]
      · exact List.forall_mem_cons.2 ⟨below.valid last (by simp [comps]), valid⟩

/-- What a library has of its namespaces is beside the library's own directory, or in it. -/
theorem After.names_item (h : After sources vs t) (it : Itinerary sources vs) (beside : t.LeavesBeside)
    {k : Nat} (hs : s ∈ t.scopes) {i : LibraryItem} (hi : i ∈ (t.scopesWithin k s).flatMap Scope.items) :
    ∃ n, i.path.EndsIn n ∧ ¬ Dotted n ∧ (i.path.names = s.ns.above.names ++ [n] ∨
      ∃ rest, i.path.names = s.ns.dir.names ++ rest ++ [n] ∧ ∀ c ∈ rest, isComponent c = true) := by
  obtain ⟨r, hr, hi⟩ := List.mem_flatMap.1 hi
  obtain ⟨there, rest, dir, valid⟩ := h.names_scopesWithin it k hs hr
  obtain ⟨source, -, lies⟩ := h.shaped.below r.ns (List.mem_map_of_mem there)
  -- beside a namespace that is further inside is still inside
  have around : r.ns.above.names = s.ns.above.names ∨
      ∃ rest, r.ns.above.names = s.ns.dir.names ++ rest ∧ ∀ c ∈ rest, isComponent c = true := by
    obtain ⟨front, last, comps, -, -⟩ := lies.exists_last
    have own : r.ns.dir.names = r.ns.above.names ++ [last] := by
      refine names_of_parts_singleton ?_
      rw [lies.parts_dir, lies.parts_above, comps]
      simp
    rcases List.eq_nil_or_concat' rest with rfl | ⟨rest, c, rfl⟩
    · obtain ⟨source', -, lies'⟩ := h.shaped.below s.ns (List.mem_map_of_mem hs)
      obtain ⟨front', last', comps', -, -⟩ := lies'.exists_last
      have own' : s.ns.dir.names = s.ns.above.names ++ [last'] := by
        refine names_of_parts_singleton ?_
        rw [lies'.parts_dir, lies'.parts_above, comps']
        simp
      rw [own, List.append_nil, own'] at dir
      exact .inl (List.append_singleton_inj.1 dir).1
    · rw [own, ← List.append_assoc] at dir
      exact .inr ⟨rest, (List.append_singleton_inj.1 dir).1, fun c hc => valid c (by simp [hc])⟩
  have outer (e : String) (slash : '/' ∉ e.toList) : ∃ n, (r.ns.above / ⟨r.ns.flatName ++ e⟩).EndsIn n ∧
      ¬ Dotted n ∧ ((r.ns.above / ⟨r.ns.flatName ++ e⟩).names = s.ns.above.names ++ [n] ∨
        ∃ rest, (r.ns.above / ⟨r.ns.flatName ++ e⟩).names = s.ns.dir.names ++ rest ++ [n] ∧
          ∀ c ∈ rest, isComponent c = true) := by
    have name := lies.isStem.append slash
    refine ⟨_, endsIn_div name, ?_, ?_⟩
    · rw [lies.flatName_eq]
      exact not_dotted_flatName_append lies.ne_nil lies.valid
    · rw [names_div name]
      rcases around with same | ⟨rest, same, valid⟩
      · exact .inl (by rw [same])
      · exact .inr ⟨rest, by rw [same], valid⟩
  rcases Scope.mem_items hi with rfl | ⟨l, hl, rfl⟩ | rfl
  · rw [LibraryItem.path, aliasesPath, lies.rootPath_append (by decide)]
    exact outer _ (by decide)
  · obtain ⟨ne, valid', -⟩ := h.leaf_named there hl
    obtain ⟨dir', same, path⟩ := beside r there l hl
    have flat : flatName [r.ns.flatName, l.stem] = flatName (r.ns.components ++ [l.stem]) := by
      rw [flatName_append_singleton ne, lies.flatName_eq]
    rw [LibraryItem.path, path, flat]
    have stem := isStem_flatName (by simp) valid'
    refine ⟨_, endsIn_div stem.isName, ?_, .inr ⟨rest, ?_, valid⟩⟩
    · simpa using not_dotted_flatName_append (e := "") (by simp) valid'
    · rw [names_div stem.isName, names_congr same, dir]
  · rw [LibraryItem.path, lies.rootPath_eq, ← String.append_empty (s := r.ns.flatName)]
    exact outer _ (by simp)

end Tree

/-- The directory of a namespace is named by its last component. -/
theorem Namespace.LiesBelow.exists_names_dir {ns : Namespace} {source : Path} (h : ns.LiesBelow source) :
    ∃ last, isComponent last = true ∧ ns.dir.names = ns.above.names ++ [last] := by
  obtain ⟨front, last, comps, -, -⟩ := h.exists_last
  refine ⟨last, h.valid last (by simp [comps]), names_of_parts_singleton ?_⟩
  rw [h.parts_dir, h.parts_above, comps]
  simp

/-- Whether a path is spelled so that it names no file. -/
def Path.EndsIdle (q : Path) : Prop := ∃ above last, q.Spelled above last ∧ Idle last

namespace Local

variable {d : Disk} {root : Path} {config : Config} {programs : Analyzer.Programs} {t : Tree}
  {q r : Path}

/-- A target that a rule is tried for, by its segments and those of what else has its stem. -/
structure StemAt (q : Path) (r : Rule) (stem : String) (segments : List (List Char)) (x : String) :
    Prop where
  segments_eq : ∀ e, '/' ∉ e.toList → (⟨stem ++ e⟩ : Path).segments = segments ++ [(x ++ e).toList]
  path_eq : q = ⟨stem ++ r.ending⟩

theorem exists_stemAt {r : Rule} {stem : String} (hs : r.product.stem? q = some stem) :
    ∃ segments x, StemAt q r stem segments x := by
  obtain ⟨segments, x, same⟩ := exists_segments_append stem
  exact ⟨segments, x, same, congrArg Path.mk (Pattern.stem?_ending_eq_some_iff.1 hs).1⟩

namespace StemAt

variable {rule : Rule} {stem x : String} {segments : List (List Char)}

theorem names_eq (h : StemAt q rule stem segments x) (r : Rule) :
    (⟨stem ++ r.ending⟩ : Path).names = namesOf segments ++ [x ++ r.ending] := by
  rw [names, h.segments_eq _ (Closing.ending r).noSlash, namesOf_append,
    namesOf_singleton ((isEnding_ending r).append_ne x)]

theorem endsIn (h : StemAt q rule stem segments x) : q.EndsIn (x ++ rule.ending) := by
  obtain ⟨proper, proper'⟩ := (isEnding_ending rule).append_ne x
  exact ⟨segments, h.path_eq ▸ h.segments_eq _ (Closing.ending rule).noSlash, proper, proper'⟩

/-- The stem itself. -/
theorem segments_stem (h : StemAt q rule stem segments x) :
    (⟨stem⟩ : Path).segments = segments ++ [x.toList] := by
  simpa using h.segments_eq "" (by simp)

theorem names_stem (h : StemAt q rule stem segments x) :
    (⟨stem⟩ : Path).names = namesOf (segments ++ [x.toList]) :=
  congrArg namesOf h.segments_stem

end StemAt

/-- What comes of the root path of a namespace lies onward from a target that is named after it. -/
theorem onward_of_root {ns : Namespace} {source : Path} (lies : ns.LiesBelow source)
    {segments : List (List Char)} {x e : String} (hidden : Dotted e)
    (root : namesOf (segments ++ [x.toList]) = ns.rootPath.names) :
    (∀ {c more}, '.' ∉ c.toList → (∀ m ∈ c :: more, ¬ Dotted m) →
      Onward (namesOf segments) (x ++ e) (ns.above.names ++ c :: more)) ∧
    ∀ {n}, ¬ Dotted n → (x = ns.flatName → Lesser n (x ++ e)) →
      Onward (namesOf segments) (x ++ e) (ns.above.names ++ [n]) := by
  rw [lies.rootPath_eq, names_div lies.isStem.isName, namesOf_append] at root
  by_cases idle : x = "" ∨ x = "."
  · -- the target is hidden in what is named as the root module
    have inside : namesOf segments = ns.above.names ++ [ns.flatName] := by
      rw [← root, namesOf_cons_idle (idle.imp (fun e => e ▸ rfl) fun e => e ▸ rfl), namesOf_nil,
        List.append_nil]
    have dotted : Dotted (x ++ e) := by
      rw [dotted_append hidden]
      rcases idle with rfl | rfl
      · exact .inl rfl
      · exact .inr rfl
    have plain := lies.isStem.noDot
    exact ⟨fun _ seen => .beyond dotted inside plain seen, fun seen _ => .beyond dotted inside plain (by simpa using seen)⟩
  · rw [namesOf_singleton (not_or.1 idle)] at root
    obtain ⟨same, rfl⟩ := List.append_singleton_inj.1 root
    exact ⟨fun plain seen => same ▸ .within plain seen, fun _ less => same ▸ .beside (less rfl)⟩

/-- Where the dependencies of a library's member are. -/
theorem names_memberDepends {i : Path} {n : String} {front : List String} (ends : i.EndsIn n)
    (names : i.names = front ++ [n]) (seen : ¬ Dotted n) : ∃ y,
      (memberDepends i.text).names = front ++ [y ++ (Rule.depends .implementation).ending] ∧
        ¬ Dotted (y ++ (Rule.depends .implementation).ending) := by
  -- with or without the ending of an implementation, the stem is the same
  obtain ⟨stem, e, noSlash, he, text, depends⟩ : ∃ stem e, '/' ∉ e.toList ∧ (e = "" ∨ Dotted e) ∧
      i.text = stem ++ e ∧ memberDepends i.text = ⟨stem ++ (Rule.depends .implementation).ending⟩ := by
    unfold memberDepends
    dsimp only
    split
    case isTrue has =>
      obtain ⟨rest, tail⟩ := Option.isSome_iff_exists.1 has
      refine ⟨String.ofList rest, (Rule.link .implementation).ending, by decide, .inr (by decide), ?_, ?_⟩
      · exact String.toList_inj.1 (by simpa [Rule.ending] using Text.dropTail?_eq_some_iff.1 tail)
      · refine congrArg Path.mk (String.toList_inj.1 ?_)
        simp [Text.dropTail?_eq_some_iff.1 tail, Rule.ending]
    case isFalse =>
      refine ⟨i.text, "", by simp, .inl rfl, String.append_empty.symm, ?_⟩
      exact congrArg Path.mk (String.toList_inj.1 (by simp [Rule.ending]))
  obtain ⟨segments, y, same⟩ := exists_segments_append stem
  have path : i = ⟨stem ++ e⟩ := congrArg Path.mk text
  obtain ⟨segments', whole, proper⟩ := ends
  have whole' : i.segments = segments ++ [(y ++ e).toList] := path ▸ same e noSlash
  obtain ⟨rfl, last⟩ := List.append_inj' (whole.symm.trans whole') rfl
  obtain rfl : n = y ++ e := String.toList_inj.1 (List.singleton_inj.1 last)
  rw [Path.names, whole', namesOf_append, namesOf_singleton proper] at names
  obtain ⟨rfl, -⟩ := List.append_singleton_inj.1 names
  refine ⟨y, ?_, fun dotted => ?_⟩
  · rw [depends, Path.names, same _ (Closing.ending _).noSlash, namesOf_append,
      namesOf_singleton ((isEnding_ending _).append_ne y)]
  · rw [dotted_append (by decide)] at dotted
    rcases he with rfl | he
    · rw [String.append_empty] at seen proper
      exact dotted.elim proper.1 seen
    · exact seen ((dotted_append he).2 dotted)

/-- What is asked for while a target is built lies onward from it, or is its signal; what else is asked
for cannot be a file. -/
theorem Asks.lies (sound : d.Sound) (ok : Tree.scan d root config = .ok t)
    (asks : Asks (t.project root config programs) q r) :
    ∃ front n, q.EndsIn n ∧ q.names = front ++ [n] ∧ TargetName n ∧
      (Onward front n r.names ∨ EndsIdle r ∨
        ∃ message, '/' ∉ message.toList ∧ r = ⟨signalKey q message⟩) := by
  have h := Tree.After.scan sound ok
  have it := Tree.itinerary_visits sound root config.sourceDirs
  have of {rule : Rule} {stem : String} {segments : List (List Char)} {x : String}
      (stemAt : StemAt q rule stem segments x)
      (lies : Onward (namesOf segments) (x ++ rule.ending) r.names ∨ EndsIdle r ∨
        ∃ message, '/' ∉ message.toList ∧ r = ⟨signalKey q message⟩) :
      ∃ front n, q.EndsIn n ∧ q.names = front ++ [n] ∧ TargetName n ∧
        (Onward front n r.names ∨ EndsIdle r ∨
          ∃ message, '/' ∉ message.toList ∧ r = ⟨signalKey q message⟩) :=
    ⟨_, _, stemAt.endsIn, stemAt.path_eq ▸ stemAt.names_eq rule, ⟨x, rule, rfl⟩, lies⟩
  cases asks with
  | @dependency rule stem pattern hs hd =>
    obtain ⟨segments, x, stemAt⟩ := exists_stemAt hs
    refine of stemAt ?_
    cases rule with
    | depends kind =>
      obtain rfl := List.mem_singleton.1 hd
      rw [Pattern_ending_fill]
      refine .inl (stemAt.names_eq (.link kind) ▸ .beside (.of_rank ?_ ?_ ?_))
      · cases kind <;> decide
      · cases kind <;> decide
      · rw [rankOf_append_link, rankOf_append_depends]
        decide
    | root =>
      obtain rfl := List.mem_singleton.1 hd
      rw [Pattern_ending_fill]
      refine .inl (stemAt.names_eq .stamp ▸ .beside (.of_rank (by decide) (by decide) ?_))
      rw [rankOf_append_stamp]
      exact Nat.lt_of_lt_of_eq Nat.zero_lt_one (rankOf_append_link x .implementation).symm
    | plainDepends =>
      obtain rfl := List.mem_singleton.1 hd
      rw [Pattern_ending_fill, String.append_empty]
      have last := stemAt.segments_stem
      by_cases idle : x = "" ∨ x = "."
      · obtain ⟨above, last', spelled⟩ := exists_spelled ⟨stem⟩
        obtain ⟨front, segments'⟩ := spelled.segments_eq
        obtain ⟨-, same⟩ := List.append_inj' (last.symm.trans segments') rfl
        obtain rfl := String.toList_inj.1 (List.singleton_inj.1 same)
        exact .inr (.inl ⟨above, x, spelled, idle⟩)
      · refine .inl ?_
        rw [names, last, namesOf_append, namesOf_singleton (not_or.1 idle)]
        exact .beside (lesser_append_plainDepends (not_or.1 idle).1)
    | _ => simp [Rule.dependencies] at hd
  | signal hs hm =>
    obtain ⟨segments, x, stemAt⟩ := exists_stemAt hs
    exact of stemAt (.inr (.inr ⟨_, noSlash_reasons _ hm, rfl⟩))
  | real hs hf =>
    obtain ⟨segments, x, stemAt⟩ := exists_stemAt hs
    refine of stemAt (.inl ?_)
    obtain ⟨found, -⟩ := Metadata.fileAt?_of_fileOfKind? hf
    have found : t.fileAt? q = some _ := found
    obtain ⟨dir, n, m, seen, own, -, link⟩ := h.names_file it (List.mem_of_find?_eq_some found)
    have same := List.find?_some found
    rw [same_iff] at same
    have names := stemAt.path_eq ▸ stemAt.names_eq _
    rw [← names_congr same, seen] at names
    obtain ⟨rfl, rfl⟩ := List.append_singleton_inj.1 names
    exact own ▸ .beside link.lesser
  | closure hs hn hc =>
    obtain ⟨segments, x, stemAt⟩ := exists_stemAt hs
    refine of stemAt (.inl ?_)
    obtain ⟨mem, same⟩ := mem_namespaces_of_namespaceOfRoot? hn
    obtain ⟨s, hs, rfl⟩ := List.mem_map.1 mem
    obtain ⟨source, -, lies⟩ := h.shaped.below s.ns mem
    obtain ⟨n, names, seen⟩ := h.names_closure it hs hc
    obtain ⟨last, component, dir⟩ := lies.exists_names_dir
    have root := stemAt.names_stem.symm.trans (names_congr same).symm
    rw [names, dir, List.append_assoc]
    refine (onward_of_root lies (by decide) root).1 (dot_notMem_of_isComponent component) ?_
    exact List.forall_mem_cons.2 ⟨not_dotted_of_isComponent component, by simpa using seen⟩
  | @library stem ns members y hs hn hm hx =>
    obtain ⟨segments, x, stemAt⟩ := exists_stemAt hs
    refine of stemAt (.inl ?_)
    obtain ⟨mem, same⟩ := mem_namespaces_of_namespaceOfRoot? hn
    obtain ⟨s, hs, rfl⟩ := List.mem_map.1 mem
    obtain ⟨source, -, lies⟩ := h.shaped.below s.ns mem
    have hm : t.libraryMembers? s.ns = some members := hm
    unfold Tree.libraryMembers? at hm
    split at hm
    case isFalse => simp at hm
    case isTrue =>
      rw [h.shaped.scopeAt?_eq hs rfl, Option.map_some, Option.some.injEq] at hm
      rw [← hm, (t.collect_perm _ s).mem_iff] at hx
      obtain ⟨i, hi, rfl⟩ := List.mem_map.1 hx
      obtain ⟨n, ends, seen, places⟩ := h.names_item it (Tree.leavesBeside_of_scan sound ok) hs hi
      have root := stemAt.names_stem.symm.trans (names_congr same).symm
      have onward := onward_of_root lies (e := Rule.manifest.ending) (by decide) root
      rcases places with at_ | ⟨rest, at_, valid⟩
      · obtain ⟨y, names, shown⟩ := names_memberDepends ends at_ seen
        rw [names]
        refine onward.2 shown fun flat => .inr ⟨iff_of_false shown ?_, .inl ?_⟩
        · rw [flat, lies.flatName_eq]
          exact not_dotted_flatName_append lies.ne_nil lies.valid
        · rw [rankOf_append_depends, rankOf_append_manifest]
          decide
      · obtain ⟨y, names, shown⟩ := names_memberDepends ends at_ seen
        obtain ⟨last, component, dir⟩ := lies.exists_names_dir
        rw [names, dir, List.append_assoc, List.append_assoc, List.singleton_append]
        refine onward.1 (dot_notMem_of_isComponent component) fun m hm => ?_
        rcases List.mem_cons.1 hm with rfl | hm
        · exact not_dotted_of_isComponent component
        · rcases List.mem_append.1 hm with hm | hm
          · exact not_dotted_of_isComponent (valid m hm)
          · exact List.mem_singleton.1 hm ▸ shown

/-! ### Elsewhere -/

/-- Whether a target that is asked for is done elsewhere than where names lead, if it can be done. -/
def Elsewhere (above : List String) (last : String) (q : Path) : Prop :=
  EndsIdle q ∨ Disk.Away FlatLink above last q.names ∧
    ∀ n, q.EndsIn n → TargetName n → Onward above last q.names

theorem Elsewhere.asks {above : List String} {last : String} (sound : d.Sound)
    (ok : Tree.scan d root config = .ok t) (own : TargetName last)
    (h : q.names = above ++ [last] ∨ Elsewhere above last q)
    (asks : Asks (t.project root config programs) q r) : Elsewhere above last r := by
  obtain ⟨front, n, ends, names, target, lies⟩ := asks.lies sound ok
  have at_ : q.names = above ++ [last] ∨ Onward above last q.names := by
    refine h.imp_right fun elsewhere => ?_
    rcases elsewhere with ⟨above', m, spelled, idle⟩ | ⟨-, onward⟩
    · obtain ⟨segments, whole, proper⟩ := ends
      obtain ⟨segments', whole'⟩ := spelled.segments_eq
      obtain ⟨-, same⟩ := List.append_inj' (whole.symm.trans whole') rfl
      obtain rfl := String.toList_inj.1 (List.singleton_inj.1 same)
      exact absurd idle (not_or.2 proper)
    · exact onward n ends target
  rcases lies with onward | idle | ⟨message, hm, rfl⟩
  · have onward' : Onward above last r.names := by
      rw [names] at at_
      rcases at_ with same | at_
      · obtain ⟨rfl, rfl⟩ := List.append_singleton_inj.1 same
        exact onward
      · exact at_.trans target onward
    exact .inr ⟨onward'.away own, fun _ _ _ => onward'⟩
  · exact .inl idle
  · refine .inr ⟨away_signalKey own at_ ends hm, fun m ends' target' => ?_⟩
    obtain ⟨init, x, names', close⟩ := exists_names_signalKey q message
    obtain ⟨front', names''⟩ := ends'.exists_names
    obtain ⟨-, rfl⟩ := List.append_singleton_inj.1 (names'.symm.trans names'')
    exact absurd (show _ ∈ _ by rw [close]; decide) target'.getLast?_notMem

end Local

end FlatModules
