import FlatModules.Proofs.Path.Parts
import FlatModules.Namespace

/-!
# Paths — names below a path

Names written below a path one after the other (`below`), as the sources below a source root are
spelled, and extensions after the last of them (`withExtension_div`).
-/

namespace FlatModules

open Text

theorem Text.intercalate_append_singleton {separator last : String} {texts : List String}
    (h : texts ≠ []) :
    separator.intercalate (texts ++ [last]) = separator.intercalate texts ++ separator ++ last := by
  induction texts with
  | nil => exact absurd rfl h
  | cons text texts ih =>
    cases texts with
    | nil => simp [String.intercalate_cons_cons]
    | cons next texts =>
      rw [List.cons_append, String.intercalate_cons_of_ne_nil (by simp), ih (by simp),
        String.intercalate_cons_cons]
      simp only [String.append_assoc]

namespace Path

/-- A relative path is written after the front of the path that it is below. -/
theorem div_eq_front {p q : Path} (h : q.isAbsolute = false) : p / q = ⟨p.front ++ q.text⟩ := by
  change p.join q = _
  simp only [join, front, h, Bool.false_eq_true, ↓reduceIte]
  split <;> rfl

theorem text_div {p : Path} {name : String} (h : IsName name) :
    (p / ⟨name⟩).text = String.ofList (joinWith ['/'] (p.lead ++ [name.toList])) := by
  rw [← segments_div h, segments, joinWith_cutAt, String.ofList_toList]

/-- The text of a path that ends in a name goes on with a slash. -/
theorem front_div {p : Path} {name : String} (h : IsName name) :
    (p / ⟨name⟩).front = (p / ⟨name⟩).text ++ "/" := by
  have ne : name.toList ≠ [] := fun e => h.ne_empty (String.toList_inj.1 e)
  have last : (p / ⟨name⟩).text.toList.getLast? ≠ some '/' := by
    rw [div_eq h, String.toList_append, List.getLast?_append_of_ne_nil _ ne]
    exact fun e => h.noSlash (List.mem_of_getLast? e)
  have empty : ¬ (p / ⟨name⟩).text.isEmpty := by
    rw [div_eq h]
    intro e
    have := congrArg String.toList (String.isEmpty_iff.1 e)
    simp only [String.toList_append] at this
    exact ne (List.append_eq_nil_iff.1 this).2
  exact if_neg (not_or.2 ⟨empty, last⟩)

theorem front_eq_or (p : Path) : p.front = "" ∨ p.front.toList.getLast? = some '/' := by
  unfold front
  split
  case isTrue h => exact h.imp_left (by simp)
  case isFalse => exact .inr (by simp)

theorem text_div_ne_empty {p : Path} {name : String} (h : IsName name) :
    (p / ⟨name⟩).text ≠ "" := by
  rw [div_eq h]
  intro e
  have e := congrArg String.toList e
  rw [String.toList_append] at e
  exact h.ne_empty (String.toList_inj.1 (List.append_eq_nil_iff.1 e).2)

theorem append_append (p : Path) (a b : String) : (p.append a).append b = p.append (a ++ b) := by
  simp [append, String.append_assoc]

theorem lead_div {p : Path} {name : String} (h : IsName name) :
    (p / ⟨name⟩).lead = p.lead ++ [name.toList] := by
  have front := front_div (p := p) h
  unfold Path.front at front
  by_cases e : (p / ⟨name⟩).text.isEmpty ∨ (p / ⟨name⟩).text.toList.getLast? = some '/'
  · rw [if_pos e] at front
    have := congrArg (fun s => s.toList.length) front
    simp at this
  · rw [not_or] at e
    unfold lead
    rw [if_neg e.1, if_neg e.2, segments_div h]
    rfl

theorem dropIdle_lead_div {p : Path} {name : String} (h : IsName name) :
    dropIdle (p / ⟨name⟩).lead.reverse = name.toList :: p.lead.reverse := by
  rw [lead_div h, List.reverse_append, List.reverse_singleton, List.singleton_append,
    dropIdle_cons_of_isName h]

/-- The path above a name below a name is spelled as the name was written below it. -/
theorem parent?_div_div {p : Path} {m n : String} (hm : IsName m) (hn : IsName n) :
    (p / ⟨m⟩ / ⟨n⟩).parent? = some (p / ⟨m⟩) := by
  have rev : (p / ⟨m⟩ / ⟨n⟩).segments.reverse = n.toList :: (p / ⟨m⟩).lead.reverse := by
    rw [segments_div hn]; simp
  have text : (⟨String.ofList (joinWith ['/'] (p.lead ++ [m.toList]))⟩ : Path) = p / ⟨m⟩ := by
    rw [← text_div hm]
  rw [parent?, rev, dropIdle_cons_of_isName hn]
  simp only [dropIdle_lead_div hm, ofSegments]
  rw [if_neg (by simp), List.reverse_cons, List.reverse_reverse, text]

/-- The path that names, each below the one before, spell below a path. -/
def below (p : Path) (names : List String) : Path :=
  names.foldl (fun q name => q / ⟨name⟩) p

@[simp] theorem below_nil (p : Path) : p.below [] = p := rfl

@[simp] theorem below_append_singleton (p : Path) (names : List String) (name : String) :
    p.below (names ++ [name]) = p.below names / ⟨name⟩ := by
  simp [below]

theorem parts_below {p : Path} {names : List String} (h : ∀ n ∈ names, IsName n) :
    (p.below names).parts = p.parts ++ names.map Part.name := by
  induction names using List.reverseRecOn with
  | nil => simp
  | append_singleton names name ih =>
    rw [below_append_singleton, parts_div (h name (by simp)),
      ih fun n hn => h n (List.mem_append_left _ hn)]
    simp

theorem text_below {p : Path} {names : List String} (hne : names ≠ [])
    (h : ∀ n ∈ names, IsName n) :
    (p.below names).text = p.front ++ "/".intercalate names := by
  induction names using List.reverseRecOn with
  | nil => exact absurd rfl hne
  | append_singleton names name ih =>
    rw [below_append_singleton, div_eq (h name (by simp))]
    obtain rfl | ⟨front, last, rfl⟩ := names.eq_nil_or_concat'
    · simp
    · have ih := ih (by simp) fun n hn => h n (List.mem_append_left _ hn)
      rw [below_append_singleton] at ih ⊢
      rw [front_div (h last (by simp)), ih,
        intercalate_append_singleton (show front ++ [last] ≠ [] by simp)]
      simp only [String.append_assoc]

/-- Names with slashes between them, written below a path. -/
theorem div_intercalate {p : Path} {names : List String} (hne : names ≠ [])
    (h : ∀ n ∈ names, IsName n) : p / ⟨"/".intercalate names⟩ = p.below names := by
  have rel : (⟨"/".intercalate names⟩ : Path).isAbsolute = false := by
    obtain ⟨name, rest, rfl⟩ := List.exists_cons_of_ne_nil hne
    have first := h name List.mem_cons_self
    obtain ⟨c, cs, e⟩ := List.exists_cons_of_ne_nil
      (fun e => first.ne_empty (String.toList_inj.1 e) : name.toList ≠ [])
    have head : ("/".intercalate (name :: rest)).toList.head? = some c := by
      cases rest <;> simp [String.intercalate_cons_cons, e]
    have slash : c ≠ '/' := fun e' => first.noSlash (by simp [e, e'])
    rw [isAbsolute, head]
    simpa using slash
  rw [div_eq_front rel, ← text_below hne h]

theorem IsName.ne_nil {name : String} (h : IsName name) : name.toList ≠ [] :=
  fun e => h.ne_empty (String.toList_inj.1 e)

/-- A name without a dot, and what is written after it from a dot on. -/
structure IsStem (stem : String) : Prop where
  isName : IsName stem
  noDot : '.' ∉ stem.toList

theorem isStem_of_isComponent {name : String} (h : Naming.isComponent name = true) : IsStem name :=
  ⟨isName_of_isComponent h, Naming.dot_notMem_of_isComponent h⟩

theorem isStem_flatName {components : List String} (hne : components ≠ [])
    (h : ∀ c ∈ components, Naming.isComponent c = true) : IsStem (Naming.flatName components) where
  isName := {
    ne_empty := Naming.flatName_ne_empty hne h
    noSlash := Naming.slash_notMem_flatName h
    ne_here := fun e => Naming.dot_notMem_flatName h (by simp [e])
    ne_up := fun e => Naming.dot_notMem_flatName h (by simp [e]) }
  noDot := Naming.dot_notMem_flatName h

theorem IsStem.append {stem ending : String} (h : IsStem stem) (he : '/' ∉ ending.toList) :
    IsName (stem ++ ending) :=
  h.isName.append he fun _ hc e => h.noDot (e ▸ hc)

/-- A stem ends at the first dot. -/
theorem IsStem.inj {a b extension extension' : String} (ha : IsStem a) (hb : IsStem b)
    (h : a ++ "." ++ extension = b ++ "." ++ extension') : a = b ∧ extension = extension' := by
  have e := congrArg (fun s => cutOnce '.' s.toList) h
  simp only [String.toList_append, List.append_assoc, show (".").toList = ['.'] from rfl,
    List.singleton_append, cutOnce_append ha.noDot, cutOnce_append hb.noDot, Option.some.injEq,
    Prod.mk.injEq, String.toList_inj] at e
  exact e

theorem IsStem.splitExtension {stem : String} (h : IsStem stem) :
    splitExtension stem.toList = (stem.toList, none) := by
  rw [Path.splitExtension, cutOnce_eq_none (by simpa using h.noDot)]

/-- An extension given to a path that has none is written after it. -/
theorem withExtension_div {p : Path} {stem extension : String} (h : IsStem stem)
    (hne : extension ≠ "") (hs : '/' ∉ extension.toList) :
    (p / ⟨stem⟩).withExtension extension = p / ⟨stem ++ "." ++ extension⟩ := by
  have name : IsName (stem ++ "." ++ extension) := by
    rw [String.append_assoc]
    exact h.append (by simpa using hs)
  have none_ : (p / ⟨stem⟩).extension? = none := by
    rw [extension?, fileName?_div h.isName]
    simp [h.splitExtension]
  have rev : (p / ⟨stem⟩).segments.reverse = stem.toList :: p.lead.reverse := by
    rw [segments_div h.isName]; simp
  have some_ : extension.isEmpty = false := by simpa using hne
  rw [withExtension, none_]
  simp only [endStem, fileName?_div h.isName, h.splitExtension, some_, rev,
    dropIdle_cons_of_isName h.isName, ofSegments]
  have text : (⟨String.ofList (joinWith ['/'] (p.lead ++ [(stem ++ "." ++ extension).toList]))⟩ :
      Path) = p / ⟨stem ++ "." ++ extension⟩ := by
    rw [← text_div name]
  rw [if_neg (by simp), ← text]
  simp

/-- What a file name is made of that has an extension. -/
theorem eq_of_splitExtension {name stem extension : List Char}
    (h : splitExtension name = (stem, some extension)) : name = stem ++ '.' :: extension := by
  unfold splitExtension at h
  split at h
  case h_1 => simp at h
  case h_2 => simp at h
  case h_3 before after ne e =>
    have cut : ∀ {cs a b : List Char}, cutOnce '.' cs = some (a, b) → cs = a ++ '.' :: b := by
      intro cs
      induction cs with
      | nil => intro a b e; simp [cutOnce] at e
      | cons c cs ih =>
        intro a b e
        unfold cutOnce at e
        split at e
        · simp_all
        · obtain ⟨⟨a', b'⟩, e', same⟩ := Option.map_eq_some_iff.1 e
          obtain ⟨rfl, rfl⟩ := Prod.mk.inj same
          rw [ih e']; rfl
    simp only [Prod.mk.injEq, Option.some.injEq] at h
    have := congrArg List.reverse (cut e)
    simpa [← h.1, ← h.2] using this

/-- A name is split at its last dot, if there is text before it. -/
theorem splitExtension_append {stem extension : List Char} (ne : stem ≠ []) (noDot : '.' ∉ extension) :
    splitExtension (stem ++ '.' :: extension) = (stem, some extension) := by
  have reversed : (stem ++ '.' :: extension).reverse = extension.reverse ++ '.' :: stem.reverse := by
    simp
  rw [splitExtension, reversed, cutOnce_append (by simpa using noDot)]
  split
  case h_1 e => simp at e
  case h_2 e =>
    simp only [Option.some.injEq, Prod.mk.injEq, List.reverse_eq_nil_iff] at e
    exact absurd e.2 ne
  case h_3 e =>
    simp only [Option.some.injEq, Prod.mk.injEq] at e
    rw [← e.1, ← e.2, List.reverse_reverse, List.reverse_reverse]

end Path
end FlatModules
