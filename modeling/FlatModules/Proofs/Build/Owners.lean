import FlatModules.Proofs.Build.Grounds

/-!
# Build — whose place it is

Every place that a build writes to belongs to one artifact: its own, and for a root module also the
one beside it, where writing ends up while the link is still there by which the directory was seen
when it was a file (`Artifact.Owns`).  No place belongs to two (`Owns.eq`).  A source file under its
flat name is read from the original's place, everything else from a place of its own (`Goes.owner`).
The targets that builds ask for beside artifacts are loose: they keep to places that belong to none
(`Site.Loose`).
-/

namespace FlatModules

open Naming Path Tree

/-- The places that belong to an artifact, by their names in the build directory. -/
inductive Artifact.Owns (used : List Path) : Artifact → List String → Prop
  | own {a : Artifact} : Owns used a a.path.names
  | beside {ns source front last} (hs : source ∈ used) (lies : ns.LiesBelow source)
      (e : ns.components = front ++ [last]) (ne : front ≠ []) :
      Owns used (.root ns)
        (source.names ++ (front ++ [last ++ "." ++ SourceKind.implementation.extension]))

theorem SourceKind.dot_notMem (kind : SourceKind) : '.' ∉ kind.extension.toList := by
  cases kind <;> decide

theorem SourceKind.extension_ne_stamp (kind : SourceKind) :
    kind.extension ≠ Rule.stampExtension := by
  cases kind <;> decide

/-- No extension of a source file ends like a record of dependencies. -/
theorem SourceKind.extension_ne_depends (kind : SourceKind) (text : String) :
    text ++ dependsSuffix ≠ kind.extension := by
  intro e
  refine kind.dot_notMem ?_
  rw [← e, String.toList_append]
  exact List.mem_append_right _ (by decide)

/-- A component is no flat name of several. -/
theorem flatName_ne_component {components : List String} {stem : String}
    (ne : components ≠ []) (valid : ∀ c ∈ components ++ [stem], isComponent c = true)
    {name : String} (h : isComponent name = true) : flatName (components ++ [stem]) ≠ name := by
  intro e
  rw [← flatName_singleton name] at e
  have one := flatName_inj (by simp) (by simp) valid (by simpa using h) e
  exact ne (by simpa using congrArg List.dropLast one)

namespace Site

variable {s : Site} {used sources : List Path} {source q : Path} {components names : List String}
  {a b : Artifact} {base extension : String}

/-- What an artifact is that is beside a link: the source file that the link is for, or the root
module that has come in its place. -/
theorem Linked.owner (hs : source ∈ used)
    (sits : a.Sits source components base extension) {stem text : String} {kind : SourceKind}
    (linked : s.Linked source components stem kind a.path.names text) :
    a.Owns used (source.names ++ (components ++ [text])) ∨
      ∃ f, a = .virtual f ∧ f.LiesIn source components stem ∧ text = stem ++ "." ++ f.kind.extension := by
  have names := sits.lies.names.symm.trans linked.names_eq
  obtain ⟨-, file⟩ := List.append_inj' (List.append_cancel_left names) rfl
  obtain ⟨flat, ext⟩ := sits.isStem.inj (isStem_flatName (by simp) linked.valid)
    (List.singleton_inj.1 file)
  cases sits with
  | @original f _ _ stem' lies =>
    rw [flatName_singleton] at flat
    exact absurd flat.symm (flatName_ne_component linked.ne_nil linked.valid
      (lies.made.valid stem' (by simp)))
  | @virtual f _ _ stem' lies =>
    have same := flatName_inj (by simp) (by simp) lies.made.valid linked.valid flat
    obtain rfl : stem' = stem := by simpa using same
    exact .inr ⟨f, rfl, lies, by rw [linked.text_eq, SourceKind.extension_inj ext]⟩
  | stamp => exact absurd ext.symm kind.extension_ne_stamp
  | @root ns _ lies =>
    rw [lies.flatName_eq] at flat
    have same := flatName_inj lies.ne_nil (by simp) lies.valid linked.valid flat
    refine .inl ?_
    rw [linked.text_eq, ← ext]
    exact .beside hs lies same linked.ne_nil
  | @aliases ns _ lies =>
    exact absurd flat.symm (flatName_ne_append_aliases linked.valid ns.flatName)
  | depends => exact absurd ext (kind.extension_ne_depends _)

end Site

namespace Artifact.Owns

variable {t : Tree} {used sources : List Path} {names : List String} {a b : Artifact}

/-- The place beside a root module is no artifact's own. -/
theorem beside_ne (h : t.Shaped sources) (apart : Apart used) {ns : Namespace}
    (hn : ns ∈ t.namespaces) {source : Path} (hs : source ∈ used) (lies : ns.LiesBelow source)
    {front : List String} {last : String} (e : ns.components = front ++ [last]) (ne : front ≠ [])
    (ha : t.HasIn used a) :
    a.path.names ≠
      source.names ++ (front ++ [last ++ "." ++ SourceKind.implementation.extension]) := by
  intro names
  obtain ⟨has, source', hs', components, base, extension, sits⟩ := ha
  obtain ⟨rfl, rest⟩ := apart.eq hs' hs (sits.lies.names.symm.trans names)
  obtain ⟨rfl, file⟩ := List.append_inj' rest rfl
  have valid : ∀ c ∈ components ++ [last], isComponent c = true := e ▸ lies.valid
  have last_ : isComponent last = true := valid last (by simp)
  obtain ⟨rfl, ext⟩ := sits.isStem.inj (isStem_of_isComponent last_) (List.singleton_inj.1 file)
  cases sits with
  | @original f _ _ stem below =>
    refine h.flatName_ne has hn lies below.made ?_
    rw [lies.flatName_eq, e, flatName_singleton]
  | virtual below => exact flatName_ne_component ne below.made.valid last_ rfl
  | stamp => exact absurd ext.symm (SourceKind.extension_ne_stamp _)
  | @root c _ below =>
    obtain ⟨last', split, flat⟩ := below.exists_flatName
    rw [flat] at last_
    exact flatName_ne_component ne (split ▸ below.valid) last_ rfl
  | @aliases c _ below =>
    have one : ∀ d ∈ [c.flatName ++ aliasesSuffix], isComponent d = true := by simpa using last_
    exact flatName_ne_append_aliases one c.flatName (flatName_singleton _)
  | depends => exact absurd ext (SourceKind.extension_ne_depends _ _)

/-- No place belongs to two artifacts. -/
theorem eq (h : t.Shaped sources) (apart : Apart used) (ha : t.HasIn used a) (hb : t.HasIn used b)
    (oa : a.Owns used names) (ob : b.Owns used names) : a = b := by
  cases oa with
  | own =>
    generalize e : a.path.names = names at ob
    cases ob with
    | own => exact ha.eq_of_names h apart hb e
    | beside hs lies comps ne => exact absurd e (beside_ne h apart hb.1 hs lies comps ne ha)
  | @beside ns source front last hs lies comps ne =>
    generalize e : source.names ++
      (front ++ [last ++ "." ++ SourceKind.implementation.extension]) = names at ob
    cases ob with
    | own => exact absurd e.symm (beside_ne h apart ha.1 hs lies comps ne hb)
    | @beside ns' source' front' last' hs' lies' comps' ne' =>
      obtain ⟨rfl, rest⟩ := apart.eq hs hs' e
      obtain ⟨rfl, file⟩ := List.append_inj' rest rfl
      obtain ⟨rfl, -⟩ := (isStem_of_isComponent (lies.valid last (by simp [comps]))).inj
        (isStem_of_isComponent (lies'.valid last' (by simp [comps']))) (List.singleton_inj.1 file)
      rw [lies.eq, lies'.eq, comps, comps']

end Artifact.Owns

namespace Site

variable {s : Site} {used : List Path} {source q : Path} {components names : List String}
  {a : Artifact}

/-- A target beside the artifacts, whose place belongs to none and suits no link. -/
structure Loose (s : Site) (used : List Path) (q : Path) : Prop where
  target : ∃ front last, s.Target used q front last
  unlinked : ∀ text, ¬ s.Fitting used q.names (.link text)
  unowned : ∀ a, s.tree.HasIn used a → ¬ a.Owns used q.names

/-- What belongs to an artifact is in a source, under a name that is no signal's. -/
theorem exists_cons_of_owns (ha : s.tree.HasIn used a)
    (h : a.Owns used names) : ∃ source ∈ used, ∃ n rest, names = source.names ++ n :: rest ∧
      '<' ∉ n.toList := by
  cases h with
  | own =>
    obtain ⟨-, source, hs, components, base, extension, sits⟩ := ha
    obtain ⟨n, rest, e⟩ := List.exists_cons_of_ne_nil
      (l := components ++ [base ++ "." ++ extension]) (by simp)
    refine ⟨source, hs, n, rest, by rw [sits.lies.names, e], ?_⟩
    exact head_plain sits.lies.valid (.inr sits.lies.plain) n (by simp [e])
  | @beside ns source front last hs lies comps ne =>
    obtain ⟨n, rest, rfl⟩ := List.exists_cons_of_ne_nil ne
    exact ⟨source, hs, n, _, rfl, lt_notMem_of_isComponent (lies.valid n (by simp [comps]))⟩

/-- The target of a signal that keeps aside is loose. -/
theorem loose_of_aside (aside : Aside used q) : s.Loose used q where
  target := exists_target_of_aside aside
  unlinked text fits := by
    obtain ⟨source, hs, components, stem, kind, linked⟩ := fits.link text rfl
    obtain ⟨c, cs, e⟩ := List.exists_cons_of_ne_nil linked.ne_nil
    refine lt_notMem_of_isComponent (linked.valid_components c (by simp [e]))
      (aside.marked source hs c ?_)
    rw [linked.names_eq, e]
    exact ⟨cs ++ [flatName (c :: cs ++ [stem]) ++ "." ++ kind.extension], by simp⟩
  unowned a ha owns := by
    obtain ⟨source, hs, n, rest, e, plain⟩ := exists_cons_of_owns ha owns
    refine plain (aside.marked source hs n ?_)
    rw [e]
    exact ⟨rest, by simp⟩

/-- A digest that belongs to no namespace, as one is asked for beside an original, is loose. -/
theorem loose_of_stamp (apart : Apart used) (hs : source ∈ used)
    (direct : source.Direct) (ne : components ≠ []) {stem : String} (valid : isComponent stem = true)
    (lies : q.Lies source components (stem ++ "." ++ Rule.stampExtension)) : s.Loose used q where
  target := ⟨_, _, target_of_lies apart hs direct lies⟩
  unlinked text fits := by
    obtain ⟨source', hs', components', stem', kind, linked⟩ := fits.link text rfl
    obtain ⟨rfl, rest⟩ := apart.eq hs hs' (lies.names.symm.trans linked.names_eq)
    obtain ⟨rfl, file⟩ := List.append_inj' rest rfl
    obtain ⟨-, ext⟩ := (isStem_of_isComponent valid).inj
      (isStem_flatName (by simp) linked.valid) (List.singleton_inj.1 file)
    exact kind.extension_ne_stamp ext.symm
  unowned a ha owns := by
    generalize e : q.names = names at owns
    have names := lies.names.symm.trans e
    cases owns with
    | own =>
      obtain ⟨has, source', hs', components', base, extension, sits⟩ := ha
      obtain ⟨rfl, rest⟩ := apart.eq hs hs' (names.trans sits.lies.names)
      obtain ⟨rfl, file⟩ := List.append_inj' rest rfl
      obtain ⟨rfl, ext⟩ := (isStem_of_isComponent valid).inj sits.isStem
        (List.singleton_inj.1 file)
      have dot : '.' ∉ Rule.stampExtension.toList := by decide
      cases sits with
      | original | virtual => exact SourceKind.extension_ne_stamp _ ext.symm
      | root | aliases => exact SourceKind.extension_ne_stamp _ ext.symm
      | @stamp ns _ below =>
        obtain ⟨last, split, flat⟩ := below.exists_flatName
        rw [flat] at valid
        exact flatName_ne_component ne (split ▸ below.valid) valid rfl
      | depends =>
        rw [ext, String.toList_append, List.mem_append, not_or] at dot
        exact dot.2 (by decide)
    | @beside ns source' front last hs' below comps ne' =>
      obtain ⟨rfl, rest⟩ := apart.eq hs hs' names
      obtain ⟨rfl, file⟩ := List.append_inj' rest rfl
      obtain ⟨-, ext⟩ := (isStem_of_isComponent valid).inj
        (isStem_of_isComponent (below.valid last (by simp [comps]))) (List.singleton_inj.1 file)
      exact SourceKind.extension_ne_stamp _ ext.symm

end Site
end FlatModules
