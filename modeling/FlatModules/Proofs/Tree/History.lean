import FlatModules.Proofs.Tree.Visits

/-!
# Trees — what visits leave behind

What one visit changes (`addVisit_ok`), and what a tree holds after a list of visits, whatever the
source directories and however they lie in each other (`After`): each name that was claimed is held
for its owner; the namespace at a directory is that of the directory's last visit (`Latest`), and it
has been filled by the visits since; each record is of a file that was visited when its directory had
a namespace.  A scan leaves what its visits leave (`After.scan`).
-/

namespace FlatModules

open Naming Path

namespace Tree

/-- Whether claims hold a module name for an owner. -/
def Held (claims : List Claim) (module : String) (kind : MemberKind) (owner : Path) : Prop :=
  ∃ c ∈ claims, c.module = module ∧ c.kind = kind ∧ c.owner.parts = owner.parts

namespace Held

variable {claims claims' : List Claim} {module : String} {kind kind' : MemberKind}
  {owner owner' : Path}

theorem mono (h : Held claims module kind owner) (sub : claims ⊆ claims') :
    Held claims' module kind owner :=
  h.imp fun _ hc => ⟨sub hc.1, hc.2⟩

theorem claimed (h : Held claims module kind owner) : Claimed claims module kind :=
  h.imp fun _ hc => ⟨hc.1, hc.2.1, hc.2.2.1⟩

/-- A name is held for one owner. -/
theorem unique (differ : (claims.map Claim.module).Nodup) (h : Held claims module kind owner)
    (h' : Held claims module kind' owner') : kind = kind' ∧ owner.parts = owner'.parts := by
  obtain ⟨c, hc, rfl, rfl, e⟩ := h
  obtain ⟨c', hc', same, rfl, e'⟩ := h'
  obtain rfl := List.inj_on_of_nodup_map differ hc hc' same.symm
  exact ⟨rfl, e.symm.trans e'⟩

end Held

theorem claim_held {t t' : Tree} {module : String} {kind : MemberKind} {owner : Path}
    (ok : t.claim module kind owner = .ok t') : Held t'.claims module kind owner := by
  unfold claim at ok
  split at ok
  case h_1 =>
    obtain rfl := Except.ok.inj ok
    exact ⟨_, List.mem_cons_self, rfl, rfl, rfl⟩
  case h_2 held e =>
    split at ok
    case isTrue same =>
      obtain rfl := Except.ok.inj ok
      exact ⟨held, List.mem_of_find?_eq_some e, by simpa using List.find?_some e, same.1,
        same_iff.1 same.2⟩
    case isFalse => simp at ok

end Tree

/-! ### One visit -/

/-- Files that are seen at one place are named alike. -/
theorem NamespacedFile.Made.eq_of_parts {f g : NamespacedFile} {cs ds : List String}
    {stem stem' : String} (hf : f.Made cs stem) (hg : g.Made ds stem')
    (same : f.virtualPath.parts = g.virtualPath.parts) :
    f.dir.parts = g.dir.parts ∧ cs = ds ∧ stem = stem' ∧ f.kind = g.kind := by
  rw [hf.virtualPath_eq, hg.virtualPath_eq, parts_div hf.isName, parts_div hg.isName] at same
  obtain ⟨dirs, names⟩ := List.append_inj' same rfl
  obtain ⟨flat, ext⟩ := hf.isStem.inj hg.isStem (Part.name.inj (List.singleton_inj.1 names))
  have components := flatName_inj (by simp) (by simp) hf.valid hg.valid flat
  obtain ⟨rfl, stems⟩ := List.append_inj' components rfl
  refine ⟨dirs, rfl, List.singleton_inj.1 stems, ?_⟩
  cases hk : f.kind <;> cases hk' : g.kind <;> simp [hk, hk', SourceKind.extension] at ext <;> rfl

namespace Visit

variable {v : Visit}

/-- The record that a source file has in a namespace. -/
def fileIn (v : Visit) (ns : Namespace) (kind : SourceKind) (stem : String) : NamespacedFile :=
  Tree.fileFor ns v.above v.path stem kind

/-- The leaf that a source file by itself would be in a namespace. -/
def leafIn (v : Visit) (ns : Namespace) (kind : SourceKind) (stem : String) : Leaf where
  stem := stem
  virtualModule := (v.fileIn ns kind stem).virtualModule
  virtualRoot := v.above / ⟨flatName [ns.flatName, stem]⟩
  files := [(v.fileIn ns kind stem).virtualPath]

/-- Where a source file is seen because of a namespace, if it lies in its directory. -/
def virtualIn? (v : Visit) (ns : Namespace) : Option Path :=
  match v.source? with
  | some (kind, stem) =>
    if v.above.parts = ns.dir.parts then some (v.fileIn ns kind stem).virtualPath else none
  | none => none

/-- The leaf that a source file by itself would be in a namespace, if it lies in its directory. -/
def leafIn? (v : Visit) (ns : Namespace) : Option Leaf :=
  match v.source? with
  | some (kind, stem) => if v.above.parts = ns.dir.parts then some (v.leafIn ns kind stem) else none
  | none => none

theorem leafIn?_eq_none {ns : Namespace} (h : v.virtualIn? ns = none) : v.leafIn? ns = none := by
  unfold virtualIn? at h
  unfold leafIn?
  cases source : v.source? with
  | none => rfl
  | some x => by_cases here : v.above.parts = ns.dir.parts <;> simp_all

/-- Whether a directory is a sub-namespace of a namespace. -/
def IsChildOf (v : Visit) (ns : Namespace) : Prop :=
  v.entry = .dir ∧ 1 < v.names.length ∧ v.above.parts = ns.dir.parts

instance (v : Visit) (ns : Namespace) : Decidable (v.IsChildOf ns) :=
  inferInstanceAs (Decidable (_ ∧ _ ∧ _))

/-- A scope once a directory was visited elsewhere: with one child more if it is the one around. -/
def enlistIn (v : Visit) (s : Scope) : Scope :=
  if v.IsChildOf s.ns then { s with children := s.children ++ [v.path] } else s

theorem parts_path (h : ∀ n ∈ v.names, IsName n) :
    v.path.parts = v.source.parts ++ v.names.map Part.name :=
  parts_below h

section Names

variable {names : List String} {last : String} (e : v.names = names ++ [last])
  (h : ∀ n ∈ v.names, IsName n)

include e

theorem path_eq : v.path = v.source.below names / ⟨last⟩ := by
  rw [path, e, below_append_singleton]

include h

theorem parent?_path : v.path.parent? = some v.above := by
  obtain ⟨q, some_, -⟩ := parent?_div (p := v.source.below names) (h last (by simp [e]))
  rw [above, path_eq e, some_]
  rfl

theorem parts_above : v.above.parts = v.source.parts ++ names.map Part.name := by
  obtain ⟨q, some_, parts⟩ := parent?_div (p := v.source.below names) (h last (by simp [e]))
  rw [above, path_eq e, some_, Option.getD_some, parts,
    parts_below fun n hn => h n (by simp [e, hn])]

theorem above_eq (ne : names ≠ []) : v.above = v.source.below names := by
  obtain ⟨front, middle, rfl⟩ := (List.eq_nil_or_concat' names).resolve_left ne
  rw [above, path_eq e, below_append_singleton,
    parent?_div_div (h middle (by simp [e])) (h last (by simp [e]))]
  rfl

theorem parts_path_above : v.path.parts = v.above.parts ++ [.name last] := by
  rw [parts_path h, parts_above e h, e]
  simp

end Names

/-- A source file is named by its stem and its kind. -/
theorem last_of_source? (h : ∀ n ∈ v.names, IsName n) (ne : v.names ≠ []) {kind : SourceKind}
    {stem : String} (source : v.source? = some (kind, stem)) :
    ∃ names, v.names = names ++ [stem ++ "." ++ kind.extension] := by
  obtain ⟨-, hk, hs, -⟩ := source?_eq_some_iff.1 source
  obtain ⟨names, last, e⟩ := (List.eq_nil_or_concat' v.names).resolve_left ne
  have name := fileName?_of_ofPath? hk hs
  rw [path_eq e, fileName?_div (h last (by simp [e])), Option.some.injEq] at name
  exact ⟨names, by rw [e, name]⟩

theorem parts_of_source? (h : ∀ n ∈ v.names, IsName n) (ne : v.names ≠ []) {kind : SourceKind}
    {stem : String} (source : v.source? = some (kind, stem)) :
    v.path.parts = v.above.parts ++ [.name (stem ++ "." ++ kind.extension)] := by
  obtain ⟨names, e⟩ := last_of_source? h ne source
  exact parts_path_above e h

theorem made_fileIn {ns : Namespace} {s : Path} (lies : ns.LiesBelow s) {kind : SourceKind}
    {stem : String} (source : v.source? = some (kind, stem)) :
    (v.fileIn ns kind stem).Made ns.components stem := by
  obtain ⟨-, hk, hs, valid⟩ := source?_eq_some_iff.1 source
  exact made_fileFor lies hk hs valid v.above

/-- Where a source file is seen. -/
theorem parts_fileIn {ns : Namespace} {s : Path} (lies : ns.LiesBelow s) {kind : SourceKind}
    {stem : String} (source : v.source? = some (kind, stem)) :
    (v.fileIn ns kind stem).virtualPath.parts =
      v.above.parts ++ [.name (flatName (ns.components ++ [stem]) ++ "." ++ kind.extension)] := by
  have made := v.made_fileIn lies source
  rw [made.virtualPath_eq, parts_div made.isName]
  rfl

end Visit

namespace Tree

variable {sources : List Path} {t t' : Tree} {v : Visit}

/-- What a visit changes, claims apart. -/
inductive Added (t : Tree) (v : Visit) (t' : Tree) : Prop
  /-- A directory makes a namespace with nothing in it, in place of the one at its path. -/
  | directory (dir : v.entry = .dir) (held : Held t'.claims v.ns.moduleName .subNamespace v.path)
      (files : t'.files = t.files)
      (scopes : ∀ s', s' ∈ t'.scopes ↔ s' = ⟨v.ns, [], []⟩ ∨
        ∃ s ∈ t.scopes, s.ns.dir.parts ≠ v.path.parts ∧ s' = v.enlistIn s)
  /-- A source file in no namespace keeps its name. -/
  | plain {kind : SourceKind} {stem : String} (source : v.source? = some (kind, stem))
      (alone : ∀ s ∈ t.scopes, s.ns.dir.parts ≠ v.above.parts)
      (held : Held t'.claims (moduleName stem) .leafModule (v.path.withExtension ""))
      (files : t'.files = t.files) (scopes : t'.scopes = t.scopes)
  /-- A source file in a namespace is recorded and entered there. -/
  | leaf {kind : SourceKind} {stem : String} {s : Scope} (source : v.source? = some (kind, stem))
      (mem : s ∈ t.scopes) (here : s.ns.dir.parts = v.above.parts)
      (held : Held t'.claims (v.fileIn s.ns kind stem).virtualModule .leafModule
        (v.path.withExtension ""))
      (files : ∀ f, f ∈ t'.files ↔ f = v.fileIn s.ns kind stem ∨
        f ∈ t.files ∧ f.virtualPath.parts ≠ (v.fileIn s.ns kind stem).virtualPath.parts)
      (scopes : ∀ s', s' ∈ t'.scopes ↔
        s' = { s with leaves := addToLeaf (v.leafIn s.ns kind stem) s.leaves } ∨
          s' ∈ t.scopes ∧ s'.ns.dir.parts ≠ v.above.parts)
  /-- Nothing else is registered. -/
  | skipped (other : v.entry ≠ .dir) (source : v.source? = none) (same : t' = t)

theorem Shaped.pairwise_scopes (h : Shaped sources t) :
    t.scopes.Pairwise fun a b => a.ns.dir.order b.ns.dir = .lt :=
  List.pairwise_map.1 h.ordered

instance : Std.TransCmp fun a b : Scope => a.ns.dir.order b.ns.dir :=
  inferInstanceAs (Std.TransCmp (compareOn fun a : Scope => a.ns.dir.parts))

theorem mem_putScope (h : t.scopes.Pairwise fun a b => a.ns.dir.order b.ns.dir = .lt)
    (s s' : Scope) :
    s' ∈ (t.putScope s).scopes ↔ s' = s ∨ s' ∈ t.scopes ∧ s'.ns.dir.parts ≠ s.ns.dir.parts := by
  refine (mem_insertInOrder_iff_of_pairwise (x := s) (y := s') h).trans ?_
  simp only [ne_eq, order_eq_iff, eq_comm (a := s.ns.dir.parts)]

theorem mem_putFile (h : Shaped sources t) (f g : NamespacedFile) :
    g ∈ (t.putFile f).files ↔
      g = f ∨ g ∈ t.files ∧ g.virtualPath.parts ≠ f.virtualPath.parts := by
  refine (mem_insertInOrder_iff_of_pairwise (x := f) (y := g) h.files_ordered).trans ?_
  simp only [ne_eq, order_eq_iff, eq_comm (a := f.virtualPath.parts)]

theorem addNamespace_ok (h : Shaped sources t) (ne : v.names ≠ []) (isName : ∀ n ∈ v.names, IsName n)
    (dir : v.entry = .dir) (ok : t.addNamespace v.path v.names = .ok t') :
    t.claims ⊆ t'.claims ∧ Added t v t' := by
  obtain ⟨names, last, e⟩ := (List.eq_nil_or_concat' v.names).resolve_left ne
  simp only [Tree.addNamespace] at ok
  cases claimed : t.claim (namespaceFor v.path v.names).moduleName .subNamespace v.path with
  | error e' => simp [claimed, bind, Except.bind] at ok
  | ok t₁ =>
    have held := claim_held claimed
    have ordered := (h.claim claimed).1.pairwise_scopes
    obtain ⟨claims, rfl, sub, -⟩ := claim_ok claimed
    simp only [claimed, bind, Except.bind, pure, Except.pure, Except.ok.injEq] at ok
    have parent : (namespaceFor v.path v.names).parent =
        if v.names.length > 1 then some v.above else none := by
      rw [← v.parent?_path e isName]
      rfl
    by_cases long : v.names.length > 1
    · rw [if_pos long] at parent
      simp only [parent] at ok
      have around (s : Scope) : (if s.ns.dir.same v.above then
          { s with children := s.children ++ [v.path] } else s) = v.enlistIn s := by
        unfold Visit.enlistIn
        by_cases hit : s.ns.dir.same v.above = true
        · rw [if_pos hit, if_pos ⟨dir, long, (same_iff.1 hit).symm⟩]
        · rw [if_neg hit, if_neg fun child => hit (same_iff.2 child.2.2.symm)]
      have ns_eq (s : Scope) : (v.enlistIn s).ns = s.ns := by
        unfold Visit.enlistIn
        split <;> rfl
      simp only [updateScope, around] at ok
      have ordered' : (t.scopes.map v.enlistIn).Pairwise
          fun a b => a.ns.dir.order b.ns.dir = .lt := by
        simpa only [List.pairwise_map, ns_eq] using ordered
      have scopes := mem_putScope (t := { t with claims, scopes := t.scopes.map v.enlistIn })
        ordered' ⟨v.ns, [], []⟩
      subst ok
      refine ⟨sub, .directory dir held rfl fun s' => (scopes s').trans (or_congr Iff.rfl ?_)⟩
      constructor
      · rintro ⟨mem, other⟩
        obtain ⟨s, there, rfl⟩ := List.mem_map.1 mem
        exact ⟨s, there, ns_eq s ▸ other, rfl⟩
      · rintro ⟨s, there, other, rfl⟩
        exact ⟨List.mem_map_of_mem there, (ns_eq s).symm ▸ other⟩
    · rw [if_neg long] at parent
      simp only [parent] at ok
      have enlist (s : Scope) : v.enlistIn s = s := if_neg fun child => long child.2.1
      have scopes := mem_putScope (t := { t with
        claims, topLevel := (namespaceFor v.path v.names).moduleName :: t.topLevel })
        ordered ⟨v.ns, [], []⟩
      subst ok
      refine ⟨sub, .directory dir held rfl fun s' => (scopes s').trans (or_congr Iff.rfl ?_)⟩
      constructor
      · rintro ⟨mem, other⟩
        exact ⟨s', mem, other, (enlist s').symm⟩
      · rintro ⟨s, mem, other, rfl⟩
        rw [enlist]
        exact ⟨mem, other⟩

theorem addSource_ok (h : Shaped sources t) {kind : SourceKind}
    (hk : SourceKind.ofPath? v.path = some kind) (other : v.entry ≠ .dir)
    (ok : t.addSource v.path kind = .ok t') : t.claims ⊆ t'.claims ∧ Added t v t' := by
  unfold Tree.addSource at ok
  split at ok
  case h_1 none_ =>
    obtain rfl := Except.ok.inj ok
    have source : v.source? = none := by
      rw [Option.eq_none_iff_forall_ne_some]
      rintro ⟨kind', stem⟩ e
      obtain ⟨-, -, hs, -⟩ := Visit.source?_eq_some_iff.1 e
      simp [none_] at hs
    exact ⟨List.Subset.refl _, .skipped other source rfl⟩
  case h_2 stem hs =>
    by_cases valid : isComponent stem = true
    case neg =>
      simp only [valid, Bool.not_false, ↓reduceIte] at ok
      obtain rfl := Except.ok.inj ok
      refine ⟨List.Subset.refl _, .skipped other ?_ rfl⟩
      rw [Option.eq_none_iff_forall_ne_some]
      rintro ⟨kind', stem'⟩ e
      obtain ⟨-, -, hs', valid'⟩ := Visit.source?_eq_some_iff.1 e
      obtain rfl := Option.some.inj (hs.symm.trans hs')
      exact valid valid'
    simp only [valid, Bool.not_true, Bool.false_eq_true, ↓reduceIte] at ok
    have source : v.source? = some (kind, stem) :=
      Visit.source?_eq_some_iff.2 ⟨other, hk, hs, valid⟩
    split at ok
    case h_1 none_ =>
      have held := claim_held ok
      obtain ⟨claims, rfl, sub, -⟩ := claim_ok ok
      refine ⟨sub, .plain source (fun s mem e => ?_) held rfl rfl⟩
      exact List.find?_eq_none.1 none_ s mem (same_iff.2 e)
    case h_2 s found =>
      change t.scopeAt? v.above = some s at found
      unfold scopeAt? at found
      have mem := List.mem_of_find?_eq_some found
      have here := List.find?_some found
      rw [same_iff] at here
      change ((t.claim (v.fileIn s.ns kind stem).virtualModule .leafModule
        (v.path.withExtension "")).bind fun t => .ok ((t.updateScope v.above fun s' =>
          { s' with leaves := addToLeaf (v.leafIn s.ns kind stem) s'.leaves }).putFile
            (v.fileIn s.ns kind stem))) = .ok t' at ok
      cases claimed : t.claim (v.fileIn s.ns kind stem).virtualModule .leafModule
          (v.path.withExtension "") with
      | error e => simp [claimed, Except.bind] at ok
      | ok t₁ =>
        have held := claim_held claimed
        have shaped := (h.claim claimed).1
        obtain ⟨claims, rfl, sub, -⟩ := claim_ok claimed
        simp only [claimed, Except.bind, Except.ok.injEq] at ok
        -- the scope that changes is the only one at its directory
        have only (s' : Scope) (there : s' ∈ t.scopes) (e : s'.ns.dir.parts = v.above.parts) :
            s' = s :=
          eq_of_pairwise_lt h.pairwise_scopes there mem (order_eq_iff.2 (e.trans here.symm))
        have shaped' : Shaped sources (({ t with claims } : Tree).updateScope v.above fun s' =>
            { s' with leaves := addToLeaf (v.leafIn s.ns kind stem) s'.leaves }) :=
          shaped.of_namespaces_eq (namespaces_updateScope _ _ fun _ => rfl) rfl rfl
        have files := mem_putFile shaped' (v.fileIn s.ns kind stem)
        subst ok
        refine ⟨sub, .leaf source mem here held files fun s' => ?_⟩
        simp only [putFile, updateScope, List.mem_map]
        constructor
        · rintro ⟨s₀, there, rfl⟩
          by_cases hit : s₀.ns.dir.same v.above = true
          · obtain rfl := only s₀ there (same_iff.1 hit)
            exact .inl (if_pos hit)
          · rw [if_neg hit]
            exact .inr ⟨there, fun e => hit (same_iff.2 e)⟩
        · rintro (rfl | ⟨there, away⟩)
          · exact ⟨s, mem, if_pos (same_iff.2 here)⟩
          · exact ⟨s', there, if_neg fun hit => away (same_iff.1 hit)⟩

/-- What a visit does. -/
theorem addVisit_ok (h : Shaped sources t) (ne : v.names ≠ []) (isName : ∀ n ∈ v.names, IsName n)
    (ok : t.addVisit v = .ok t') : t.claims ⊆ t'.claims ∧ Added t v t' := by
  have path : belowRoot v.source v.names = v.path := div_intercalate ne isName
  have entered := addEntry_ok ok
  rw [path] at entered
  rcases entered with ⟨dir, ok⟩ | ⟨other, ⟨kind, hk, ok⟩ | ⟨none_, rfl⟩⟩
  · exact addNamespace_ok h ne isName dir ok
  · exact addSource_ok h hk other ok
  · refine ⟨List.Subset.refl _, .skipped other ?_ rfl⟩
    rw [Option.eq_none_iff_forall_ne_some]
    rintro ⟨kind, stem⟩ e
    obtain ⟨-, hk, -⟩ := Visit.source?_eq_some_iff.1 e
    simp [none_] at hk

/-! ### A list of visits -/

/-- The last visit of a directory at its path. -/
structure Latest (vs before : List Visit) (u : Visit) (after : List Visit) : Prop where
  eq : vs = before ++ u :: after
  dir : u.entry = .dir
  last : ∀ w ∈ after, w.entry = .dir → w.path.parts ≠ u.path.parts

theorem append_singleton_eq_append_cons {α : Type} {xs front back : List α} {x y : α} :
    xs ++ [x] = front ++ y :: back ↔
      xs = front ∧ x = y ∧ back = [] ∨ ∃ back', back = back' ++ [x] ∧ xs = front ++ y :: back' := by
  constructor
  · intro e
    obtain rfl | ⟨back, z, rfl⟩ := back.eq_nil_or_concat'
    · obtain ⟨rfl, same⟩ := List.append_inj' e rfl
      exact .inl ⟨rfl, List.singleton_inj.1 same, rfl⟩
    · rw [← List.cons_append, ← List.append_assoc] at e
      obtain ⟨rfl, same⟩ := List.append_inj' e rfl
      exact .inr ⟨back, by rw [List.singleton_inj.1 same], rfl⟩
  · rintro (⟨rfl, rfl, rfl⟩ | ⟨back, rfl, rfl⟩) <;> simp

namespace Latest

variable {vs before after : List Visit} {u : Visit}

theorem of_last (vs : List Visit) (dir : v.entry = .dir) : Latest (vs ++ [v]) vs v [] :=
  ⟨rfl, dir, by simp⟩

theorem concat (h : Latest vs before u after)
    (away : v.entry = .dir → v.path.parts ≠ u.path.parts) :
    Latest (vs ++ [v]) before u (after ++ [v]) where
  eq := by rw [h.eq, List.append_assoc, List.cons_append]
  dir := h.dir
  last w hw dir := by
    rcases List.mem_append.1 hw with hw | hw
    · exact h.last w hw dir
    · obtain rfl := List.mem_singleton.1 hw
      exact away dir

theorem mem (h : Latest vs before u after) : u ∈ vs := by
  rw [h.eq]
  simp

/-- What is visited in the directory afterwards belongs to that visit: nothing but the source of the
directory has been gone through since. -/
theorem within (h : Latest vs before u after) (it : Itinerary sources vs) {front back : List Visit}
    {w : Visit} (split : after = front ++ w :: back) {names : List String} {last : String}
    (e : w.names = names ++ [last]) (ne : names ≠ []) (here : w.above.parts = u.path.parts) :
    w.source = u.source ∧ names = u.names ∧
      ∀ y ∈ front, y.source = w.source ∧ y.names ≠ names ∧ y.names ≠ w.names := by
  have order : vs = (before ++ u :: front) ++ w :: back := by
    rw [h.eq, split, List.append_assoc, List.cons_append]
  have isName := it.isName w (by rw [order]; simp)
  have isName_u := it.isName u h.mem
  obtain ⟨first, between, enter, only⟩ := it.entered order e ne
  have parts : (⟨w.source, names, .dir⟩ : Visit).path.parts = u.path.parts := by
    rw [← here, w.above_eq e isName ne]
    rfl
  rcases List.append_eq_append_iff.1 enter with ⟨mid, rfl, rest⟩ | ⟨mid, rfl, rest⟩
  · cases mid with
    | nil =>
      obtain ⟨rfl, rfl⟩ := List.cons.inj rest
      exact ⟨rfl, rfl, only⟩
    | cons y mid =>
      obtain ⟨rfl, rfl⟩ := List.cons.inj rest
      have later : (⟨w.source, names, .dir⟩ : Visit) ∈ after := by rw [split]; simp
      exact absurd parts (h.last _ later rfl)
  · cases mid with
    | nil =>
      obtain ⟨rfl, rfl⟩ := List.cons.inj rest
      exact ⟨rfl, rfl, only⟩
    | cons y mid =>
      -- the directory would be visited twice for one source
      obtain ⟨rfl, rfl⟩ := List.cons.inj rest
      obtain ⟨source, other, -⟩ := only u (by simp)
      rw [Visit.parts_path fun n hn => isName n (by simpa [e] using .inl hn),
        Visit.parts_path isName_u, source] at parts
      exact absurd (List.map_injective_iff.2 (fun _ _ => Part.name.inj)
        (List.append_cancel_left parts)).symm other

/-- What is visited in the directory afterwards, below a source that is none itself, has names of its
own. -/
theorem pairwise_names (h : Latest vs before u after) (it : Itinerary sources vs) :
    after.Pairwise fun y w =>
      1 < w.names.length → w.above.parts = u.path.parts → y.names ≠ w.names := by
  refine pairwise_of_split fun front w back split y hy long here => ?_
  obtain ⟨names, last, e⟩ := (List.eq_nil_or_concat' w.names).resolve_left
    (by rintro e; simp [e] at long)
  have ne : names ≠ [] := by
    rintro rfl
    simp [e] at long
  exact ((h.within it split e ne here).2.2 y hy).2.2

/-- What is visited in the directory afterwards is named after it. -/
theorem exists_last (h : Latest vs before u after) (it : Itinerary sources vs) {w : Visit}
    (hw : w ∈ after) (long : 1 < w.names.length) (here : w.above.parts = u.path.parts) :
    w.source = u.source ∧ ∃ last, w.names = u.names ++ [last] := by
  obtain ⟨front, back, split⟩ := List.append_of_mem hw
  obtain ⟨names, last, e⟩ := (List.eq_nil_or_concat' w.names).resolve_left
    (by rintro e; simp [e] at long)
  have ne : names ≠ [] := by
    rintro rfl
    simp [e] at long
  obtain ⟨source, rfl, -⟩ := h.within it split e ne here
  exact ⟨source, last, e⟩

end Latest

/-- What a scope holds that visits have filled. -/
structure FilledBy (claims : List Claim) (s : Scope) (vs : List Visit) : Prop where
  neat : s.Neat
  claimed : ∀ l ∈ s.leaves, Claimed claims l.virtualModule .leafModule
  files : (s.leaves.flatMap Leaf.files).Perm (vs.filterMap (·.virtualIn? s.ns))
  leaves : s.leaves = (vs.filterMap (·.leafIn? s.ns)).foldl (fun ls l => addToLeaf l ls) []
  children : s.children = (vs.filter (·.IsChildOf s.ns)).map Visit.path

/-- A leaf takes one virtual path more, or is begun with it. -/
theorem perm_addToLeaf {new : Leaf} {leaves : List Leaf}
    (ordered : leaves.Pairwise fun a b => compare a.stem b.stem = .lt) :
    ((addToLeaf new leaves).flatMap Leaf.files).Perm (leaves.flatMap Leaf.files ++ new.files) := by
  unfold addToLeaf
  split
  case h_1 held found =>
    have stem : held.stem = new.stem := by simpa using List.find?_some found
    obtain ⟨front, back, rfl⟩ := List.append_of_mem (List.mem_of_find?_eq_some found)
    obtain ⟨-, rest, apart⟩ := List.pairwise_append.1 ordered
    have other {l : Leaf} (lt : compare l.stem held.stem = .lt ∨ compare held.stem l.stem = .lt) :
        l.stem ≠ new.stem := by
      intro e
      rw [e, stem, Std.ReflOrd.compare_self] at lt
      simp at lt
    have keep {ls : List Leaf} (h : ∀ l ∈ ls, l.stem ≠ new.stem) :
        ls.map (fun l => if l.stem = new.stem then { l with files := l.files ++ new.files } else l) =
          ls :=
      (List.map_congr_left fun l hl => if_neg (h l hl)).trans (List.map_id _)
    rw [List.map_append, List.map_cons, if_pos stem,
      keep fun l hl => other (.inl (apart l hl held List.mem_cons_self)),
      keep fun l hl => other (.inr ((List.pairwise_cons.1 rest).1 l hl))]
    simp only [List.flatMap_append, List.flatMap_cons, List.append_assoc]
    exact ((List.perm_append_comm).append_left _).append_left _
  case h_2 missing =>
    have fresh : ∀ l ∈ leaves, compare new.stem l.stem ≠ .eq := by
      intro l hl e
      have none_ := List.find?_eq_none.1 missing l hl
      exact none_ (by simpa using (Std.LawfulEqOrd.eq_of_compare e).symm)
    exact ((insertInOrder_perm fresh).flatMap_right _).trans List.perm_append_comm

theorem virtualModule_of_mem_addToLeaf {new l : Leaf} {leaves : List Leaf}
    (h : l ∈ addToLeaf new leaves) :
    l.virtualModule = new.virtualModule ∨ ∃ l₀ ∈ leaves, l.virtualModule = l₀.virtualModule := by
  unfold addToLeaf at h
  split at h
  · obtain ⟨l₀, mem, rfl⟩ := List.mem_map.1 h
    refine .inr ⟨l₀, mem, ?_⟩
    split <;> rfl
  · exact (mem_of_mem_insertInOrder h).imp (congrArg _) fun mem => ⟨l, mem, rfl⟩

namespace FilledBy

variable {claims claims' : List Claim} {s : Scope} {vs : List Visit}

theorem mono (h : FilledBy claims s vs) (sub : claims ⊆ claims') : FilledBy claims' s vs :=
  { h with claimed := fun l hl => (h.claimed l hl).imp fun _ hc => ⟨sub hc.1, hc.2⟩ }

theorem nil (claims : List Claim) (ns : Namespace) : FilledBy claims ⟨ns, [], []⟩ [] := by
  constructor
  case neat => exact ⟨.nil, by simp⟩
  all_goals simp

/-- What does not belong there makes no difference. -/
theorem skip (h : FilledBy claims s vs) (no_file : v.virtualIn? s.ns = none)
    (no_child : ¬ v.IsChildOf s.ns) : FilledBy claims s (vs ++ [v]) where
  neat := h.neat
  claimed := h.claimed
  files := by simpa [List.filterMap_append, no_file] using h.files
  leaves := by simpa [List.filterMap_append, Visit.leafIn?_eq_none no_file] using h.leaves
  children := by simpa [List.filter_append, no_child] using h.children

theorem enlistIn (h : FilledBy claims s vs) (dir : v.entry = .dir) :
    FilledBy claims (v.enlistIn s) (vs ++ [v]) := by
  have no_file : v.virtualIn? s.ns = none := by simp [Visit.virtualIn?, Visit.source?, dir]
  unfold Visit.enlistIn
  split
  case isTrue child =>
    constructor
    case neat => exact ⟨h.neat.ordered, h.neat.named⟩
    case claimed => exact h.claimed
    case files => simpa [List.filterMap_append, no_file] using h.files
    case leaves => simpa [List.filterMap_append, Visit.leafIn?_eq_none no_file] using h.leaves
    case children => simp [List.filter_append, child, h.children]
  case isFalse child => exact h.skip no_file child

theorem enter (h : FilledBy claims s vs) {source : Path} (lies : s.ns.LiesBelow source)
    {kind : SourceKind} {stem : String} (source? : v.source? = some (kind, stem))
    (here : s.ns.dir.parts = v.above.parts)
    (held : Claimed claims (v.fileIn s.ns kind stem).virtualModule .leafModule) :
    FilledBy claims { s with leaves := addToLeaf (v.leafIn s.ns kind stem) s.leaves }
      (vs ++ [v]) := by
  obtain ⟨other, -, -, valid⟩ := Visit.source?_eq_some_iff.1 source?
  have no_child : ¬ v.IsChildOf s.ns := fun child => other child.1
  have file : v.virtualIn? s.ns = some (v.fileIn s.ns kind stem).virtualPath := by
    simp [Visit.virtualIn?, source?, here]
  have neat : Scope.Neat { s with leaves := addToLeaf (v.leafIn s.ns kind stem) s.leaves } :=
    Tidy.neat_addToLeaf h.neat valid (v.made_fileIn lies source?).virtualModule_eq
  have leaf : v.leafIn? s.ns = some (v.leafIn s.ns kind stem) := by
    simp [Visit.leafIn?, source?, here]
  refine ⟨neat, fun l hl => ?_, ?_, ?_, ?_⟩
  · rcases virtualModule_of_mem_addToLeaf hl with e | ⟨l₀, mem, e⟩
    · exact e ▸ held
    · exact e ▸ h.claimed l₀ mem
  · have one : [v].filterMap (·.virtualIn? s.ns) = [(v.fileIn s.ns kind stem).virtualPath] := by
      simp [file]
    rw [List.filterMap_append, one]
    exact (perm_addToLeaf h.neat.ordered).trans (h.files.append_right _)
  · simp [List.filterMap_append, leaf, List.foldl_append, ← h.leaves]
  · simpa [List.filter_append, no_child] using h.children

end FilledBy

/-- How a source file is registered that is visited after others: in the namespace that one of these
made of its directory, or under its own name if none did. -/
inductive Registered (t : Tree) (before : List Visit) (v : Visit) (stem : String) : Prop
  | leaf {u : Visit} (mem : u ∈ before) (dir : u.entry = .dir)
      (here : u.path.parts = v.above.parts)
      (held : Held t.claims (moduleName (flatName (u.names ++ [stem]))) .leafModule
        (v.path.withExtension ""))
      (recorded : ∃ f ∈ t.files, f.realPath.parts = v.path.parts)
  | plain (alone : ∀ u ∈ before, u.entry = .dir → u.path.parts ≠ v.above.parts)
      (held : Held t.claims (moduleName stem) .leafModule (v.path.withExtension ""))

/-- What a tree is after visits. -/
structure After (sources : List Path) (vs : List Visit) (t : Tree) : Prop where
  shaped : Shaped sources t
  held : ∀ v ∈ vs, v.entry = .dir → Held t.claims v.ns.moduleName .subNamespace v.path
  registered : ∀ {before v after kind stem}, vs = before ++ v :: after →
    v.source? = some (kind, stem) → Registered t before v stem
  scope : ∀ s ∈ t.scopes, ∃ before u after, Latest vs before u after ∧ s.ns = u.ns ∧
    FilledBy t.claims s after
  scope_of_dir : ∀ v ∈ vs, v.entry = .dir → ∃ s ∈ t.scopes, s.ns.dir.parts = v.path.parts
  file : ∀ f ∈ t.files, ∃ v ∈ vs, ∃ u ∈ vs, ∃ kind stem, u.entry = .dir ∧
    u.path.parts = v.above.parts ∧ v.source? = some (kind, stem) ∧ f = v.fileIn u.ns kind stem ∧
    Held t.claims f.virtualModule .leafModule (v.path.withExtension "")

theorem Registered.mono {before : List Visit} {stem : String} (h : Registered t before v stem)
    (sub : t.claims ⊆ t'.claims)
    (files : ∀ f ∈ t.files, ∃ f' ∈ t'.files, f'.realPath.parts = f.realPath.parts) :
    Registered t' before v stem := by
  cases h with
  | leaf mem dir here held recorded =>
    obtain ⟨f, hf, e⟩ := recorded
    obtain ⟨f', hf', e'⟩ := files f hf
    exact .leaf mem dir here (held.mono sub) ⟨f', hf', e'.trans e⟩
  | plain alone held => exact .plain alone (held.mono sub)

namespace After

variable {vs : List Visit}

theorem start (sources : List Path) (executables : List ExecutableConfig) :
    After sources [] { executables } := by
  constructor <;> simp [Shaped.start]

theorem step (h : After sources vs t) (it : Itinerary sources (vs ++ [v]))
    (ok : t.addVisit v = .ok t') : After sources (vs ++ [v]) t' := by
  have mem : v ∈ vs ++ [v] := by simp
  have isName := it.isName v mem
  have shaped := h.shaped.addEntry (it.source v mem) (it.ne_nil v mem) (it.visible v mem) ok
  obtain ⟨sub, added⟩ := addVisit_ok h.shaped (it.ne_nil v mem) isName ok
  have held (new : v.entry = .dir → Held t'.claims v.ns.moduleName .subNamespace v.path) :
      ∀ w ∈ vs ++ [v], w.entry = .dir → Held t'.claims w.ns.moduleName .subNamespace w.path := by
    intro w hw dir
    rcases List.mem_append.1 hw with hw | hw
    · exact (h.held w hw dir).mono sub
    · obtain rfl := List.mem_singleton.1 hw
      exact new dir
  have registered
      (files : ∀ f ∈ t.files, ∃ f' ∈ t'.files, f'.realPath.parts = f.realPath.parts)
      (new : ∀ {kind stem}, v.source? = some (kind, stem) → Registered t' vs v stem) :
      ∀ {before w after kind stem}, vs ++ [v] = before ++ w :: after →
        w.source? = some (kind, stem) → Registered t' before w stem := by
    intro before w after kind stem split source
    rcases append_singleton_eq_append_cons.1 split with ⟨rfl, rfl, -⟩ | ⟨_, -, split⟩
    · exact new source
    · exact (h.registered split source).mono sub files
  have file {f : NamespacedFile} (hf : f ∈ t.files) : ∃ w ∈ vs ++ [v], ∃ u ∈ vs ++ [v],
      ∃ kind stem, u.entry = .dir ∧ u.path.parts = w.above.parts ∧ w.source? = some (kind, stem) ∧
        f = w.fileIn u.ns kind stem ∧
          Held t'.claims f.virtualModule .leafModule (w.path.withExtension "") := by
    obtain ⟨w, hw, u, hu, kind, stem, dir, here, source, e, held⟩ := h.file f hf
    exact ⟨w, List.mem_append_left _ hw, u, List.mem_append_left _ hu, kind, stem, dir, here, source,
      e, held.mono sub⟩
  cases added with
  | directory dir new files scopes =>
    have no_source : v.source? = none := by simp [Visit.source?, dir]
    refine {
      shaped
      held := held fun _ => new
      registered := registered (fun f hf => ⟨f, files ▸ hf, rfl⟩) (by simp [no_source])
      scope := fun s' hs' => ?_
      scope_of_dir := fun w hw wdir => ?_
      file := fun f hf => file (files ▸ hf) }
    · rcases (scopes s').1 hs' with rfl | ⟨s, hs, away, rfl⟩
      · exact ⟨vs, v, [], .of_last vs dir, rfl, .nil _ _⟩
      · obtain ⟨before, u, after, latest, ns, filled⟩ := h.scope s hs
        refine ⟨before, u, after ++ [v], latest.concat fun _ e => away ?_, ?_,
          (filled.enlistIn dir).mono sub⟩
        · rw [ns, e]
          rfl
        · rw [← ns]
          unfold Visit.enlistIn
          split <;> rfl
    · by_cases same : w.path.parts = v.path.parts
      · exact ⟨_, (scopes _).2 (.inl rfl), same.symm⟩
      · have hw : w ∈ vs := (List.mem_append.1 hw).resolve_right fun hw =>
          same (by rw [List.mem_singleton.1 hw])
        obtain ⟨s, hs, parts⟩ := h.scope_of_dir w hw wdir
        refine ⟨_, (scopes _).2 (.inr ⟨s, hs, parts ▸ same, rfl⟩), ?_⟩
        unfold Visit.enlistIn
        split <;> exact parts
  | @plain kind stem source alone new files scopes =>
    obtain ⟨other, -⟩ := Visit.source?_eq_some_iff.1 source
    refine {
      shaped
      held := held fun dir => absurd dir other
      registered := registered (fun f hf => ⟨f, files ▸ hf, rfl⟩) fun source' => ?_
      scope := fun s hs => ?_
      scope_of_dir := fun w hw wdir => ?_
      file := fun f hf => file (files ▸ hf) }
    · obtain ⟨-, rfl⟩ : kind = _ ∧ stem = _ := by simpa [source] using source'
      refine .plain (fun u hu dir e => ?_) new
      obtain ⟨s, hs, parts⟩ := h.scope_of_dir u hu dir
      exact alone s hs (parts.trans e)
    · obtain ⟨before, u, after, latest, ns, filled⟩ := h.scope s (scopes ▸ hs)
      refine ⟨before, u, after ++ [v], latest.concat fun dir => absurd dir other, ns,
        (filled.mono sub).skip ?_ fun child => other child.1⟩
      simp [Visit.virtualIn?, source, Ne.symm (alone s (scopes ▸ hs))]
    · have hw : w ∈ vs := (List.mem_append.1 hw).resolve_right fun hw =>
        other (List.mem_singleton.1 hw ▸ wdir)
      exact scopes ▸ h.scope_of_dir w hw wdir
  | @leaf kind stem s source hs here new files scopes =>
    obtain ⟨other, -⟩ := Visit.source?_eq_some_iff.1 source
    obtain ⟨before, u, after, latest, ns, filled⟩ := h.scope s hs
    obtain ⟨src, -, lies⟩ := h.shaped.below s.ns (List.mem_map_of_mem hs)
    have made := v.made_fileIn lies source
    have u_here : u.path.parts = v.above.parts := by
      rw [← here, ns]
      rfl
    refine {
      shaped
      held := held fun dir => absurd dir other
      registered := registered (fun f hf => ?_) fun source' => ?_
      scope := fun s' hs' => ?_
      scope_of_dir := fun w hw wdir => ?_
      file := fun f hf => ?_ }
    · -- a record that gives way is one of the same file
      by_cases away : f.virtualPath.parts = (v.fileIn s.ns kind stem).virtualPath.parts
      · refine ⟨_, (files _).2 (.inl rfl), ?_⟩
        obtain ⟨w, hw, u', hu', kind', stem', dir', -, source', rfl, -⟩ := h.file f hf
        have around := it.of_append
        have lies' : u'.ns.LiesBelow u'.source := namespaceIn_lies (around.ne_nil u' hu')
          (by simpa [isVisible, dir'] using around.visible u' hu')
        obtain ⟨dirs, -, rfl, kinds⟩ := (w.made_fileIn lies' source').eq_of_parts made away
        obtain rfl : kind' = kind := kinds
        have above : w.above.parts = v.above.parts := dirs
        change v.path.parts = w.path.parts
        rw [v.parts_of_source? isName (it.ne_nil v mem) source,
          w.parts_of_source? (around.isName w hw) (around.ne_nil w hw) source', above]
      · exact ⟨f, (files f).2 (.inr ⟨hf, away⟩), rfl⟩
    · obtain ⟨rfl, rfl⟩ : kind = _ ∧ stem = _ := by simpa [source] using source'
      refine .leaf latest.mem latest.dir u_here ?_ ⟨_, (files _).2 (.inl rfl), rfl⟩
      have named := made.virtualModule_eq
      rw [ns] at named new
      exact named ▸ new
    · rcases (scopes s').1 hs' with rfl | ⟨hs', away⟩
      · exact ⟨before, u, after ++ [v], latest.concat fun dir => absurd dir other, ns,
          (filled.mono sub).enter lies source here new.claimed⟩
      · obtain ⟨before, u, after, latest, ns, filled⟩ := h.scope s' hs'
        refine ⟨before, u, after ++ [v], latest.concat fun dir => absurd dir other, ns,
          (filled.mono sub).skip ?_ fun child => other child.1⟩
        simp [Visit.virtualIn?, source, Ne.symm away]
    · have hw : w ∈ vs := (List.mem_append.1 hw).resolve_right fun hw =>
        other (List.mem_singleton.1 hw ▸ wdir)
      obtain ⟨s₀, hs₀, parts⟩ := h.scope_of_dir w hw wdir
      by_cases there : s₀.ns.dir.parts = v.above.parts
      · exact ⟨_, (scopes _).2 (.inl rfl), (here.trans there.symm).trans parts⟩
      · exact ⟨s₀, (scopes _).2 (.inr ⟨hs₀, there⟩), parts⟩
    · rcases (files f).1 hf with rfl | ⟨hf, -⟩
      · refine ⟨v, mem, u, List.mem_append_left _ latest.mem, kind, stem, latest.dir, u_here, source,
          ?_, new⟩
        rw [ns]
      · exact file hf
  | skipped other source same =>
    subst same
    refine {
      shaped
      held := held fun dir => absurd dir other
      registered := registered (fun f hf => ⟨f, hf, rfl⟩) (by simp [source])
      scope := fun s hs => ?_
      scope_of_dir := fun w hw wdir => ?_
      file := fun f hf => file hf }
    · obtain ⟨before, u, after, latest, ns, filled⟩ := h.scope s hs
      exact ⟨before, u, after ++ [v], latest.concat fun dir => absurd dir other, ns,
        filled.skip (by simp [Visit.virtualIn?, source]) fun child => other child.1⟩
    · have hw : w ∈ vs := (List.mem_append.1 hw).resolve_right fun hw =>
        other (List.mem_singleton.1 hw ▸ wdir)
      exact h.scope_of_dir w hw wdir

theorem addLibraries (h : After sources vs t) (libraries : List Path) :
    After sources vs { t with libraries } :=
  { h with
    shaped := h.shaped.of_namespaces_eq rfl rfl rfl
    registered := fun split source =>
      (h.registered split source).mono (List.Subset.refl _) fun f hf => ⟨f, hf, rfl⟩ }

/-- A scan leaves what its visits leave. -/
theorem scan {d : Disk} {root : Path} {config : Config} (sound : d.Sound)
    (ok : Tree.scan d root config = .ok t) :
    After config.sourceDirs (visits d root config.sourceDirs) t := by
  obtain ⟨t₀, libraries, rfl, run⟩ := exists_run_of_scan ok
  have it := itinerary_visits sound root config.sourceDirs
  have h : After config.sourceDirs (visits d root config.sourceDirs) t₀ := by
    refine foldlM_ok_prefix (fun front v back t₁ t₂ split h ok => ?_) (.start _ _) run
    rw [split, ← List.singleton_append, ← List.append_assoc] at it
    exact h.step it.of_append ok
  exact h.addLibraries libraries

/-- A file is in a namespace of its tree. -/
theorem exists_scope (h : After sources vs t) {f : NamespacedFile} (hf : f ∈ t.files) :
    ∃ s ∈ t.scopes, s.ns.dir.parts = f.dir.parts := by
  obtain ⟨v, -, u, hu, kind, stem, dir, here, -, rfl, -⟩ := h.file f hf
  obtain ⟨s, hs, parts⟩ := h.scope_of_dir u hu dir
  exact ⟨s, hs, parts.trans here⟩

end After

end Tree

end FlatModules
