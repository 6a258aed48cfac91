import FlatModules.Proofs.Naming.ModuleName
import FlatModules.Proofs.Tree.History

/-!
# Trees — members and what their names stand for

What is directly in a namespace has names there: the stems of its leaves and the last components of
its sub-namespaces (`Tree.localNames`).  They are all different, and the members are named by them
with the first letter capital, so that two members have one name exactly if two of them differ in the
case of that letter alone.  In a file of the namespace a name stands for the first member that has it
(`Tree.resolve_member`).
-/

namespace FlatModules

open Naming Path

namespace Tree

/-- The names that what is directly in a namespace has there. -/
def localNames (t : Tree) (s : Scope) : List String :=
  s.leaves.map Leaf.stem ++ (t.childScopes s).filterMap fun c => c.ns.components.getLast?

theorem mem_scopeMembers {t : Tree} {s : Scope} {m : Member} :
    m ∈ t.scopeMembers s ↔
      (∃ l ∈ s.leaves, l.member = m) ∨ ∃ c ∈ t.childScopes s, c.member? = some m := by
  rw [scopeMembers, mem_sortBy, List.mem_append, List.mem_map, List.mem_filterMap]

/-- The members of a scope before they are put in order. -/
theorem map_name_members (t : Tree) (s : Scope) :
    (s.leaves.map Leaf.member ++ (t.childScopes s).filterMap Scope.member?).map Member.name =
      (t.localNames s).map moduleName := by
  have children : ((t.childScopes s).filterMap Scope.member?).map Member.name =
      ((t.childScopes s).filterMap fun c => c.ns.components.getLast?).map moduleName := by
    rw [List.map_filterMap, List.map_filterMap]
    refine List.filterMap_congr fun c _ => ?_
    simp [Scope.member?, Scope.shortName?, Function.comp_def]
  rw [localNames, List.map_append, List.map_append, children, List.map_map, List.map_map]
  rfl

/-- A name is that of the first member that has it. -/
theorem findMember?_eq (t : Tree) (s : Scope) (name : String) :
    t.findMember? s name = ((t.scopeMembers s).find? (·.name = name)).map Member.target := by
  have first : (t.scopeMembers s).find? (·.name = name) =
      (s.leaves.map Leaf.member ++ (t.childScopes s).filterMap Scope.member?).find?
        (·.name = name) := by
    refine find?_sortBy fun a b ha hb => ?_
    simp only [decide_eq_true_eq] at ha hb ⊢
    subst hb
    exact ha.symm ▸ String.le_refl b.name
  have children : ((t.childScopes s).find? fun c => (c.member?.any (·.name = name))) =
      (t.childScopes s).find? fun c => c.shortName? = some name := by
    congr 1
    funext c
    cases e : c.shortName? <;> simp [Scope.member?, e]
  have leaves : (s.leaves.find? ((fun m : Member => decide (m.name = name)) ∘ Leaf.member)) =
      s.leaves.find? fun l => moduleName l.stem = name := rfl
  rw [first, List.find?_append, List.find?_map, List.find?_filterMap, findMember?, children, leaves]
  cases s.leaves.find? fun l => moduleName l.stem = name with
  | some l => rfl
  | none =>
    cases e : (t.childScopes s).find? fun c => c.shortName? = some name with
    | none => rfl
    | some c =>
      have named : c.shortName? = some name := by simpa using List.find?_some e
      simp [Scope.member?, named]

variable {sources : List Path} {vs before after : List Visit} {u : Visit} {t : Tree} {s : Scope}

/-- A sub-namespace has the last name of its visit. -/
theorem After.getLast?_childScopes (h : After sources vs t) (it : Itinerary sources vs)
    (latest : Latest vs before u after) (filled : FilledBy t.claims s after) :
    ((t.childScopes s).filterMap fun c => c.ns.components.getLast?) =
      (after.filter (·.IsChildOf s.ns)).filterMap fun w => w.names.getLast? := by
  rw [childScopes, filled.children, List.filterMap_map, List.filterMap_filterMap]
  refine List.filterMap_congr fun w hw => ?_
  obtain ⟨hw, child⟩ := List.mem_filter.1 hw
  have hw : w ∈ vs := by
    rw [latest.eq]
    simp [hw]
  obtain ⟨dir, -, -⟩ := of_decide_eq_true child
  obtain ⟨c, hc, parts⟩ := h.scope_of_dir w hw dir
  obtain ⟨source, -, lies⟩ := h.shaped.below c.ns (List.mem_map_of_mem hc)
  have found : t.scopeAt? w.path = some c := h.shaped.scopeAt?_eq hc parts.symm
  -- both are the last part of one path
  have last {names : List String} {path source : Path} (ne : names ≠ [])
      (e : path.parts = source.parts ++ names.map Part.name) :
      path.parts.getLast? = names.getLast?.map Part.name := by
    rw [e, List.getLast?_append_of_ne_nil _ (by simpa using ne), List.getLast?_map]
  have both := last lies.ne_nil lies.parts_dir
  rw [parts, last (it.ne_nil w hw) (w.parts_path (it.isName w hw))] at both
  simp only [Function.comp_apply, found, Option.bind_some]
  exact (Option.map_injective (fun _ _ => Part.name.inj) both).symm

/-- What is directly in a namespace has names of its own. -/
theorem After.nodup_localNames (h : After sources vs t) (it : Itinerary sources vs)
    (hs : s ∈ t.scopes) : (t.localNames s).Nodup := by
  obtain ⟨before, u, after, latest, ns, filled⟩ := h.scope s hs
  have here : s.ns.dir.parts = u.path.parts := by
    rw [ns]
    rfl
  have child {w : Visit} (hw : w ∈ after.filter (·.IsChildOf s.ns)) :
      w ∈ vs ∧ w.entry = .dir ∧ ∃ last, w.names = u.names ++ [last] := by
    obtain ⟨hw, child⟩ := List.mem_filter.1 hw
    obtain ⟨dir, long, above⟩ := of_decide_eq_true child
    exact ⟨by rw [latest.eq]; simp [hw], dir, (latest.exists_last it hw long (above.trans here)).2⟩
  rw [localNames, h.getLast?_childScopes it latest filled]
  refine List.nodup_append.2 ⟨?_, ?_, ?_⟩
  · refine List.pairwise_map.2 (filled.neat.ordered.imp fun {a b} lt e => ?_)
    rw [e, Std.ReflOrd.compare_self] at lt
    simp at lt
  · have apart := (latest.pairwise_names it).filter (fun w => decide (w.IsChildOf s.ns))
    refine List.pairwise_filterMap.2 (apart.imp_of_mem fun {y w} hy hw ne a ha b hb => ?_)
    rintro rfl
    obtain ⟨-, -, last, names⟩ := child hy
    obtain ⟨-, -, last', names'⟩ := child hw
    obtain ⟨-, long, above⟩ := of_decide_eq_true (List.mem_filter.1 hw).2
    refine ne long (above.trans here) ?_
    rw [names, List.getLast?_concat] at ha
    rw [names', List.getLast?_concat] at hb
    rw [names, names', Option.some.inj (ha.trans hb.symm)]
  · -- a leaf and a sub-namespace of one name would claim one module
    rintro x hx y hy rfl
    obtain ⟨l, hl, rfl⟩ := List.mem_map.1 hx
    obtain ⟨w, hw, last⟩ := List.mem_filterMap.1 hy
    obtain ⟨mem, dir, last', names⟩ := child hw
    obtain rfl : last' = l.stem := by simpa [names] using last
    have held := (h.held w mem dir).claimed
    have leaf := filled.claimed l hl
    have same : w.ns.moduleName = l.virtualModule := by
      rw [(filled.neat.named l hl).2, ns]
      change moduleName (flatName w.names) = _
      rw [names]
      rfl
    rw [same] at held
    exact absurd (held.kind_eq h.shaped.differ leaf) (by decide)

theorem members_eq (h : Shaped sources t) (hs : s ∈ t.scopes) :
    t.members s.ns = t.scopeMembers s := by
  rw [members, h.scopeAt?_eq hs rfl]

/-- The members of a namespace are named by what is directly in it. -/
theorem perm_name_members (h : Shaped sources t) (hs : s ∈ t.scopes) :
    ((t.members s.ns).map Member.name).Perm ((t.localNames s).map moduleName) := by
  rw [members_eq h hs, ← map_name_members]
  exact (sortBy_perm _ _).map _

/-- In a file of a namespace a name stands for the first member that has it. -/
theorem resolve?_of_find? (h : Shaped sources t) (hs : s ∈ t.scopes) {f : NamespacedFile}
    (here : f.dir.parts = s.ns.dir.parts) {name : String} {m : Member}
    (first : (t.members s.ns).find? (·.name = name) = some m) :
    t.resolve? f name = some m.target := by
  rw [members_eq h hs] at first
  rw [resolve?, resolveFrom?, h.scopeAt?_eq hs here]
  simp only [findMember?_eq, first, Option.map_some]

/-- What the members of a namespace are named, and what these names stand for in its files. -/
theorem resolve_member {d : Disk} {root : Path} {config : Config} (sound : d.Sound)
    (ok : scan d root config = .ok t) :
    (∀ f ∈ t.files, ∃ s ∈ t.scopes, s.ns.dir.parts = f.dir.parts) ∧
    ∀ s ∈ t.scopes,
      (t.localNames s).Nodup ∧
      ((t.members s.ns).map Member.name).Perm ((t.localNames s).map moduleName) ∧
      (((t.members s.ns).map Member.name).Nodup ↔
        ∀ a ∈ t.localNames s, ∀ b ∈ t.localNames s, moduleName a = moduleName b → a = b) ∧
      ∀ f ∈ t.files, f.dir.parts = s.ns.dir.parts →
        (∀ name m, (t.members s.ns).find? (·.name = name) = some m →
          t.resolve? f name = some m.target) ∧
        (((t.members s.ns).map Member.name).Nodup →
          ∀ m ∈ t.members s.ns, t.resolve? f m.name = some m.target) := by
  have h := After.scan sound ok
  have it := itinerary_visits sound root config.sourceDirs
  refine ⟨fun f hf => h.exists_scope hf, fun s hs => ?_⟩
  have names := h.nodup_localNames it hs
  have perm := perm_name_members h.shaped hs
  refine ⟨names, perm, ?_, fun f hf here => ⟨fun name m first => ?_, fun differ m hm => ?_⟩⟩
  · rw [perm.nodup_iff, List.nodup_map_iff_inj_on names]
  · exact resolve?_of_find? h.shaped hs here first
  · refine resolve?_of_find? h.shaped hs here (find?_eq_some_of_unique hm (by simp) ?_)
    intro m' hm' e
    exact List.inj_on_of_nodup_map differ hm' hm (of_decide_eq_true e)

/-- A project with a namespace of two leaves whose stems differ in the case of the first letter. -/
def caseDisk : Disk :=
  sampleDisk [["lib"], ["lib", "n"]] [(["lib", "n", "foo.ml"], ""), (["lib", "n", "Foo.ml"], "")]

set_option maxRecDepth 100000 in
/-- The names in that project's namespace, and what they stand for. -/
theorem resolve_member_caseDisk :
    caseDisk.Sound ∧ scan caseDisk ⟨"/p"⟩ libConfig = .ok (sampleTree caseDisk libConfig) ∧
      ∀ s ∈ (sampleTree caseDisk libConfig).scopes,
        ((sampleTree caseDisk libConfig).localNames s).Nodup ∧
        ∀ f ∈ (sampleTree caseDisk libConfig).files, f.dir.parts = s.ns.dir.parts →
          ∀ name m, ((sampleTree caseDisk libConfig).members s.ns).find? (·.name = name) = some m →
            (sampleTree caseDisk libConfig).resolve? f name = some m.target := by
  have sound : caseDisk.Sound := by decide +kernel
  have accepted := scan_sampleTree (d := caseDisk) (c := libConfig) (by decide +kernel)
  refine ⟨sound, accepted, fun s hs => ?_⟩
  obtain ⟨names, -, -, resolved⟩ := (resolve_member sound accepted).2 s hs
  exact ⟨names, fun f hf here => (resolved f hf here).1⟩

set_option maxRecDepth 100000 in
/-- Both leaves have one short name, and it stands for one of them only. -/
theorem name_of_two_caseDisk :
    (scan caseDisk ⟨"/p"⟩ libConfig).toOption.isSome = true ∧
      ∃ ns ∈ (sampleTree caseDisk libConfig).namespaces,
        ¬ (((sampleTree caseDisk libConfig).members ns).map Member.name).Nodup ∧
        ∃ f ∈ (sampleTree caseDisk libConfig).files, f.dir = ns.dir ∧
          ∃ m ∈ (sampleTree caseDisk libConfig).members ns,
            (sampleTree caseDisk libConfig).resolve? f m.name ≠ some m.target := by
  decide +kernel

end Tree

end FlatModules
