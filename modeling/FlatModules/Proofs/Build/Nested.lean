import FlatModules.Proofs.Build.Asks
import FlatModules.Proofs.Build.Growth

/-!
# Build — calls inside calls

While a target is built the engine calls itself for others.  A step makes such a call if it comes to
nothing once that call does (`Requests`); the calls that the building of a target makes are `Nested`
in the call for it.  They are for targets that it asks for, and are made in worlds where all that
such calls keep still holds (`Nested.step`).  So a request ends: it leads to finitely many targets,
and none is entered again while it is being built (`engine_ends`).
-/

namespace FlatModules

open Relation

namespace Local

variable {p : Project}

/-- A call for a target, in a world, with the depth that it may reach. -/
structure Call where
  depth : Nat
  target : Path
  world : World LocalState

/-- What a call comes to, with the world that it leaves. -/
def Call.result (p : Project) (c : Call) : Option (Outcome × World LocalState) :=
  buildWithin p c.depth c.target c.world

/-- Whether a call builds its target, which is neither known nor being built. -/
structure Call.Enters (c : Call) : Prop where
  new : lookupPath? c.target c.world.own.outcomes = none
  idle : listsPath c.target c.world.own.inProgress = false

/-- Whether a step that asks for targets by `build` asks for `r` in the world `v`: the step comes to
something, but to nothing once this request does. -/
structure Requests {α : Type} (step : (Path → Step Outcome) → Step α) (build : Path → Step Outcome)
    (w : World LocalState) (r : Path) (v : World LocalState) : Prop where
  ends : step build w ≠ none
  needs : ∀ build', (∀ q u, ¬ (q = r ∧ u = v) → build' q u = build q u) → build' r v = none →
    step build' w = none

/-- The calls that are made for other targets while a call builds its own. -/
structure Nested (p : Project) (c c' : Call) : Prop where
  depth : c.depth = c'.depth + 1
  enters : c.Enters
  requests : Requests (fun build => tryRules p (engineOf p build) c.target rules none)
    (buildWithin p c'.depth) (entered c.target c.world) c'.target c'.world

namespace Requests

variable {α : Type} {step : (Path → Step Outcome) → Step α} {build : Path → Step Outcome}
  {w v : World LocalState} {r : Path}

/-- A request has an outcome. -/
theorem ne_none (h : Requests step build w r v) : build r v ≠ none :=
  fun nothing => h.ends (h.needs build (fun _ _ _ => rfl) nothing)

/-- What holds of enough requests for the step to come to the same holds of each. -/
theorem holds (h : Requests step build w r v) {C : Path → World LocalState → Prop}
    (enough : ∀ build', (∀ q u, C q u → build' q u = build q u) → step build' w = step build w) :
    C r v := by
  classical
  by_contra other
  -- if the request were not among them, the step could do without it
  let build' (q : Path) : Step Outcome := fun u => if q = r ∧ u = v then none else build q u
  have same := enough build' fun q u hC => if_neg (by rintro ⟨rfl, rfl⟩; exact other hC)
  have nothing := h.needs build' (fun q u ne => if_neg ne) (if_pos ⟨rfl, rfl⟩)
  exact h.ends (same.symm.trans nothing)

end Requests

/-! ### Worlds in which calls are made -/

/-- A property of worlds that hangs on the outcomes, the targets being built and the hard failures
alone. -/
def Stable (I : World LocalState → Prop) : Prop :=
  ∀ u u' : World LocalState, u'.own.outcomes = u.own.outcomes →
    u'.own.inProgress = u.own.inProgress → u'.own.hard = u.own.hard → I u → I u'

/-- Two steps that come to the same in worlds with a property, and keep it. -/
structure Agree (I : World LocalState → Prop) {α : Type} (m m' : Step α) : Prop where
  same : ∀ u, I u → m' u = m u
  kept : ∀ u, I u → ∀ x u', m u = some (x, u') → I u'

namespace Agree

variable {I : World LocalState → Prop} {α β : Type} {m m' : Step α} {f f' : α → Step β}

theorem bind_same (h : Agree I m m')
    (hf : ∀ x w w', m w = some (x, w') → ∀ u, I u → f' x u = f x u) (u : World LocalState)
    (hu : I u) : (m' >>= f') u = (m >>= f) u := by
  change (m' u).bind (fun x => f' x.1 x.2) = (m u).bind fun x => f x.1 x.2
  rw [h.same u hu]
  cases run : m u with
  | none => rfl
  | some x => exact hf x.1 u x.2 run x.2 (h.kept u hu x.1 x.2 run)

theorem bind (h : Agree I m m') (hf : ∀ x w w', m w = some (x, w') → Agree I (f x) (f' x)) :
    Agree I (m >>= f) (m' >>= f') where
  same := h.bind_same fun x w w' run => (hf x w w' run).same
  kept := by
    intro u hu y u' run
    obtain ⟨x, u₁, first, rest⟩ := Work.bind_eq_some.1 run
    exact (hf x u u₁ first).kept u₁ (h.kept u hu x u₁ first) y u' rest

/-- A step agrees with itself if it leaves alone what the property hangs on. -/
theorem still (stable : Stable I) (h : ∀ u x u', m u = some (x, u') →
    u'.own.outcomes = u.own.outcomes ∧ u'.own.inProgress = u.own.inProgress ∧
      u'.own.hard = u.own.hard) : Agree I m m where
  same _ _ := rfl
  kept u hu x u' run := by
    obtain ⟨outcomes, inProgress, hard⟩ := h u x u' run
    exact stable u u' outcomes inProgress hard hu

theorem parallel (stable : Stable I) (p : Project) (q : Path) : Parallel p q fun _ => Agree I where
  pure x := still stable fun u y u' run => by
    obtain ⟨-, rfl⟩ := Prod.mk.inj (Option.some.inj run)
    exact ⟨rfl, rfl, rfl⟩
  bind := bind
  get := still stable fun u y u' run => by
    obtain ⟨-, rfl⟩ := Prod.mk.inj (Option.some.inj run)
    exact ⟨rfl, rfl, rfl⟩
  fail target message := still stable fun u y u' run => by
    obtain ⟨-, rfl⟩ := Prod.mk.inj (Option.some.inj run)
    exact ⟨rfl, rfl, rfl⟩
  disk _ := still stable fun u y u' run => by
    rw [Work.onDisk_run] at run
    obtain ⟨-, rfl⟩ := Prod.mk.inj (Option.some.inj run)
    exact ⟨rfl, rfl, rfl⟩
  run _ arguments := still stable fun u y u' run => by
    obtain ⟨-, rfl⟩ := Prod.mk.inj (Option.some.inj run)
    exact ⟨rfl, rfl, rfl⟩
  attach _ _ tags := still stable fun u y u' run => by
    obtain ⟨-, rfl⟩ := Prod.mk.inj (Option.some.inj run)
    exact ⟨rfl, rfl, rfl⟩
  keep key failure := still stable fun u y u' run => by
    obtain ⟨-, rfl⟩ := Prod.mk.inj (Option.some.inj run)
    exact ⟨rfl, rfl, rfl⟩

theorem final (p : Project) (q : Path) :
    Final p q (fun _ => Agree I) fun m m' => ∀ u, I u → m' u = m u where
  bind := bind_same
  done _ _ _ := rfl
  fail _ _ _ := rfl
  copy _ _ _ _ _ := rfl

end Agree

namespace Nested

variable {c c' : Call}

/-- A nested call is for a target that is asked for, in a world with all that such calls keep. -/
theorem step {I : World LocalState → Prop} (stable : Stable I) (h : Nested p c c')
    (start : I (entered c.target c.world))
    (keeps : ∀ r, Asks p c.target r → ∀ u, I u → ∀ o u',
      buildWithin p c'.depth r u = some (o, u') → I u') :
    Asks p c.target c'.target ∧ I c'.world := by
  refine h.requests.holds (C := fun r u => Asks p c.target r ∧ I u) fun build' same => ?_
  refine (Agree.parallel stable p c.target).final_tryRules (Agree.final p c.target) ?_ rules none _ start
  exact fun r asks => ⟨fun u hu => same r u ⟨asks, hu⟩, keeps r asks⟩

theorem asks (h : Nested p c c') : Asks p c.target c'.target :=
  (h.step (I := fun _ => True) (fun _ _ _ _ _ _ => trivial) trivial fun _ _ _ _ _ _ _ => trivial).1

/-- While a nested call is made, the target around it is being built, as are those around that. -/
theorem inProgress (h : Nested p c c') :
    c'.world.own.inProgress = c.target :: c.world.own.inProgress := by
  refine (h.step (I := fun u => u.own.inProgress = c.target :: c.world.own.inProgress)
    (fun _ _ _ same _ hu => same.trans hu) rfl fun r _ u hu o u' run => ?_).2
  exact (Calls.grown (.nestedTarget run)).inProgress.trans hu

/-- A nested call comes to an outcome. -/
theorem ends (h : Nested p c c') : ∃ o v, c'.result p = some (o, v) := by
  obtain ⟨⟨o, v⟩, run⟩ := Option.ne_none_iff_exists'.1 h.requests.ne_none
  exact ⟨o, v, run⟩

end Nested

/-! ### Calls at any depth -/

variable {c c' : Call}

theorem leadsTo_of_nested (h : ReflTransGen (Nested p) c c') : LeadsTo p c.target c'.target := by
  induction h with
  | refl => exact .refl
  | tail _ nested ih => exact ih.tail nested.asks

/-- What is being built where a call is made is still being built at the calls inside it. -/
theorem inProgress_of_nested (h : ReflTransGen (Nested p) c c') {q : Path}
    (busy : listsPath q c.world.own.inProgress = true) :
    listsPath q c'.world.own.inProgress = true := by
  induction h with
  | refl => exact busy
  | tail _ nested ih => rw [nested.inProgress, listsPath_cons, ih, Bool.or_true]

/-- A target is not entered while it is being built. -/
theorem not_same_of_nested (h : TransGen (Nested p) c c') (enters : c'.Enters) :
    c.target.same c'.target = false := by
  obtain ⟨c₁, first, rest⟩ := TransGen.head'_iff.1 h
  rw [Bool.eq_false_iff]
  intro same
  have busy : listsPath c'.target c₁.world.own.inProgress = true := by
    rw [first.inProgress, listsPath_cons, same, Bool.true_or]
  have idle := enters.idle
  rw [inProgress_of_nested rest busy] at idle
  exact Bool.noConfusion idle

/-- A request ends.  It leads to finitely many targets, and comes to outcomes, one for each batch; so
does every call that is made on the way, which is for one of these targets, and no target is entered again
inside a call that builds it.  The bound on the depth of calls is never met: every higher one leads to
the same. -/
theorem engine_ends (supplied : p.metadata.Supplied) (batches : List (List Path))
    (w : World LocalState) :
    {r | ∃ q ∈ batches.flatten, LeadsTo p q r}.Finite ∧
    (∃ outcomes w', (engine p).build batches w = some (outcomes, w') ∧
      outcomes.length = batches.length ∧ w'.own.inProgress = w.own.inProgress ∧
      ∀ n, (∀ q ∈ batches.flatten, depth p q ≤ n) →
        (engineOf p (buildWithin p n)).build batches w = some (outcomes, w')) ∧
    ∀ q ∈ batches.flatten, ∀ n v c, ReflTransGen (Nested p) ⟨n, q, v⟩ c → LeadsTo p q c.target ∧
      ∀ c', TransGen (Nested p) c c' → (∃ o v', c'.result p = some (o, v')) ∧
        (c'.Enters → c.target.same c'.target = false) := by
  have reaches := supplied.reaches
  refine ⟨?_, ?_, fun q _ n v c nested => ?_⟩
  · have request : {q | q ∈ batches.flatten}.Finite := List.finite_toSet _
    refine (request.biUnion fun q _ => finite_leadsTo reaches q).subset ?_
    rintro r ⟨q, hq, leads⟩
    exact Set.mem_biUnion (x := q) hq leads
  · have keeps : Keeps (fun _ => True) w.own.inProgress ((engine p).build batches) :=
      keeps_build fun _ _ q _ =>
        build_keeps reaches (fun _ _ _ _ _ _ _ _ => trivial) w.own.inProgress q
    obtain ⟨outcomes, w', run, -, inProgress⟩ := keeps w trivial rfl
    refine ⟨outcomes, w', run, length_of_build run, inProgress, fun n deep => ?_⟩
    exact engine_build_mono (fun targets ht q hq =>
      deep q (List.mem_flatten.2 ⟨targets, ht, hq⟩)) w _ run
  · refine ⟨leadsTo_of_nested nested, fun c' inner => ⟨?_, not_same_of_nested inner⟩⟩
    obtain ⟨c₁, -, last⟩ := TransGen.tail'_iff.1 inner
    exact last.ends

/-- Tables in which the digest of `lib/foo` covers the root module that is written from it. -/
def cyclicTables : Tables where
  namespaces := [⟨⟨"lib/foo"⟩, ["foo"], "foo", "Foo", ⟨"lib/foo"⟩, none⟩]
  closures := [(⟨"lib/foo"⟩, [⟨"lib/foo.ml"⟩])]

/-- A project of these tables. -/
def cyclicProject : Project :=
  ⟨⟨"/p"⟩, libConfig, cyclicTables.metadata, fun _ _ _ _ => .error .notFound⟩

set_option maxRecDepth 100000 in
/-- A digest and a root module that ask for each other are built to an end. -/
theorem engine_ends_cyclicProject :
    Asks cyclicProject ⟨"lib/foo.stamp"⟩ ⟨"lib/foo.ml"⟩ ∧
    Asks cyclicProject ⟨"lib/foo.ml"⟩ ⟨"lib/foo.stamp"⟩ ∧
    {r | ∃ q ∈ [[(⟨"lib/foo.stamp"⟩ : Path)]].flatten, LeadsTo cyclicProject q r}.Finite ∧
    ∃ outcomes w', (engine cyclicProject).build [[⟨"lib/foo.stamp"⟩]] (newWorld smallDisk) =
      some (outcomes, w') ∧ outcomes.length = 1 := by
  obtain ⟨finite, ⟨outcomes, w', run, length, -⟩, -⟩ :=
    engine_ends (p := cyclicProject) (.tables cyclicTables) [[⟨"lib/foo.stamp"⟩]] (newWorld smallDisk)
  refine ⟨?_, ?_, finite, outcomes, w', run, length⟩
  · have hs : Rule.stamp.product.stem? ⟨"lib/foo.stamp"⟩ = some "lib/foo" := by decide +kernel
    have hn : cyclicTables.metadata.namespaceOfRoot? ⟨"lib/foo"⟩ =
        some ⟨⟨"lib/foo"⟩, ["foo"], "foo", "Foo", ⟨"lib/foo"⟩, none⟩ := by decide +kernel
    exact .closure hs hn (by decide +kernel)
  · have hs : Rule.root.product.stem? ⟨"lib/foo.ml"⟩ = some "lib/foo" := by decide +kernel
    exact .dependency (d := .ending ".stamp") hs (by decide)

end Local
end FlatModules
