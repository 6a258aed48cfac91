import FlatModules.Build.Apply

/-!
# Build — the local engine

An engine that builds into a directory of the project.  It tries the rules in order, and copies the
project's own file where no rule builds a target.  Each outcome is kept; a target that is met again
while it is being built fails.
-/

namespace FlatModules

/-- What the local engine works on. -/
structure Project where
  root : Path
  config : Config
  metadata : Metadata
  programs : Analyzer.Programs

/-- Where the targets of a project are built. -/
def Project.buildDir (p : Project) : Path := p.root / p.config.buildDir

/-- What the local engine keeps. -/
structure LocalState where
  outcomes : List (Path × Outcome) := []
  inProgress : List Path := []
  /-- Targets that failed for a reason of their own. -/
  hard : List Path := []
  attached : List (Path × Tags) := []

/-- The value under a path, however spelled. -/
def lookupPath? {α : Type} (path : Path) : List (Path × α) → Option α
  | [] => none
  | (p, value) :: rest => if p.same path then some value else lookupPath? path rest

/-- Whether a path is listed, however spelled. -/
def listsPath (path : Path) (paths : List Path) : Bool :=
  paths.any (·.same path)

/-- Attaches tags to a path, beside those attached before. -/
def attachTags (path : Path) (tags : Tags) : List (Path × Tags) → List (Path × Tags)
  | [] => [(path, tags)]
  | (p, before) :: rest =>
    if p.same path then (p, before.union tags) :: rest
    else (p, before) :: attachTags path tags rest

/-- The tags attached to a path. -/
def attachedTags (path : Path) (attached : List (Path × Tags)) : Tags :=
  (lookupPath? path attached).getD Tags.none

/-- Tries alternatives in turn until one is built. -/
def firstBuilt {σ : Type} (build : Path → Work σ Outcome) : List Path → Work σ Outcome
  | [] => return .error (← Work.newFailure Path.empty "empty batch")
  | [target] => build target
  | target :: rest => do
    match ← build target with
    | .ok path => return .ok path
    | .error _ => firstBuilt build rest

namespace Local

/-- The rules of the local engine, in the order in which they are tried. -/
def rules : List Rule := Rule.ranked (Rule.registry ++ [.plainDepends])

/-- A step of the local engine. -/
abbrev Step := Work LocalState

/-- The engine that builds targets by `build`. -/
def engineOf (p : Project) (build : Path → Step Outcome) : Engine LocalState where
  buildDir := p.buildDir
  build batches := batches.mapM (firstBuilt build)
  tags path := do
    let configured := (p.config.tags.lookup path.text).getD []
    return (Tags.ofList configured).union (attachedTags path (← Work.own).attached)
  attach path tags :=
    Work.modifyOwn fun s => { s with attached := attachTags path tags s.attached }

/-- Notes that a target failed for a reason of its own. -/
def markHard (target : Path) : Step Unit :=
  Work.modifyOwn fun s => { s with hard := target :: s.hard }

/-- Whether the target of a failure failed for a reason of its own. -/
def isHard (failure : Failure) : Step Bool := do
  return listsPath failure.target (← Work.own).hard

/-- Copies the project's own file at `target` into the build directory. -/
def copySource (p : Project) (target : Path) : Step Outcome := do
  let source := p.root / target
  let destination := p.buildDir / target
  if (← get).disk.isFile source then
    let copied ← Work.onDisk do
      DiskM.makeParents destination
      DiskM.copy source destination
    match copied with
    | .ok () => return .ok target
    | .error e =>
      markHard target
      return .error (← Work.newFailure target ("failed to copy source: " ++ e.message))
  else
    return .error (← Work.newFailure target "no rule to build target")

/-- The first failure among outcomes. -/
def firstError? : List Outcome → Option Failure
  | [] => none
  | .error failure :: _ => some failure
  | .ok _ :: rest => firstError? rest

/-- Tries the given rules for a target in order, and copies the project's file if none builds it.
`blocked` is the first failure so far of a dependency that failed for a reason of its own; it is
the outcome if nothing builds the target. -/
def tryRules (p : Project) (engine : Engine LocalState) (target : Path) :
    List Rule → (blocked : Option Failure) → Step Outcome
  | [], blocked => do
    match ← copySource p target, blocked with
    | .error _, some failure => return .error failure
    | outcome, _ => return outcome
  | rule :: rest, blocked => do
    match rule.product.stem? target with
    | none => tryRules p engine target rest blocked
    | some stem =>
      let outcomes ← engine.build (rule.dependencies.map fun d => [d.fill stem])
      match firstError? outcomes with
      | some failure =>
        if blocked.isNone ∧ (← isHard failure) then
          tryRules p engine target rest (some failure)
        else
          tryRules p engine target rest blocked
      | none =>
        let context : Context LocalState := ⟨engine, p.metadata, p.config, p.programs⟩
        match ← engine.dispatch target (rule.apply context target) with
        | .ok path => return .ok path
        | .error (.inapplicable _) => tryRules p engine target rest blocked
        | .error (.rule e) =>
          markHard target
          return .error (← Work.newFailure target (rule.name ++ ": " ++ e.message))

/-- Builds a target by `produce` unless its outcome is known or it is being built. -/
def once (target : Path) (produce : Step Outcome) : Step Outcome := do
  match lookupPath? target (← Work.own).outcomes with
  | some outcome => return outcome
  | none =>
    if listsPath target (← Work.own).inProgress then
      return .error (← Work.newFailure target "dependency cycle")
    else
      Work.modifyOwn fun s => { s with inProgress := target :: s.inProgress }
      let outcome ← produce
      Work.modifyOwn fun s => { s with
        inProgress := s.inProgress.filter (!·.same target)
        outcomes := (target, outcome) :: s.outcomes }
      return outcome

/-- Builds a target, with builds nested at most `depth` deep. -/
def buildWithin (p : Project) : (depth : Nat) → Path → Step Outcome
  | 0, _ => Work.exhausted
  | depth + 1, target =>
    once target (tryRules p (engineOf p (buildWithin p depth)) target rules none)

/-- How deep builds can be nested below a target.  A nested target is one that the metadata leads
to, or it is derived from the one around it by a declared dependency or a signal; such a chain of
derived targets is shorter than the text that it starts from, but for a few steps. -/
def depth (p : Project) (target : Path) : Nat :=
  let longest := (p.metadata.reach.map (·.text.length)).foldl max target.text.length
  (p.metadata.reach.length + 2) * (longest + 4)

/-- Builds a target. -/
def build (p : Project) (target : Path) : Step Outcome :=
  buildWithin p (depth p target) target

/-- The local engine on a project. -/
def engine (p : Project) : Engine LocalState :=
  engineOf p (build p)

end Local
end FlatModules
