import FlatModules.Build.Failure
import FlatModules.Disk.Files
import FlatModules.Tags

/-!
# Build — the engine that rules work for

A rule changes the world only through `Work`, and asks for other targets only through an `Engine`.
The state that an engine keeps for itself is a parameter of both.
-/

namespace FlatModules

/-- All that a build changes. -/
structure World (σ : Type) where
  disk : Disk
  /-- The argument lists of the analyzer runs so far, in order. -/
  runs : List (List String)
  /-- The number of the next new failure. -/
  nextFailure : Nat
  /-- The failures that stand for rules that do not apply. -/
  failures : FailureTable
  /-- What the engine keeps for itself. -/
  own : σ

/-- A step of a build; without a result if the depth that it may reach is exhausted. -/
abbrev Work (σ : Type) := StateT (World σ) Option

namespace Work

variable {σ : Type}

/-- A step whose depth is exhausted. -/
def exhausted {α : Type} : Work σ α := fun _ => none

/-- Makes a new failure. -/
def newFailure (target : Path) (message : String) : Work σ Failure := do
  let w ← get
  set { w with nextFailure := w.nextFailure + 1 }
  return ⟨w.nextFailure, target, message⟩

/-- A step on the disk. -/
def onDisk {α : Type} (step : DiskM α) : Work σ (Except DiskError α) := do
  let w ← get
  let (result, disk) := step.run.run w.disk
  set { w with disk := disk }
  return result

/-- Notes a run of the analyzer, if there was one. -/
def noteRun (arguments : Option (List String)) : Work σ Unit :=
  modify fun w => { w with runs := w.runs ++ arguments.toList }

/-- Reads what the engine keeps for itself. -/
def own : Work σ σ := do
  return (← get).own

/-- Changes what the engine keeps for itself. -/
def modifyOwn (f : σ → σ) : Work σ Unit :=
  modify fun w => { w with own := f w.own }

end Work

/-- What builds targets for rules. -/
structure Engine (σ : Type) where
  /-- Where targets are built. -/
  buildDir : Path
  /-- Builds batches; of the alternatives in a batch the first that can be built counts.  There is
  an outcome for each batch, in order. -/
  build : List (List Path) → Work σ (List Outcome)
  /-- The tags of a path. -/
  tags : Path → Work σ Tags
  /-- Attaches tags to a path. -/
  attach : Path → Tags → Work σ Unit

/-- Signals that a rule does not apply to `target`.  The first time, the engine is asked for the
target that stands for this, and its failure is kept; from then on the kept failure is the
answer. -/
def Engine.signal {σ : Type} (engine : Engine σ) (target : Path) (message : String) :
    Work σ Failure := do
  let key := signalKey target message
  match (← get).failures.get? key with
  | some failure => return failure
  | none =>
    let outcomes ← engine.build [[⟨key⟩]]
    let failure ← match outcomes.head? with
      | some (.error failure) => pure failure
      | _ => Work.newFailure ⟨key⟩ message
    let w ← get
    let failures := w.failures.insert key failure
    set { w with failures := failures }
    return (failures.get? key).getD failure

end FlatModules
