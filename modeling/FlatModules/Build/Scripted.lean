import FlatModules.Build.Local

/-!
# Build — the scripted engine

An engine that builds nothing: it answers from a script and keeps what it was asked, so that a rule
can be watched by itself.
-/

namespace FlatModules

/-- What the scripted engine answers. -/
structure Script where
  buildDir : Path
  /-- Answers by target: the path built, or the wording of a failure. -/
  replies : List (String × Except String Path)
  /-- Whether every request is left without any outcome. -/
  silent : Bool := false

/-- What the scripted engine keeps. -/
structure ScriptState where
  /-- The requests so far, in order. -/
  requests : List (List (List Path)) := []
  attached : List (Path × Tags) := []

namespace Script

/-- The answer for one target. -/
def reply (s : Script) (target : Path) : Work ScriptState Outcome := do
  match s.replies.lookup target.text with
  | some (.ok path) => return .ok path
  | some (.error message) => return .error (← Work.newFailure target message)
  | none => return .error (← Work.newFailure target "no rule")

/-- The engine that answers from a script. -/
def engine (s : Script) : Engine ScriptState where
  buildDir := s.buildDir
  build batches := do
    Work.modifyOwn fun own => { own with requests := own.requests ++ [batches] }
    if s.silent then return [] else batches.mapM (firstBuilt s.reply)
  tags path := return attachedTags path (← Work.own).attached
  attach path tags :=
    Work.modifyOwn fun own => { own with attached := attachTags path tags own.attached }

end Script
end FlatModules
