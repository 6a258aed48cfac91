import FlatModules.BuildLog.Invocation
import FlatModules.Disk.Files

/-!
# Build log — compile order

Reading the order of compilation from a log on disk, and putting the members of a library in it.
-/

namespace FlatModules.BuildLog

/-- Why a build log gives no order. -/
inductive LogError where
  | missing (path : Path)
  | unreadable (path : Path) (cause : DiskError)

/-- The wording of a log error. -/
def LogError.message : LogError → String
  | missing path =>
    "build log " ++ path.text ++ " does not exist; run the host engine with logging enabled"
  | unreadable path cause => "failed to read build log " ++ path.text ++ ": " ++ cause.message

/-- The modules compiled according to the log at `path`, in order. -/
def compileOrder (d : Disk) (compilers : List String) (path : Path) :
    Except LogError (List String) :=
  match d.readText path with
  | .ok log => .ok (scan compilers log)
  | .error .notFound => .error (.missing path)
  | .error e => .error (.unreadable path e)

/-- The index of the last occurrence of a name. -/
def lastIndex? (name : String) : List String → Option Nat
  | [] => none
  | n :: names =>
    match lastIndex? name names with
    | some i => some (i + 1)
    | none => if n = name then some 0 else none

/-- The position of a member in an order, by its module; a member that does not occur comes after
all that do. -/
def position (order : List String) (member : String) : Nat :=
  (lastIndex? (Naming.moduleOfPath ⟨member⟩) order).getD order.length

/-- The members by position; those with equal positions keep their order. -/
def orderMembers (members order : List String) : List String :=
  members.mergeSort fun a b => position order a ≤ position order b

/-- The text of a library's manifest: its members, a line for each. -/
def manifest (members order : List String) : String :=
  "\n".intercalate (orderMembers members order)

end FlatModules.BuildLog
