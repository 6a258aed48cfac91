import FlatModules.Cli.Run

/-!
# Command line — the program

Runs a command line on what lies below the current directory, and puts back there what the command
changed.  No other program is started, so an analyzer is never found; and a link that a command
makes is stored as one more name of the file that it leads to.
-/

namespace FlatModules.Cli

/-- Adds an entry of a directory to a disk, with all that is in it. -/
partial def readEntry (d : Disk) (found : IO.FS.DirEntry) : IO Disk := do
  let place := Disk.steps found.path.toString
  match (← found.path.symlinkMetadata).type with
  | .dir =>
    let mut d := d.put place .dir
    for inner in ← found.path.readDir do
      d ← readEntry d inner
    return d
  | .file => return d.put place (.file (← IO.FS.readBinFile found.path))
  | .symlink =>
    match ← (IO.FS.realPath found.path).toBaseIO with
    | .ok text => return d.put place (.link text.toString)
    | .error _ => return d
  | .other => return d

/-- The current directory, and the disk with it, what is above it and all below it. -/
def readDisk : IO (Path × Disk) := do
  let here ← IO.currentDir
  let place := Disk.steps here.toString
  let above := (List.range place.length).foldl (fun d n => d.put (place.take (n + 1)) .dir) .blank
  let d ← (← here.readDir).foldlM readEntry above
  return (⟨here.toString⟩, d)

/-- Puts back an entry of a disk. -/
def writeEntry (d : Disk) (place : Place) (entry : Entry) : IO Unit := do
  let path := placePath place
  match entry with
  | .dir => IO.FS.createDirAll path.text
  | .file bytes => IO.FS.writeBinFile path.text bytes
  | .link _ =>
    match d.resolve path with
    | .ok origin =>
      let _ ← (IO.FS.removeFile path.text).toBaseIO
      IO.FS.hardLink (placePath origin).text path.text
    | .error _ => pure ()

/-- Puts back what is not as it was before: directories and files in the order in which they were
made, then links. -/
def writeDisk (before d : Disk) : IO Unit := do
  let changed := d.entries.reverse.filter fun (place, entry) => before.entryAt? place ≠ some entry
  let (links, others) := changed.partition fun (_, entry) => entry matches .link _
  for (place, entry) in others ++ links do
    writeEntry d place entry

/-- What the environment sets. -/
def readOverrides : IO Overrides := do
  let names := ["NSBUILD_BUILD_DIR", "NSBUILD_BUILD_LOG", "NSBUILD_ANALYZER"]
  let values ← names.mapM fun name => do return (name, ← IO.getEnv name)
  return Overrides.ofEnvironment fun name => (values.lookup name).join

/-- Prints a piece of output. -/
def printOutput (milliseconds : Nat) : Output → IO Unit
  | .out text => IO.print text
  | .err text => IO.eprint text
  | .elapsed => IO.print (elapsedText milliseconds)

/-- Runs the command line that the arguments are, and answers with its exit code. -/
def runProgram (arguments : List String) : IO UInt32 := do
  let (directory, d) ← readDisk
  let overrides ← readOverrides
  let programs : Analyzer.Programs := fun _ _ _ _ => .error .notFound
  let start ← IO.monoMsNow
  match Cli.run { directory, overrides, programs } d arguments with
  | none => return 101
  | some result =>
    writeDisk d result.disk
    let stop ← IO.monoMsNow
    for piece in result.output do
      printOutput (stop - start) piece
    return result.code.toUInt32

end FlatModules.Cli

/-- The program. -/
def main (arguments : List String) : IO UInt32 :=
  FlatModules.Cli.runProgram arguments
