import FlatModules.Path.Basic

/-!
# Command line — arguments

What a list of arguments asks for.  Options may stand anywhere on their level: before the command,
or after it.  An option given twice on one level is an error.
-/

namespace FlatModules.Cli

open Text

/-- What a command does. -/
inductive Command where
  /-- Lists namespaces. -/
  | namespaces (json : Bool)
  /-- Builds targets. -/
  | build (targets : List Path)
  /-- Shows the dependencies of a file. -/
  | depends (file : Path)
  /-- Puts library members in the order of a log. -/
  | order (log : Path) (members : List String)
deriving DecidableEq

/-- What a command line asks for. -/
structure Request where
  verbose : Bool
  project : Option Path
  command : Command
deriving DecidableEq

/-- Where an argument stands: before a command, or after the one named. -/
inductive Level where
  | outer
  | namespaces
  | build
  | depends
  | order
deriving DecidableEq

/-- The level that a command's name opens. -/
def Level.ofName? : String → Option Level
  | "namespaces" => some .namespaces
  | "build" => some .build
  | "depends" => some .depends
  | "order" => some .order
  | _ => none

/-- An option. -/
inductive Flag where
  | verbose
  | project
  | json
  | log
  | help
  | version
deriving DecidableEq

/-- Whether an option takes a value. -/
def Flag.takesValue : Flag → Bool
  | .project => true
  | .log => true
  | _ => false

/-- Whether an option is known on a level. -/
def Flag.isKnownOn (level : Level) : Flag → Bool
  | .json => level = .namespaces
  | .log => level = .order
  | .version => level = .outer
  | _ => true

/-- The option that a long name means. -/
def Flag.ofName? (level : Level) (name : String) : Option Flag :=
  let flag : Option Flag := match name with
    | "verbose" => some .verbose
    | "project" => some .project
    | "json" => some .json
    | "log" => some .log
    | "help" => some .help
    | "version" => some .version
    | _ => none
  flag.filter (·.isKnownOn level)

/-- The option that a letter means. -/
def Flag.ofLetter? (level : Level) (letter : Char) : Option Flag :=
  let flag : Option Flag := match letter with
    | 'v' => some .verbose
    | 'p' => some .project
    | 'h' => some .help
    | 'V' => some .version
    | _ => none
  flag.filter (·.isKnownOn level)

/-- Whether an argument that is no option is accepted, after `earlier` others on its level. -/
def Level.accepts (level : Level) (earlier : Nat) (argument : String) : Bool :=
  match level with
  | .build => !argument.isEmpty
  | .depends => earlier = 0 && !argument.isEmpty
  | .order => true
  | _ => false

/-- The options and other arguments of a level. -/
structure Given where
  verbose : Bool := false
  json : Bool := false
  project : Option Path := none
  log : Option Path := none
  positional : List String := []

/-- What the arguments of a level come to. -/
inductive Reading where
  | complete (given : Given)
  /-- A command's name, with what follows it; what was given before, if the value right before the
  name was good. -/
  | command (given : Option Given) (name : String) (rest : List String)
  | help
  | version
  | misused

/-- A path given as an argument; it may not be empty. -/
def path? (text : String) : Option Path :=
  if text.isEmpty then none else some ⟨text⟩

/-- Sets an option without value that was not set before. -/
def Given.set? (g : Given) : Flag → Option Given
  | .verbose => if g.verbose then none else some { g with verbose := true }
  | .json => if g.json then none else some { g with json := true }
  | _ => none

/-- Gives a value to an option that had none before. -/
def Given.setValue? (g : Given) (flag : Flag) (value : String) : Option Given :=
  match flag with
  | .project => if g.project.isSome then none else
      (path? value).map fun p => { g with project := some p }
  | .log => if g.log.isSome then none else (path? value).map fun p => { g with log := some p }
  | _ => none

/-- What one argument comes to. -/
inductive Word where
  | taken (given : Given)
  /-- The option's value is the next argument. -/
  | awaits (given : Given) (flag : Flag)
  | help
  | version
  | misused

/-- Sets an option without value. -/
def setFlag (g : Given) (flag : Flag) : Word :=
  match flag with
  | .help => .help
  | .version => .version
  | _ =>
    match g.set? flag with
    | some g => .taken g
    | none => .misused

/-- Gives an option a value. -/
def setOption (g : Given) (flag : Flag) (value : List Char) : Word :=
  match g.setValue? flag (String.ofList value) with
  | some g => .taken g
  | none => .misused

/-- Reads what follows two dashes. -/
def readLong (level : Level) (g : Given) (text : List Char) : Word :=
  let (name, value) := match cutOnce '=' text with
    | some (name, value) => (name, some value)
    | none => (text, none)
  match Flag.ofName? level (String.ofList name) with
  | none => .misused
  | some flag =>
    match flag.takesValue, value with
    | true, some value => setOption g flag value
    | true, none => .awaits g flag
    | false, some _ => .misused
    | false, none => setFlag g flag

/-- Reads the letters that follow one dash. -/
def readLetters (level : Level) (g : Given) : List Char → Word
  | [] => .taken g
  | letter :: rest =>
    match Flag.ofLetter? level letter with
    | none => .misused
    | some flag =>
      if flag.takesValue then
        match rest with
        | [] => .awaits g flag
        | '=' :: value => setOption g flag value
        | value => setOption g flag value
      else
        match setFlag g flag with
        | .taken g => readLetters level g rest
        | other => other

/-- Reads an argument that begins with a dash and is more than that; none for other arguments. -/
def readOption? (level : Level) (g : Given) (argument : String) : Option Word :=
  match argument.toList with
  | '-' :: '-' :: text => some (readLong level g text)
  | '-' :: letter :: rest => some (readLetters level g (letter :: rest))
  | _ => none

/-- Adds an argument that is no option. -/
def Given.add? (level : Level) (g : Given) (argument : String) : Option Given :=
  if level.accepts g.positional.length argument then
    some { g with positional := g.positional ++ [argument] }
  else none

/-- What follows a value that is no good.  It is looked at with the next argument of its level, so
a command that comes first has its say. -/
def readSpoiled (level : Level) : List String → Reading
  | [] => .misused
  | argument :: rest =>
    if level = .outer ∧ (readOption? level {} argument).isNone then .command none argument rest
    else .misused

/-- Reads the arguments of a level.  After `--` no argument is an option. -/
def readLevel (level : Level) : Given → List String → Reading
  | g, [] => .complete g
  | g, "--" :: rest =>
    match rest.foldlM (Given.add? level) g with
    | some g => .complete g
    | none => .misused
  | g, argument :: rest =>
    match readOption? level g argument with
    | none =>
      if level = .outer then .command g argument rest
      else
        match g.add? level argument with
        | some g => readLevel level g rest
        | none => .misused
    | some (.taken g) => readLevel level g rest
    | some .help => .help
    | some .version => .version
    | some .misused => .misused
    | some (.awaits g flag) =>
      match rest with
      | [] => .misused
      | value :: rest =>
        if (readOption? level g value).isSome then .misused
        else
          match g.setValue? flag value with
          | some g => readLevel level g rest
          | none => readSpoiled level rest

/-- The command that the arguments of its level give. -/
def command? (level : Level) (g : Given) : Option Command :=
  match level, g.positional with
  | .namespaces, [] => some (.namespaces g.json)
  | .build, target :: rest => some (.build ((target :: rest).map Path.mk))
  | .depends, [file] => some (.depends ⟨file⟩)
  | .order, member :: rest => g.log.map fun log => .order log (member :: rest)
  | _, _ => none

/-- What a command line comes to. -/
inductive Invocation where
  | run (request : Request)
  /-- Help on a level. -/
  | help (level : Level)
  /-- Help on asking for help. -/
  | helpOnHelp
  | version
  | misused

/-- Reads what follows the command `help`. -/
def readHelp : List String → Invocation
  | [] => .help .outer
  | ["help"] => .helpOnHelp
  | [name] =>
    match Level.ofName? name with
    | some level => .help level
    | none => .misused
  | _ => .misused

/-- Reads what follows a command's name.  What an option says after the command counts more than
what it says before. -/
def readCommand (outer : Option Given) (name : String) (rest : List String) : Invocation :=
  match Level.ofName? name with
  | none => .misused
  | some level =>
    match readLevel level {} rest with
    | .complete g =>
      match outer, command? level g with
      | some outer, some command =>
        .run ⟨outer.verbose || g.verbose, g.project.or outer.project, command⟩
      | _, _ => .misused
    | .help => .help level
    | _ => .misused

/-- Reads a command line. -/
def Invocation.read (arguments : List String) : Invocation :=
  match readLevel .outer {} arguments with
  | .command _ "help" rest => readHelp rest
  | .command outer name rest => readCommand outer name rest
  | .help => .help .outer
  | .version => .version
  | _ => .misused

end FlatModules.Cli
