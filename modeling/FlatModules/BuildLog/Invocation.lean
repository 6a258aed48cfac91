import FlatModules.Naming
import FlatModules.Text.Blank

/-!
# Build log — compiler invocations

A line of a build log counts as a compilation if it holds, in this order and with white space
between, the name of a compiler at the end of a path or by itself, the flag `-c`, and a source file.
Of several ways to read a line so, the one with the leftmost compiler counts, then the one with the
rightmost flag, then the one with the rightmost source.
-/

namespace FlatModules.BuildLog

open Text

/-- A compilation that a log line records. -/
structure Invocation where
  compiler : String
  source : Path
deriving DecidableEq

/-- The module that was compiled. -/
def Invocation.moduleName (i : Invocation) : String :=
  Naming.moduleOfPath i.source

/-- The compiler names known when none are given. -/
def defaultCompilers : List String := ["ocamlc", "ocamlopt", "ocamlc.opt", "ocamlopt.opt"]

/-- Whether a compiler's name may stand right after `c`. -/
def isBoundary (c : Char) : Bool :=
  isBlank c || c == '/'

/-- What follows each character that `mark` picks out, from left to right. -/
def afterEach {α : Type} (mark : α → Bool) : List α → List (List α)
  | [] => []
  | a :: rest => if mark a then rest :: afterEach mark rest else afterEach mark rest

/-- What has been read of a line from its end on: the rest itself, and its characters, each white
space with what is found after it. -/
structure Ahead (α β : Type) where
  rest : List α := []
  marked : List (Char × Option β) := []
  /-- What is found after white space of the rest, up to the end of the line. -/
  found : Option β := none

/-- Reads one more character.  After white space, the last word that `read` accepts counts, be it
the next one or one after further white space. -/
def Ahead.extend {α β : Type} (char : α → Char) (read : List α → Option β) (a : α)
    (s : Ahead α β) : Ahead α β :=
  let c := char a
  if isBlank c then
    let word := read s.rest
    let found := s.found.or word
    ⟨a :: s.rest, (c, found) :: s.marked, if c = '\n' then word else found⟩
  else ⟨a :: s.rest, (c, none) :: s.marked, s.found⟩

/-- Marks each white space of a line with what `read` finds last after it. -/
def markBlanks {α β : Type} (char : α → Char) (read : List α → Option β) (line : List α) :
    List (Char × Option β) :=
  (line.foldr (Ahead.extend char read) {}).marked

/-- Whether a character ends a source file's name. -/
def endsName (c : Char) : Bool :=
  isBlank c || c == '\'' || c == '"'

/-- What an implementation's file name ends in. -/
def sourceEnding : List Char := ['.', 'm', 'l']

/-- The source file whose name starts here. -/
def source? (rest : List Char) : Option (List Char) :=
  let name := rest.takeWhile (!endsName ·)
  match dropTail? sourceEnding name with
  | some (_ :: _) => some name
  | _ => none

/-- The source file after a flag that starts here. -/
def sourceAfterFlag? : List (Char × Option (List Char)) → Option (List Char)
  | ('-', _) :: ('c', _) :: (_, found) :: _ => found
  | _ => none

/-- Marks each white space of a line with the source file of the last flag after it. -/
def markFlags (line : List Char) : List (Char × Option (List Char)) :=
  markBlanks (·.1) sourceAfterFlag? (markBlanks id source? line)

/-- The source file after the compiler's name `compiler` that starts here. -/
def sourceAfterCompiler? : (compiler : List Char) → List (Char × Option (List Char)) →
    Option (List Char)
  | [], (_, found) :: _ => found
  | c :: compiler, (d, _) :: rest => if c = d then sourceAfterCompiler? compiler rest else none
  | _, [] => none

/-- The compilation that a line records, with compilers known by these names.  With no names, any
word boundary will do for one. -/
def Invocation.parse? (compilers : List String) (line : String) : Option Invocation :=
  let names := if compilers = [] then [""] else compilers
  let marked := markFlags line.toList
  (marked :: afterEach (isBoundary ·.1) marked).findSome? fun start =>
    names.findSome? fun compiler =>
      (sourceAfterCompiler? compiler.toList start).map fun source =>
        ⟨compiler, ⟨String.ofList source⟩⟩

/-- The names that were not seen before, each at its first occurrence. -/
def firstSeen (seen : List String) : List String → List String
  | [] => []
  | name :: names =>
    if name ∈ seen then firstSeen seen names else name :: firstSeen (name :: seen) names

/-- The modules that a log records compilations of, in the order of the first of each. -/
def scan (compilers : List String) (log : String) : List String :=
  let invocations := (lines log.toList).filterMap (Invocation.parse? compilers <| String.ofList ·)
  firstSeen [] (invocations.map Invocation.moduleName)

end FlatModules.BuildLog
