import FlatModules.Cli.Arguments

/-!
# Command line — help
-/

namespace FlatModules.Cli

/-- The program's name. -/
def programName : String := "nsb"

/-- What `--version` shows. -/
def versionText : String := programName ++ " 0.1.0\n"

/-- The options that every level has. -/
def commonOptions : List String := [
  "  -v, --verbose            Enable verbose output",
  "  -p, --project <PROJECT>  Project root (default: current directory)",
  "  -h, --help               Print help"]

/-- The lines of a text. -/
def unlines (lines : List String) : String :=
  String.join (lines.map (· ++ "\n"))

/-- The help on a level. -/
def helpText : Level → String
  | .outer => unlines <| [
      "nsb - namespace rules for flat-module builds",
      "",
      "Usage: nsb [OPTIONS] <COMMAND>",
      "",
      "Commands:",
      "  namespaces  List namespaces and their members",
      "  build       Build targets with the local engine",
      "  depends     Print the resolved dependency line of a source file",
      "  order       Order library members by a build log",
      "  help        Print this message or the help of the given subcommand(s)",
      "",
      "Options:"] ++ commonOptions ++ [
      "  -V, --version            Print version"]
  | .namespaces => unlines <| [
      "List namespaces and their members",
      "",
      "Usage: nsb namespaces [OPTIONS]",
      "",
      "Options:",
      "      --json               Output as JSON"] ++ commonOptions
  | .build => unlines <| [
      "Build targets with the local engine",
      "",
      "Usage: nsb build [OPTIONS] <TARGETS>...",
      "",
      "Arguments:",
      "  <TARGETS>...  Targets, relative to the project root",
      "",
      "Options:"] ++ commonOptions
  | .depends => unlines <| [
      "Print the resolved dependency line of a source file",
      "",
      "Usage: nsb depends [OPTIONS] <FILE>",
      "",
      "Arguments:",
      "  <FILE>  Virtual or original path of a namespaced source file",
      "",
      "Options:"] ++ commonOptions
  | .order => unlines <| [
      "Order library members by a build log",
      "",
      "Usage: nsb order [OPTIONS] --log <LOG> <MEMBERS>...",
      "",
      "Arguments:",
      "  <MEMBERS>...  Member module paths, in declaration order",
      "",
      "Options:",
      "      --log <LOG>          Build log to read the compile order from"] ++ commonOptions

/-- The help on asking for help. -/
def helpOnHelpText : String := unlines [
  "Print this message or the help of the given subcommand(s)",
  "",
  "Usage: nsb help [COMMAND]...",
  "",
  "Arguments:",
  "  [COMMAND]...  Print help for the subcommand(s)"]

end FlatModules.Cli
