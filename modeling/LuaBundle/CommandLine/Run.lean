import LuaBundle.CommandLine.LogFilter
import LuaBundle.Report.Console
import LuaBundle.Report.Json

/-!
# The command

From arguments, variables and files to what is printed, the exit code and the files afterwards. The
analysis is separate from what is made of it, so that it can be timed.
-/
namespace LuaBundle.CommandLine

def programName : String := "luapack"

def versionText : String := programName ++ " 0.3.0\n"

def helpText : String := String.intercalate "\n" [
  "Bundle a Lua entry file and every module it requires into one file",
  "",
  "Usage: luapack [OPTIONS] [ENTRY]",
  "",
  "Arguments:",
  "  [ENTRY]  Entry Lua file (may also come from the configuration file)",
  "",
  "Options:",
  "  -o, --output <OUTPUT>            Output file; with --analyze, where the JSON report is written",
  "  -c, --config <CONFIG>            Configuration file (.json or .toml)",
  "      --sourceroot <DIR>           Directory first-party modules resolve against",
  "      --minify[=<BOOL>]            Minify the bundle",
  "      --rename-variables[=<BOOL>]  Replace local and global identifiers with random names",
  "      --ascii[=<BOOL>]             Encode the bundle as byte codes loaded at runtime",
  "      --obfuscation <TOOL>         Obfuscation tool: internal or none",
  "      --analyze                    Only analyze dependencies, do not write a bundle",
  "      --ignore-missing             Treat unresolved modules as warnings",
  "      --env <VARS>                 Comma separated environment variables holding extra search " ++
    "paths; an empty value disables them",
  "  -v, --verbose                    Verbose report and debug logging",
  "      --log-level <LEVEL>          Log level: error, warn, info, debug or trace",
  "      --json                       Print the report as JSON",
  "  -h, --help                       Print help",
  "  -V, --version                    Print version",
  ""]

/-- What goes to the error stream. -/
inductive Notice where
  | usage (f : UsageFault)
  | failure (message : String)
  deriving DecidableEq, Repr

def Notice.text : Notice → String
  | usage f => s!"error: {f.message}\n"
  | failure message => s!"[ERROR {programName}] {message}\n"

structure Outcome where
  exitCode : UInt8
  output : String
  notice : Option Notice
  files : FileTree
  deriving DecidableEq, Repr

/-- An analysis, or a bundle, of which nothing has been printed yet. -/
structure Session where
  arguments : Arguments
  config : Config
  analysis : Analysis
  files : FileTree
  filter : LogFilter
  deriving DecidableEq, Repr

def Arguments.defaultFilter (a : Arguments) : LogFilter :=
  let level := a.logLevel.getD (if a.verbose then .debug else .info)
  ⟨LogFilter.ofDirectives [(none, level)], none⟩

/-- The variables that every run looks at. -/
def variableNames : List String :=
  ["HOME", "XDG_CONFIG_HOME", "LUAPACK_ENTRY", "LUAPACK_OUTPUT", "LUAPACK_SOURCE_ROOT",
    "LUAPACK_IGNORE_MISSING", "RUST_LOG"]

/-- A variable goes before the arguments. -/
def logFilter (lookup : String → Option String) (a : Arguments) : LogFilter :=
  ((lookup "RUST_LOG").map LogFilter.parse).getD a.defaultFilter

def logged? (filter : LogFilter) (message : String) : Option Notice :=
  if filter.letsThrough .error programName message then some (.failure message) else none

def stopped (t : FileTree) : Stop → Outcome
  | .usage f => ⟨2, "", some (.usage f), t⟩
  | .help => ⟨0, helpText, none, t⟩
  | .version => ⟨0, versionText, none, t⟩

def loadConfig (t : FileTree) (lookup : String → Option String) (a : Arguments) :
    Except Config.LoadFault Config :=
  (Config.load t lookup (Config.Sources.standard t lookup) a.direct).map fun config =>
    { config with analyzeOnly := a.analyze }

def begin (t : FileTree) (lookup : String → Option String) (draws : Obfuscation.Draws)
    (arguments : List String) : Except Outcome Session :=
  match parse arguments with
  | .error stop => .error (stopped t stop)
  | .ok a =>
    let filter := logFilter lookup a
    match loadConfig t lookup a with
    | .error f =>
      .error ⟨1, "", logged? filter ("Failed to load configuration: " ++ f.message), t⟩
    | .ok config =>
      let (analysis, files) := Bundle.run t lookup draws config
      .ok ⟨a, config, analysis, files, filter⟩

namespace Session

def report (s : Session) (duration : Float) : String :=
  if s.arguments.json then Report.json duration s.analysis
  else Report.console s.arguments.verbose duration s.analysis

def exitCode (s : Session) : UInt8 := if s.analysis.success then 0 else 1

/-- An analysis with an output file is written there too. -/
def saves (s : Session) : Bool := s.arguments.analyze && s.arguments.output.isSome

def finish (s : Session) (duration : Float) : Outcome :=
  if s.saves then
    match Report.save s.files s.config.output (Report.json duration s.analysis) with
    | (files, none) => ⟨s.exitCode, s.report duration, none, files⟩
    | (files, some fault) =>
      ⟨1, s.report duration,
        logged? s.filter (fault.context ++ ": " ++ fault.cause.message), files⟩
  else ⟨s.exitCode, s.report duration, none, s.files⟩

end Session

/-- The whole run, with the milliseconds that it is reported to take. -/
def run (t : FileTree) (lookup : String → Option String) (draws : Obfuscation.Draws)
    (duration : Float) (arguments : List String) : Outcome :=
  match begin t lookup draws arguments with
  | .error outcome => outcome
  | .ok session => session.finish duration

end LuaBundle.CommandLine
