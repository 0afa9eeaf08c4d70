import LuaBundle.Bundle.Run
import LuaBundle.Decimal.Binary
import LuaBundle.Document.JsonText

/-!
# JSON reports

An analysis as a document. The members of every table come in a fixed order.
-/
namespace LuaBundle.Report

open Document (Value)

def pathValue (p : Path) : Value := .string p.text

def recordValue : ModuleRecord → Value
  | .resolved m =>
    .table [("state", .string "resolved"), ("id", .string m.id),
      ("moduleName", .string m.moduleName), ("filePath", pathValue m.filePath),
      ("isExternal", .bool m.isExternal), ("overrideApplied", .bool m.overrideApplied),
      ("analyzeDependencies", .bool m.analyzeDependencies)]
  | .ignored id => .table [("state", .string "ignored"), ("id", .string id)]
  | .missing id message overrideApplied =>
    .table [("state", .string "missing"), ("id", .string id), ("message", .string message),
      ("overrideApplied", .bool overrideApplied)]

def edgeValue (e : Edge) : Value :=
  .table [("id", .string e.id), ("moduleName", .string e.moduleName),
    ("filePath", .orNull pathValue e.filePath), ("isExternal", .bool e.isExternal),
    ("isMissing", .bool e.isMissing), ("overrideApplied", .bool e.overrideApplied)]

def missingValue (m : MissingRecord) : Value :=
  .table [("requiredBy", .string m.requiredBy), ("requireId", .string m.requireId),
    ("moduleName", .string m.moduleName), ("overrideApplied", .bool m.overrideApplied),
    ("fatal", .bool m.fatal), ("message", .string m.message), ("code", .string m.code)]

def failureValue (f : Failure) : Value :=
  let members := [("code", Value.string f.code), ("message", .string f.message)]
  match f with
  | .circularDependency path => .table (members ++ [("path", .strings path)])
  | _ => .table members

def metricsValue (m : Metrics) : Value :=
  .table [("moduleCount", .natural m.moduleCount), ("externalCount", .natural m.externalCount),
    ("missingCount", .natural m.missingCount), ("moduleSizeSum", .natural m.moduleSizeSum),
    ("estimatedBundleSize", .natural m.estimatedBundleSize),
    ("bundleSizeBytes", .natural m.bundleSizeBytes)]

def toolName : Obfuscation.Tool → String
  | .none => "none"
  | .internal => "internal"

def renameValue (r : Obfuscation.RenameSettings) : Value :=
  .table [("enabled", .bool r.enabled), ("min", .natural r.min), ("max", .natural r.max)]

def obfuscationValue (s : Obfuscation.Settings) : Value :=
  .table [("tool", .string (toolName s.tool)), ("minify", .bool s.minify),
    ("rename", renameValue s.rename), ("ascii", .bool s.ascii)]

def overrideValue (rule : OverrideRule) : Value :=
  .table [("path", .orNull pathValue rule.path), ("recursive", .orNull Value.bool rule.recursive)]

def configValue (config : Config) : Value :=
  .table [("entry", pathValue config.entry), ("output", pathValue config.output),
    ("sourceRoot", pathValue config.sourceRoot),
    ("modules", .table [("ignore", .strings config.modules.ignore),
      ("ignoreMissing", .bool config.modules.ignoreMissing),
      ("overrides", .table (config.modules.overrides.entries.map fun (id, rule) =>
        (id, overrideValue rule))),
      ("external", .table [("enabled", .bool config.modules.external.enabled),
        ("recursive", .bool config.modules.external.recursive),
        ("paths", .list (config.modules.external.paths.map pathValue)),
        ("env", .orNull Value.strings config.modules.external.env)])]),
    ("obfuscation", obfuscationValue config.obfuscation),
    ("analyzeOnly", .bool config.analyzeOnly)]

def rootsValue (r : ExternalRoots) : Value :=
  .table [("hasExplicitConfig", .bool r.explicit), ("names", .strings r.names),
    ("pathsByEnv", .table (r.byName.entries.map fun (name, paths) =>
      (name, .list (paths.map pathValue)))),
    ("allPaths", .list (r.all.map pathValue))]

def contextValue (config : Config) (roots : ExternalRoots) : Value :=
  .table [("rootDir", pathValue config.sourceRoot), ("entryPath", pathValue config.entry),
    ("outputPath", pathValue config.output), ("analyzeOnly", .bool config.analyzeOnly),
    ("ignoredPatterns", .strings config.modules.ignore),
    ("ignoreMissing", .bool config.modules.ignoreMissing),
    ("externals", .table [("enabled", .bool config.modules.external.enabled),
      ("recursive", .bool config.modules.external.recursive),
      ("paths", .list (config.modules.external.paths.map pathValue)),
      ("env", rootsValue roots)])]

def members (a : Analysis) : List (String × Value) :=
  [("entryModule", .orNull recordValue a.entryModule),
    ("modules", .list (a.modules.map recordValue)),
    ("externals", .list (a.externals.map recordValue)),
    ("dependencyGraph", .table (a.dependencyGraph.entries.map fun (name, edges) =>
      (name, .list (edges.map edgeValue)))),
    ("sortedModules", .list (a.sortedModules.map recordValue)),
    ("topologicalOrder", .strings a.topologicalOrder),
    ("cycles", .list (a.cycles.map Value.strings)),
    ("missing", .list (a.missing.map missingValue)),
    ("warnings", .strings a.warnings),
    ("errors", .list (a.errors.map failureValue)),
    ("metrics", metricsValue a.metrics),
    ("obfuscation", obfuscationValue a.config.obfuscation),
    ("context", contextValue a.config a.roots),
    ("success", .bool a.success)]

def durationValue (duration : Float) : Value :=
  let (mantissa, power) := Decimal.shortest duration
  .decimal mantissa power

/-- The report in pretty form, closed by a line break. The duration is in milliseconds. -/
def json (duration : Float) (a : Analysis) : String :=
  String.ofList (Document.JsonText.pretty 0
    (.table (members a ++ [("durationMs", durationValue duration)])) ++ ['\n'])

inductive SaveFault where
  | directory (p : Path) (fault : FileFault)
  | file (p : Path) (fault : FileFault)
  deriving DecidableEq, Repr

def SaveFault.context : SaveFault → String
  | directory p _ => s!"Failed to create directory {p.text}"
  | file p _ => s!"Failed to write report {p.text}"

def SaveFault.cause : SaveFault → FileFault
  | directory _ fault | file _ fault => fault

/-- Write the report to a file, creating the directories above it. -/
def save (t : FileTree) (p : Path) (report : String) : FileTree × Option SaveFault :=
  match Bundle.makeParent t p with
  | (t, some (parent, fault)) => (t, some (.directory parent fault))
  | (t, none) =>
    match t.writeText p report with
    | .error fault => (t, some (.file p fault))
    | .ok t => (t, none)

end LuaBundle.Report
