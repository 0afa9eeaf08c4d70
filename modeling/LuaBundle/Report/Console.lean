import LuaBundle.Bundle.Run
import LuaBundle.Decimal.Binary

/-!
# Console reports

A report in lines: a summary, and a section for each kind of finding that there is. The dependency
tree goes down from the entry and stops where a name comes again on the way to it.
-/
namespace LuaBundle.Report

def bytesText (n : Nat) : String :=
  if n < 1024 then s!"{n} B" else String.ofList (Decimal.fixed 1 n 1024) ++ " KiB"

def summary (duration : Float) (a : Analysis) : List String :=
  let entry := (a.entryModule.map ModuleRecord.moduleName).getD "<none>"
  let m := a.metrics
  ["Summary",
    s!"  Entry:          {entry}",
    s!"  Modules:        {m.moduleCount}",
    s!"  Externals:      {m.externalCount}",
    s!"  Missing:        {m.missingCount}",
    "  Estimated size: " ++ bytesText m.estimatedBundleSize] ++
  (if m.bundleSizeBytes > 0 then ["  Bundle size:    " ++ bytesText m.bundleSizeBytes] else []) ++
  ["  Duration:       " ++ String.ofList ((Decimal.Fraction.ofFloat duration).fixed 2) ++ "ms",
    "  Status:         " ++ if a.success then "ok" else "failed"]

/-- A titled section after an empty line, or nothing if it has no lines. -/
def titled (title : String) (lines : List String) : List String :=
  if lines.isEmpty then [] else "" :: title :: lines

def missingLine (m : MissingRecord) : String :=
  let severity := if m.fatal then "fatal" else "non-fatal"
  s!"  [{severity}] '{m.requireId}' required by '{m.requiredBy}': {m.message}"

def numberedFrom (k : Nat) : List String → List String
  | [] => []
  | item :: rest => s!"  {k}. {item}" :: numberedFrom (k + 1) rest

def errorLine (f : Failure) : String := s!"  [{f.code}] {f.message}"

def cycleLine (group : List String) : String := "  " ++ String.intercalate " <-> " group

def indent (depth : Nat) : String := String.ofList (List.replicate (2 * depth) ' ')

def marker (e : Edge) : String :=
  if e.isMissing then " (missing)" else if e.isExternal then " (external)" else ""

/-- The number of rows whose name is not on the way. -/
def rowsOff (rows : OrderedMap String (List Edge)) (way : List String) : Nat :=
  (rows.entries.filter (·.1 ∉ way)).length

theorem rowsOff_cons_lt {rows : OrderedMap String (List Edge)} {name : String}
    {edges : List Edge} {way : List String} (hr : rows.get? name = some edges)
    (hw : name ∉ way) : rowsOff rows (name :: way) < rowsOff rows way := by
  obtain ⟨l₁, l₂, he, -⟩ := List.lookup_eq_some_iff.mp hr
  unfold rowsOff
  have hsub : rows.entries.filter (·.1 ∉ name :: way) =
      (rows.entries.filter (·.1 ∉ way)).filter (·.1 ≠ name) := by
    rw [List.filter_filter]; congr 1; funext m; simp
  rw [hsub]
  exact List.length_filter_lt_length_iff_exists.mpr ⟨(name, edges), by simp [he, hw], by simp⟩

/-- The lines below a module whose edges are given. `way` holds the names from the entry to it; a
name on it is marked as a cycle and not gone into again. -/
def treeLines (rows : OrderedMap String (List Edge)) (way : List String) (depth : Nat) :
    List Edge → List String
  | [] => []
  | e :: es =>
    if _hw : e.moduleName ∈ way then
      (indent depth ++ e.moduleName ++ " (cycle)") :: treeLines rows way depth es
    else
      let below :=
        match _hr : rows.get? e.moduleName with
        | some edges => treeLines rows (e.moduleName :: way) (depth + 1) edges
        | none => []
      (indent depth ++ e.moduleName ++ marker e) :: below ++ treeLines rows way depth es
termination_by es => (rowsOff rows way, es.length)
decreasing_by
  · exact Prod.Lex.right _ (by simp)
  · exact Prod.Lex.left _ _ (rowsOff_cons_lt _hr _hw)
  · exact Prod.Lex.right _ (by simp)

def tree (a : Analysis) : List String :=
  match a.entryModule with
  | some entry =>
    let name := entry.moduleName
    "" :: "Dependency tree" :: ("  " ++ name) ::
      treeLines a.dependencyGraph [name] 2 ((a.dependencyGraph.get? name).getD [])
  | none => []

def consoleLines (verbose : Bool) (duration : Float) (a : Analysis) : List String :=
  summary duration a ++
    titled "Missing modules" (a.missing.map missingLine) ++
    titled "Warnings" (numberedFrom 1 a.warnings) ++
    titled "Errors" (a.errors.map errorLine) ++
    titled "Cyclic groups" (a.cycles.map cycleLine) ++
    if verbose then tree a ++ titled "Topological order" (numberedFrom 1 a.topologicalOrder)
    else []

/-- The report as text. The duration is in milliseconds. -/
def console (verbose : Bool) (duration : Float) (a : Analysis) : String :=
  String.join ((consoleLines verbose duration a).map (· ++ "\n"))

end LuaBundle.Report
