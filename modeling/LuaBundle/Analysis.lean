import LuaBundle.Graph.Cycles
import LuaBundle.Graph.Order
import LuaBundle.Graph.Walk

/-!
# Analysis

The result of walking the requires of an entry file. An analysis always has a result: whatever goes
wrong is among its errors, and it is a success if there are none.
-/
namespace LuaBundle

structure Metrics where
  moduleCount : Nat
  externalCount : Nat
  missingCount : Nat
  /-- The sizes of all module files, in bytes. -/
  moduleSizeSum : Nat
  estimatedBundleSize : Nat
  /-- The size of the written bundle; zero until one is written. -/
  bundleSizeBytes : Nat
  deriving DecidableEq, Repr

def Metrics.zero : Metrics := ⟨0, 0, 0, 0, 0, 0⟩

structure Analysis where
  config : Config
  roots : ExternalRoots
  entryModule : Option ModuleRecord
  modules : List ModuleRecord
  externals : List ModuleRecord
  /-- The edges of every module, under its logical name. -/
  dependencyGraph : OrderedMap String (List Edge)
  /-- Dependencies first; empty if there is a cycle. -/
  sortedModules : List ModuleRecord
  /-- Filled only if there is a cycle. -/
  cycles : List (List String)
  missing : List MissingRecord
  warnings : List String
  errors : List Failure
  metrics : Metrics
  deriving DecidableEq, Repr

namespace Analysis

def success (a : Analysis) : Bool := a.errors.isEmpty

def topologicalOrder (a : Analysis) : List String := a.sortedModules.map ModuleRecord.moduleName

def failed (config : Config) (roots : ExternalRoots) (failure : Failure) : Analysis :=
  ⟨config, roots, none, [], [], .empty, [], [], [], [], [failure], .zero⟩

/-- The rows of the graph by logical name; of two nodes with one name the first counts. -/
def edgeRows (g : DependencyGraph) : OrderedMap String (List Edge) :=
  g.nodes.foldl (fun rows n =>
    if rows.contains n.module.moduleName then rows
    else rows.insert n.module.moduleName n.dependencies) .empty

def sizeSum (t : FileTree) (modules : List ModuleRecord) : Nat :=
  (modules.filterMap fun m => m.filePath?.bind t.size?).foldr (· + ·) 0

/-- Tolerated overrides without a file, each message once. -/
def overrideWarnings (missing : List MissingRecord) : List String :=
  ((missing.filter fun m => m.overrideApplied && !m.fatal).map MissingRecord.message).foldl
    (fun seen m => if m ∈ seen then seen else seen ++ [m]) []

def ofGraph (t : FileTree) (config : Config) (roots : ExternalRoots) (built : BuiltGraph) :
    Analysis :=
  let modules := (built.graph.nodes.map GraphNode.module).filter (!·.isMissing)
  let externals := modules.filter ModuleRecord.isExternal
  let size := sizeSum t modules
  let (sorted, cycles, cyclic) :=
    match built.graph.topologicalSort with
    | .ok sorted => (sorted.filter (!·.isMissing), [], [])
    | .error failure => ([], built.graph.cyclicGroups, [failure])
  { config
    roots
    entryModule := some built.entry
    modules
    externals
    dependencyGraph := edgeRows built.graph
    sortedModules := sorted
    cycles
    missing := built.missing
    warnings := overrideWarnings built.missing
    errors := built.errors ++ cyclic
    metrics := ⟨modules.length, externals.length, built.missing.length, size, size, 0⟩ }

end Analysis

/-- Analyse the requires of the configured entry, with `lookup` giving environment variables. -/
def analyze (t : FileTree) (lookup : String → Option String) (config : Config) : Analysis :=
  let r := Resolver.ofConfig config lookup
  match buildGraph r t config.modules.ignoreMissing config.entry with
  | .ok built => .ofGraph t config r.roots built
  | .error failure => .failed config r.roots failure

end LuaBundle
