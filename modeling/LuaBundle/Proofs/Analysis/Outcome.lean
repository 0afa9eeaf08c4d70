import LuaBundle.Proofs.Analysis
import LuaBundle.Proofs.Graph.Components
import LuaBundle.Proofs.Graph.Missing

/-!
# What an analysis comes to

A walk that is stopped leaves nothing to report but the file that stopped it. Every other analysis is
read off the graph: its modules, its counts, and its errors, which are those of the requires that
lead nowhere and, behind them, that of a cycle.
-/
namespace LuaBundle

/-- The failure is the one that the record of a missing module was made from. -/
structure MissingRecord.Tells (m : MissingRecord) (failure : Failure) : Prop where
  code : m.code = failure.code
  message : m.message = failure.message
  resolution : failure.isResolution = true

namespace Analysis

/-- The walk was stopped by a file, of which alone the analysis tells. -/
structure Stopped (a : Analysis) (p : Path) (fault : FileFault) : Prop where
  errors : a.errors = [.access p.text fault.message]
  entryModule : a.entryModule = none
  modules : a.modules = []
  externals : a.externals = []
  dependencyGraph : a.dependencyGraph = .empty
  sortedModules : a.sortedModules = []
  topologicalOrder : a.topologicalOrder = []
  cycles : a.cycles = []
  missing : a.missing = []
  warnings : a.warnings = []
  metrics : a.metrics = .zero

/-- The analysis tells of a whole graph. The unresolved failures are those of the fatal records. -/
structure Describes (a : Analysis) (built : BuiltGraph) (unresolved : List Failure) : Prop where
  entryModule : a.entryModule = some built.entry
  modules : a.modules = built.graph.nodes.map GraphNode.module
  externals : a.externals = a.modules.filter ModuleRecord.isExternal
  missing : a.missing = built.missing
  moduleCount : a.metrics.moduleCount = a.modules.length
  externalCount : a.metrics.externalCount = a.externals.length
  missingCount : a.metrics.missingCount = a.missing.length
  fatal : List.Forall₂ MissingRecord.Tells (a.missing.filter MissingRecord.fatal) unresolved
  acyclic : built.graph.Acyclic →
    a.errors = unresolved ∧ a.cycles = [] ∧ a.sortedModules.Perm a.modules
  cyclic : ¬ built.graph.Acyclic →
    (∃ walk, built.graph.ClosedWalk walk ∧ a.errors =
        unresolved ++ [.circularDependency (walk.map fun n => n.module.moduleName)]) ∧
      a.cycles ≠ [] ∧ a.sortedModules = [] ∧ a.topologicalOrder = []

end Analysis

variable {t : FileTree} {lookup : String → Option String} {config : Config} {built : BuiltGraph}

theorem analyze_of_failure {failure : Failure} (h : graphOf t lookup config = .error failure) :
    analyze t lookup config =
      .failed config (Resolver.ofConfig config lookup).roots failure := by
  simp only [analyze]
  rw [show buildGraph _ t _ _ = _ from h]

/-- Only a file that cannot be read stops a walk. -/
theorem Analysis.stopped_of_failure {failure : Failure}
    (h : graphOf t lookup config = .error failure) :
    ∃ p fault, t.readText p = .error fault ∧ failure = .access p.text fault.message ∧
      (analyze t lookup config).Stopped p fault := by
  obtain ⟨-, -, -, unread⟩ := buildGraph_eq_error_iff.mp h
  refine ⟨_, _, unread, rfl, ?_⟩
  rw [analyze_of_failure h]
  constructor <;> rfl

/-- The errors of the fatal records, in order. -/
theorem fatal_tells (hb : graphOf t lookup config = .ok built) :
    List.Forall₂ MissingRecord.Tells (built.missing.filter MissingRecord.fatal) built.errors := by
  obtain ⟨reports, hmissing, herrors, hreports⟩ := buildGraph_reports hb
  rw [hmissing, herrors, List.filter_map, List.forall₂_map_left_iff, List.forall₂_map_right_iff]
  refine List.forall₂_same.mpr fun report hreport => ?_
  obtain ⟨place, htells⟩ := Reports.of_mem hreports (List.mem_of_mem_filter hreport)
  exact ⟨htells.code, htells.message, htells.resolution⟩

theorem Analysis.describes_of_graph (hb : graphOf t lookup config = .ok built) :
    (analyze t lookup config).Describes built built.errors := by
  have hg := (buildGraph_complete hb).1
  have hmodules := hg.filter_not_missing (List.Subset.refl _)
  rw [analyze_of_graph hb]
  constructor
  case entryModule => rfl
  case modules => exact hmodules
  case externals => rfl
  case missing => rfl
  case moduleCount => rfl
  case externalCount => rfl
  case missingCount => rfl
  case fatal => exact fatal_tells hb
  case acyclic =>
    intro hacyclic
    rcases DependencyGraph.topologicalSort_cases hg.distinct_keys with
      ⟨order, hsort, horder, -⟩ | ⟨walk, -, -, hcyclic⟩
    · simp only [ofGraph, hsort, List.append_nil, hmodules, true_and]
      rw [hg.filter_not_missing horder.perm.subset]
      exact horder.perm.map GraphNode.module
    · exact absurd hacyclic hcyclic
  case cyclic =>
    intro hcyclic
    rcases DependencyGraph.topologicalSort_cases hg.distinct_keys with
      ⟨order, -, -, hacyclic⟩ | ⟨walk, hsort, hwalk, -⟩
    · exact absurd hacyclic hcyclic
    · simp only [ofGraph, topologicalOrder, hsort, List.map_nil, and_true]
      refine ⟨⟨walk, hwalk, rfl⟩, ?_⟩
      rw [ne_eq, DependencyGraph.cyclicGroups_eq_nil_iff hg.distinct_keys]
      exact hcyclic

theorem success_iff_of_graph (hb : graphOf t lookup config = .ok built) :
    (analyze t lookup config).success = true ↔ built.errors = [] ∧ built.graph.Acyclic := by
  have hdescribes := Analysis.describes_of_graph hb
  rw [Analysis.success, List.isEmpty_iff]
  by_cases hacyclic : built.graph.Acyclic
  · rw [(hdescribes.acyclic hacyclic).1]
    exact (and_iff_left hacyclic).symm
  · obtain ⟨⟨walk, -, herrors⟩, -⟩ := hdescribes.cyclic hacyclic
    simp [herrors, hacyclic]

end LuaBundle
