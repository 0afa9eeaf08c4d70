import LuaBundle.Analysis
import LuaBundle.Proofs.Graph.Order

/-!
# Successful analyses

A success rests on a finished graph that could be sorted, and its modules are the sorted ones.
-/
namespace LuaBundle

variable {t : FileTree} {lookup : String → Option String} {config : Config} {built : BuiltGraph}

def graphOf (t : FileTree) (lookup : String → Option String) (config : Config) :
    Except Failure BuiltGraph :=
  buildGraph (.ofConfig config lookup) t config.modules.ignoreMissing config.entry

theorem analyze_of_graph (h : graphOf t lookup config = .ok built) :
    analyze t lookup config =
      .ofGraph t config (Resolver.ofConfig config lookup).roots built := by
  simp only [analyze]
  rw [show buildGraph _ t _ _ = _ from h]

theorem graph_of_success (h : (analyze t lookup config).success = true) :
    ∃ built, graphOf t lookup config = .ok built := by
  cases hb : graphOf t lookup config with
  | ok built => exact ⟨built, rfl⟩
  | error failure =>
    simp only [analyze] at h
    rw [show buildGraph _ t _ _ = _ from hb] at h
    cases h

/-- The graph that a bounded walk builds, for computing with closed trees. -/
def graphWithin (steps : Nat) (t : FileTree) (lookup : String → Option String) (config : Config) :
    Option BuiltGraph :=
  let r := Resolver.ofConfig config lookup
  let record := r.entryRecord t.workingPath config.entry
  (Walk.visitWithin r t config.modules.ignoreMissing steps .start [record]).map fun w =>
    ⟨record, w.graph, w.missing, w.errors⟩

theorem graphOf_of_graphWithin (steps : Nat) (h : graphWithin steps t lookup config = some built) :
    graphOf t lookup config = .ok built := by
  obtain ⟨w, hw, rfl⟩ := Option.map_eq_some_iff.mp h
  exact buildGraph_eq_ok_iff.mpr ⟨w, Walk.visitAll_of_visitWithin hw, rfl⟩

theorem success_of_sortWithin (steps : Nat) (hb : graphOf t lookup config = .ok built)
    (he : built.errors = [])
    (hsort : (built.graph.sortWithin steps [] ⟨[], []⟩
      (built.graph.nodes.map GraphNode.path)).isSome = true) :
    (analyze t lookup config).success = true := by
  obtain ⟨o, ho⟩ := Option.isSome_iff_exists.mp hsort
  rw [analyze_of_graph hb, Analysis.success, Analysis.ofGraph, DependencyGraph.topologicalSort,
    DependencyGraph.visitAll_of_sortWithin ho]
  simp [Except.map, he]

/-- What a success gives: an order of the whole graph, ending with the entry. -/
theorem analyze_success (hb : graphOf t lookup config = .ok built)
    (hs : (analyze t lookup config).success = true) :
    ∃ order, built.graph.Arranged order ∧
      (∃ n, order.getLast? = some n ∧ n.module = built.entry) ∧
      (analyze t lookup config).sortedModules = order.map GraphNode.module ∧
      (analyze t lookup config).dependencyGraph = Analysis.edgeRows built.graph ∧
      (analyze t lookup config).entryModule = some built.entry := by
  obtain ⟨hcomplete, n, rest, hfirst, hentry⟩ := buildGraph_complete hb
  rw [analyze_of_graph hb] at hs ⊢
  cases hsort : built.graph.topologicalSort with
  | error failure => simp [Analysis.ofGraph, hsort, Analysis.success] at hs
  | ok sorted =>
    obtain ⟨order, ho, rfl⟩ :=
      DependencyGraph.topologicalSort_arranged hcomplete.distinct_keys hsort
    refine ⟨order, ho, ⟨n, hcomplete.getLast?_arranged hfirst ho, hentry⟩, ?_, rfl, rfl⟩
    simp only [Analysis.ofGraph, hsort]
    exact hcomplete.filter_not_missing ho.perm.subset

end LuaBundle
