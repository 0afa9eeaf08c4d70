import LuaBundle.Proofs.Bundle.ModuleTable

/-!
# The order of a bundle

A successful analysis has one module for each file that the walk met, and puts each module after
the modules that its requires lead to. The entry, from which the walk reached all others, is last.
-/
namespace LuaBundle

/-- The modules are those of the graph, and they are in an order in which they can be bundled. -/
structure Analysis.Ordered (a : Analysis) (g : DependencyGraph) : Prop where
  modules : a.modules = g.nodes.map GraphNode.module
  files : (a.modules.map ModuleRecord.filePath?).Nodup
  perm : a.sortedModules.Perm a.modules
  after : ∀ before m later, a.sortedModules = before ++ m :: later →
    ∀ n ∈ g.nodes, n.module = m → ∀ e ∈ n.dependencies,
      e.isMissing = true ∧ e.filePath = none ∨
        ∃ k ∈ g.nodes, e.filePath = some k.path ∧ k.module ∈ before
  last : a.sortedModules.getLast? = a.entryModule

namespace DependencyGraph.Complete

variable {g : DependencyGraph} {r : Resolver} {t : FileTree} {ignoreMissing : Bool} {n : GraphNode}
  {e : Edge}

/-- An edge of a finished graph is missing, without a file, or leads to a node. -/
theorem edge_cases (hg : g.Complete r t ignoreMissing) (hn : n ∈ g.nodes)
    (he : e ∈ n.dependencies) :
    e.isMissing = true ∧ e.filePath = none ∨
      ∃ k ∈ g.nodes, e.filePath = some k.path ∧ k.path ∈ n.targets := by
  obtain ⟨m, hm⟩ := hg.explored n hn
  obtain ⟨source, record, hrecord, rfl⟩ := hm.exists_record he
  cases record with
  | resolved m' =>
    have htarget : m'.filePath ∈ n.targets := List.mem_filterMap.mpr ⟨_, he, rfl⟩
    obtain ⟨k, hk, hpath⟩ := hg.closed n hn m'.filePath htarget
    rw [← hpath] at htarget
    exact .inr ⟨k, hk, congrArg some hpath.symm, htarget⟩
  | ignored id => exact absurd hrecord (Walk.ignored_not_mem_required id)
  | missing id message overridden => exact .inl ⟨rfl, rfl⟩

theorem nodup_files (hg : g.Complete r t ignoreMissing) :
    ((g.nodes.map GraphNode.module).map ModuleRecord.filePath?).Nodup := by
  have hfiles : (g.nodes.map GraphNode.module).map ModuleRecord.filePath? =
      (g.nodes.map GraphNode.path).map some := by
    rw [List.map_map, List.map_map]
    exact List.map_congr_left fun n hn => Bundle.module_file hg hn
  rw [hfiles]
  exact hg.distinct.map fun _ _ => Option.some.inj

end DependencyGraph.Complete

variable {t : FileTree} {lookup : String → Option String} {config : Config}

/-- A successful analysis orders the graph that the walk from the entry has built. -/
theorem analyze_ordered (h : (analyze t lookup config).success = true) :
    ∃ built, graphOf t lookup config = .ok built ∧
      (analyze t lookup config).entryModule =
        some ((Resolver.ofConfig config lookup).entryRecord t.workingPath config.entry) ∧
      (analyze t lookup config).Ordered built.graph := by
  obtain ⟨built, hb⟩ := graph_of_success h
  obtain ⟨order, ho, ⟨last, hlast, hentry⟩, hsorted, -, hmodule⟩ := analyze_success hb h
  have hg := (buildGraph_complete hb).1
  have hmodules : (analyze t lookup config).modules = built.graph.nodes.map GraphNode.module := by
    rw [analyze_of_graph hb]
    exact hg.filter_not_missing (List.Subset.refl _)
  refine ⟨built, hb, ?_, ?_⟩
  · obtain ⟨w, -, hbuilt⟩ := buildGraph_eq_ok_iff.mp hb
    rw [hmodule, hbuilt]
  constructor
  case modules => exact hmodules
  case files =>
    rw [hmodules]
    exact hg.nodup_files
  case perm =>
    rw [hsorted, hmodules]
    exact ho.perm.map GraphNode.module
  case after =>
    intro before m later hsplit n hn hm e he
    rw [hsorted] at hsplit
    obtain ⟨front, back, rfl, rfl, hback⟩ := List.map_eq_append_iff.mp hsplit
    obtain ⟨n', rest, rfl, hn', rfl⟩ := List.map_eq_cons_iff.mp hback
    have hmem : n' ∈ built.graph.nodes := ho.perm.mem_iff.mp (by simp)
    -- no two nodes have one module, so the place found is the node's own
    obtain rfl : n = n' := Bundle.node_eq_of_module hg hn hmem (hm.trans hn'.symm)
    rcases hg.edge_cases hn he with hmissing | ⟨k, hk, hfile, htarget⟩
    · exact .inl hmissing
    · have hbefore : k ∈ front := ho.after front n rest rfl k.path htarget k hk rfl
      exact .inr ⟨k, hk, hfile, List.mem_map_of_mem hbefore⟩
  case last => rw [hsorted, hmodule, List.getLast?_map, hlast, Option.map_some, hentry]

section Sample

/-- Two ways to one module, which is not to be scanned. -/
def diamondTree : FileTree :=
  ⟨[(["a", "main.lua"], .file (.text "require('left') require('right')")),
    (["a", "left.lua"], .file (.text "return require('base')")),
    (["a", "right.lua"], .file (.text "return require('base')")),
    (["a", "base.lua"], .file (.text "require('main')")), (["a"], .directory)], ["a"]⟩

def diamondConfig : Config :=
  let config := Bundle.mainConfig diamondTree
  { config with modules.overrides := .ofList [("base", ⟨none, some false⟩)] }

def diamondGraph : BuiltGraph :=
  let main : ModuleRecord := .resolved ⟨"main", "main", ⟨"/a/main.lua"⟩, false, false, true⟩
  let left : ModuleRecord := .resolved ⟨"left", "left", ⟨"/a/left.lua"⟩, false, false, true⟩
  let right : ModuleRecord := .resolved ⟨"right", "right", ⟨"/a/right.lua"⟩, false, false, true⟩
  let base : ModuleRecord := .resolved ⟨"base", "base", ⟨"/a/base.lua"⟩, false, false, false⟩
  ⟨main, ⟨[⟨⟨"/a/main.lua"⟩, main, [left.edge, right.edge]⟩, ⟨⟨"/a/left.lua"⟩, left, [base.edge]⟩,
    ⟨⟨"/a/base.lua"⟩, base, []⟩, ⟨⟨"/a/right.lua"⟩, right, [base.edge]⟩]⟩, [], []⟩

end Sample

theorem diamond_ordered :
    (analyze diamondTree Bundle.noVariables diamondConfig).success = true ∧
      (analyze diamondTree Bundle.noVariables diamondConfig).Ordered diamondGraph.graph := by
  have hb : graphOf diamondTree Bundle.noVariables diamondConfig = .ok diamondGraph :=
    graphOf_of_graphWithin 9 (by decide +kernel)
  have hs := success_of_sortWithin 9 hb rfl (by decide +kernel)
  obtain ⟨built, hbuilt, -, hordered⟩ := analyze_ordered hs
  obtain rfl : diamondGraph = built := Except.ok.inj (hb.symm.trans hbuilt)
  exact ⟨hs, hordered⟩

end LuaBundle
