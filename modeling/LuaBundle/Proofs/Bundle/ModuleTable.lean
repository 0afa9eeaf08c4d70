import LuaBundle.Proofs.Bundle.Linking
import Mathlib.Data.List.Find

/-!
# Names of files that clash

A table has one module for each logical name. Two files of one name share it, and the file that
comes first in the order of the bundle keeps it. An edge has the name of its file's node unless the
file is outside the source root and was first met under another identifier.
-/
namespace LuaBundle.Bundle

variable {t : FileTree} {lookup : String → Option String} {config : Config} {built : BuiltGraph}
  {b : Tables}

section Order

variable {g : DependencyGraph} {r : Resolver} {ignoreMissing : Bool} {order : List GraphNode}
  {n k : GraphNode}

theorem node_eq_of_module (hg : g.Complete r t ignoreMissing) (hn : n ∈ g.nodes) (hk : k ∈ g.nodes)
    (h : n.module = k.module) : n = k := by
  refine List.inj_on_of_nodup_map hg.distinct hn hk ?_
  have hfile := (module_file hg hn).symm.trans (congrArg ModuleRecord.filePath? h)
  exact Option.some.inj (hfile.trans (module_file hg hk))

theorem provider?_eq_find? (hg : g.Complete r t ignoreMissing) (ho : g.Arranged order)
    (name : String) : provider? (order.map GraphNode.module) name =
      (order.map GraphNode.module).find? (·.moduleName == name) := by
  refine List.find?_congr fun record hrecord => ?_
  obtain ⟨k, hk, rfl⟩ := List.mem_map.mp hrecord
  rw [module_file hg (ho.perm.mem_iff.mp hk), Option.isSome_some, Bool.true_and]

/-- The last node provides its name exactly if no other node has it. -/
theorem find?_last (hg : g.Complete r t ignoreMissing) (ho : g.Arranged order)
    (hlast : order.getLast? = some n) :
    (order.map GraphNode.module).find? (·.moduleName == nodeName n) = some n.module ↔
      ∀ k ∈ g.nodes, nodeName k = nodeName n → k = n := by
  obtain ⟨front, rfl⟩ := List.getLast?_eq_some_iff.mp hlast
  have hn : n ∈ g.nodes := ho.perm.mem_iff.mp (by simp)
  constructor
  · intro hfind k hk hname
    have hk' := ho.perm.mem_iff.mpr hk
    rcases List.mem_append.mp hk' with hfront | hk'
    · rw [List.map_append, List.find?_append, Option.or_eq_some_iff] at hfind
      rcases hfind with hfind | ⟨hnone, -⟩
      · obtain ⟨j, hj, hmodule⟩ := List.mem_map.mp (List.mem_of_find?_eq_some hfind)
        have hjn : j = n := node_eq_of_module hg (ho.perm.mem_iff.mp (by simp [hj])) hn hmodule
        have hnodup := ho.perm.nodup_iff.mpr (List.Nodup.of_map _ hg.distinct)
        rw [List.nodup_append] at hnodup
        exact absurd hjn (hnodup.2.2 j hj n (by simp))
      · exact absurd (beq_iff_eq.mpr hname)
          (List.find?_eq_none.mp hnone k.module (List.mem_map_of_mem hfront))
    · exact List.mem_singleton.mp hk'
  · intro honly
    have hsome : ((front ++ [n]).map GraphNode.module).find?
        (·.moduleName == nodeName n) |>.isSome := by
      refine List.find?_isSome.mpr ⟨n.module, by simp, ?_⟩
      exact beq_iff_eq.mpr rfl
    obtain ⟨record, hfind⟩ := Option.isSome_iff_exists.mp hsome
    obtain ⟨k, hk, rfl⟩ := List.mem_map.mp (List.mem_of_find?_eq_some hfind)
    have hname := List.find?_some hfind
    rw [beq_iff_eq] at hname
    rw [hfind, honly k (ho.perm.mem_iff.mp hk) hname]

end Order

/-- The keys of the table are the names of the nodes, each once. -/
theorem mem_keys_iff (hb : graphOf t lookup config = .ok built)
    (hs : (analyze t lookup config).success = true)
    (ht : tablesOf t (analyze t lookup config) = .ok b) {name : String} :
    name ∈ b.modules.map Prod.fst ↔ ∃ n ∈ built.graph.nodes, nodeName n = name := by
  obtain ⟨order, ho, -, hsorted, hrows, -⟩ := analyze_success hb hs
  obtain ⟨sources, hread, rfl⟩ := tablesOf_eq hrows ht
  rw [hsorted] at hread
  rw [keys_modules, ← OrderedMap.contains_iff, contains_readSources hread,
    OrderedMap.contains_empty, Bool.false_or, provider?_isSome (buildGraph_complete hb).1 ho]

theorem nodup_keys (ht : tablesOf t (analyze t lookup config) = .ok b) :
    (b.modules.map Prod.fst).Nodup := by
  unfold tablesOf at ht
  cases hr : readSources t .empty (analyze t lookup config).sortedModules with
  | error failure => rw [hr] at ht; cases ht
  | ok sources =>
    rw [hr] at ht
    rw [← Except.ok.inj ht, keys_modules]
    exact sources.nodup_keys

theorem length_modules_iff (hb : graphOf t lookup config = .ok built)
    (hs : (analyze t lookup config).success = true)
    (ht : tablesOf t (analyze t lookup config) = .ok b) :
    b.modules.length = built.graph.nodes.length ↔ (built.graph.nodes.map nodeName).Nodup := by
  have hperm : (b.modules.map Prod.fst).Perm (built.graph.nodes.map nodeName).dedup := by
    refine (List.perm_ext_iff_of_nodup (nodup_keys ht) (List.nodup_dedup _)).mpr fun name => ?_
    rw [mem_keys_iff hb hs ht, List.mem_dedup, List.mem_map]
  have hlength := hperm.length_eq
  rw [List.length_map] at hlength
  rw [hlength]
  constructor
  · intro h
    have := (List.dedup_sublist _).eq_of_length (h.trans (List.length_map _).symm)
    rw [← this]
    exact List.nodup_dedup _
  · intro h
    rw [List.dedup_eq_self.mpr h, List.length_map]

def twinTree : FileTree := packageTree "require('pkg') require('pkg.init')"

def twinGraph : BuiltGraph :=
  sampleGraph (sampleModule "main" "main" "/a/main.lua")
    [sampleModule "pkg" "pkg" "/a/pkg.lua", sampleModule "pkg.init" "pkg" "/a/pkg/init.lua"]

theorem graphOf_twinTree :
    graphOf twinTree noVariables (mainConfig twinTree) = .ok twinGraph :=
  graphOf_of_graphWithin 9 (by decide +kernel)

theorem success_twinTree :
    (analyze twinTree noVariables (mainConfig twinTree)).success = true :=
  success_of_sortWithin 9 graphOf_twinTree rfl (by decide +kernel)

/-- For computing with closed trees: every node's file is text. -/
theorem exists_tablesOf_of_texts (hb : graphOf t lookup config = .ok built)
    (hs : (analyze t lookup config).success = true)
    (hread : ∀ n ∈ built.graph.nodes, (t.readText n.path).toOption.isSome = true) :
    ∃ b, tablesOf t (analyze t lookup config) = .ok b := by
  refine exists_tablesOf hb hs fun n hn => ?_
  cases hr : t.readText n.path with
  | ok source => exact ⟨source, rfl⟩
  | error fault => simpa [hr, Except.toOption] using hread n hn

theorem exists_tablesOf_twinTree :
    ∃ b, tablesOf twinTree (analyze twinTree noVariables (mainConfig twinTree)) = .ok b :=
  exists_tablesOf_of_texts graphOf_twinTree success_twinTree (by decide +kernel)

/-- Every found edge of a successful analysis leads to a node whose name is in the table. The edge
has this name exactly if the file is inside the source root or was first met under the edge's
identifier; so it is for any two resolutions that reach one file. -/
theorem edge_name_eq_iff (hb : graphOf t lookup config = .ok built)
    (hs : (analyze t lookup config).success = true) :
    (∀ n ∈ built.graph.nodes, ∀ e ∈ n.dependencies, e.isMissing = false →
      ∃ k ∈ built.graph.nodes, e.filePath = some k.path ∧
        (∀ b, tablesOf t (analyze t lookup config) = .ok b → nodeName k ∈ b.modules.map Prod.fst) ∧
        (e.moduleName = nodeName k ↔
          config.sourceRoot.isWithin k.path = true ∨ e.id = k.module.id)) ∧
      ∀ id id' directory directory' m m',
        (Resolver.ofConfig config lookup).resolve t id directory = .ok (.resolved m) →
        (Resolver.ofConfig config lookup).resolve t id' directory' = .ok (.resolved m') →
        m.filePath = m'.filePath →
        (m.moduleName = m'.moduleName ↔
          config.sourceRoot.isWithin m.filePath = true ∨ m.id = m'.id) := by
  have hg := (buildGraph_complete hb).1
  constructor
  · intro n hn e he hfound
    obtain ⟨m, hm⟩ := hg.explored n hn
    obtain ⟨-, m', -, rfl, hnamed, -⟩ := hm.edge_resolved he hfound
    obtain ⟨k, hk, hpath⟩ := hg.closed n hn m'.filePath (List.mem_filterMap.mpr ⟨_, he, rfl⟩)
    obtain ⟨m'', hm''⟩ := hg.explored k hk
    refine ⟨k, hk, congrArg some hpath.symm,
      fun b ht => (mem_keys_iff hb hs ht).mpr ⟨k, hk, rfl⟩, ?_⟩
    have hiff := hnamed.name_eq_iff hm''.named (hpath.symm.trans hm''.path)
    simp only [nodeName, hm''.module, hpath]
    exact hiff
  · intro id id' directory directory' m m' h h' hfile
    exact (Resolver.resolve_named h).name_eq_iff (Resolver.resolve_named h') hfile

/-- A script that requires one outside file by two overrides. -/
def sharedTree : FileTree :=
  ⟨[(["s", "main.lua"], .file (.text "require('a') require('b')")),
    (["x.lua"], .file (.text "return 1")), (["s"], .directory)], ["s"]⟩

def sharedConfig : Config :=
  let config := mainConfig sharedTree
  let rule : OverrideRule := ⟨some ⟨"../x.lua"⟩, none⟩
  { config with modules := { config.modules with overrides := .ofList [("a", rule), ("b", rule)] } }

def sharedModule (id : String) : ResolvedModule := ⟨id, id, ⟨"/x.lua"⟩, true, true, true⟩

def sharedGraph : BuiltGraph :=
  let main := sampleModule "main" "main" "/s/main.lua"
  ⟨.resolved main,
    ⟨[⟨main.filePath, .resolved main, ["a", "b"].map fun id =>
        (ModuleRecord.resolved (sharedModule id)).edge⟩,
      ⟨⟨"/x.lua"⟩, .resolved (sharedModule "a"), []⟩]⟩, [], []⟩

/-- The second override's name is not the name of the file's node. -/
theorem shared_file_named_twice :
    graphOf sharedTree noVariables sharedConfig = .ok sharedGraph ∧
      (analyze sharedTree noVariables sharedConfig).success = true ∧
      ∃ n ∈ sharedGraph.graph.nodes, ∃ e ∈ n.dependencies, e.isMissing = false ∧
        ∃ k ∈ sharedGraph.graph.nodes, e.filePath = some k.path ∧ e.moduleName ≠ nodeName k := by
  have hb : graphOf sharedTree noVariables sharedConfig = .ok sharedGraph :=
    graphOf_of_graphWithin 9 (by decide +kernel)
  have hs := success_of_sortWithin 9 hb rfl (by decide +kernel)
  refine ⟨hb, hs, _, List.mem_cons_self .., (ModuleRecord.resolved (sharedModule "b")).edge,
    by simp, rfl, ?_⟩
  obtain ⟨k, hk, hfile, -, hname⟩ := (edge_name_eq_iff hb hs).1 _ (List.mem_cons_self ..)
    (ModuleRecord.resolved (sharedModule "b")).edge (by simp) rfl
  refine ⟨k, hk, hfile, fun h => ?_⟩
  have hdecide : ∀ k ∈ sharedGraph.graph.nodes, some (⟨"/x.lua"⟩ : Path) = some k.path →
      ¬ (sharedConfig.sourceRoot.isWithin k.path = true ∨ "b" = k.module.id) := by decide +kernel
  exact hdecide k hk hfile (hname.mp h)

end LuaBundle.Bundle
