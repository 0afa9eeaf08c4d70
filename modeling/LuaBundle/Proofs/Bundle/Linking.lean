import LuaBundle.Proofs.Analysis
import LuaBundle.Proofs.Bundle.Tables
import Mathlib.Data.List.Dedup

/-!
# From graphs to tables

The tables of a successful analysis serve the edges of its graph. Names are what links the two: where
names tell files apart, every require leads to its file; where two files share a name, the first one
in the order of the bundle keeps it.
-/
namespace LuaBundle.Bundle

variable {t : FileTree} {lookup : String → Option String} {config : Config} {built : BuiltGraph}
  {b : Tables} {n k : GraphNode} {e : Edge}

def nodeName (n : GraphNode) : String := n.module.moduleName

/-- Names and files of a node and of its edges that have a file. -/
def places (n : GraphNode) : List (String × FileKey) :=
  (nodeName n, n.key) ::
    n.dependencies.filterMap fun e => e.filePath.map fun p => (e.moduleName, p.components)

/-- Over all nodes and all edges that have a file, names are equal exactly if files are. -/
def NamesMatchFiles (g : DependencyGraph) : Prop :=
  ∀ a ∈ g.nodes.flatMap places, ∀ b ∈ g.nodes.flatMap places, a.1 = b.1 ↔ a.2 = b.2

instance (g : DependencyGraph) : Decidable (NamesMatchFiles g) :=
  inferInstanceAs (Decidable (∀ a ∈ _, ∀ b ∈ _, _ ↔ _))

theorem node_place {g : DependencyGraph} (hn : n ∈ g.nodes) :
    (nodeName n, n.key) ∈ g.nodes.flatMap places :=
  List.mem_flatMap.mpr ⟨n, hn, List.mem_cons_self ..⟩

theorem edge_place {g : DependencyGraph} {p : Path} (hn : n ∈ g.nodes) (he : e ∈ n.dependencies)
    (hp : e.filePath = some p) : (e.moduleName, p.components) ∈ g.nodes.flatMap places :=
  List.mem_flatMap.mpr ⟨n, hn, List.mem_cons_of_mem _
    (List.mem_filterMap.mpr ⟨e, he, by rw [hp]; rfl⟩)⟩

/-! ### Tables of a successful analysis -/

theorem tablesOf_eq (h : (analyze t lookup config).dependencyGraph = Analysis.edgeRows built.graph)
    (ht : tablesOf t (analyze t lookup config) = .ok b) :
    ∃ sources, readSources t .empty (analyze t lookup config).sortedModules = .ok sources ∧
      b = tables (requireAliases (Analysis.edgeRows built.graph)) sources := by
  unfold tablesOf at ht
  cases hr : readSources t .empty (analyze t lookup config).sortedModules with
  | error failure => rw [hr] at ht; cases ht
  | ok sources =>
    rw [hr, h] at ht
    exact ⟨sources, rfl, (Except.ok.inj ht).symm⟩

theorem ofAnalysis_eq {a : Analysis} {entry : ModuleRecord} (h : a.entryModule = some entry) :
    ofAnalysis t a = (tablesOf t a).map fun b => b.render entry.moduleName := by
  simp only [ofAnalysis, h, assemble, tablesOf]
  cases readSources t .empty a.sortedModules with
  | error failure => rfl
  | ok sources => rfl

section Provider

variable {g : DependencyGraph} {r : Resolver} {ignoreMissing : Bool} {order : List GraphNode}

/-- A name's provider is a node of that name, and every node's name has one. -/
theorem mem_of_provider? (ho : g.Arranged order) {name : String} {record : ModuleRecord}
    (h : provider? (order.map GraphNode.module) name = some record) :
    ∃ k ∈ g.nodes, k.module = record ∧ nodeName k = name := by
  obtain ⟨k, hk, rfl⟩ := List.mem_map.mp (List.mem_of_find?_eq_some h)
  have := List.find?_some h
  simp only [Bool.and_eq_true, beq_iff_eq] at this
  exact ⟨k, ho.perm.mem_iff.mp hk, rfl, this.2⟩

theorem provider?_isSome (hg : g.Complete r t ignoreMissing) (ho : g.Arranged order)
    {name : String} : (provider? (order.map GraphNode.module) name).isSome = true ↔
      ∃ k ∈ g.nodes, nodeName k = name := by
  constructor
  · intro h
    obtain ⟨record, h⟩ := Option.isSome_iff_exists.mp h
    obtain ⟨k, hk, -, hname⟩ := mem_of_provider? ho h
    exact ⟨k, hk, hname⟩
  · rintro ⟨k, hk, rfl⟩
    obtain ⟨m, hm⟩ := hg.explored k hk
    refine List.find?_isSome.mpr
      ⟨k.module, List.mem_map_of_mem (ho.perm.mem_iff.mpr hk), ?_⟩
    simp [hm.module, ModuleRecord.filePath?, ModuleRecord.asResolved?, nodeName]

theorem module_file (hg : g.Complete r t ignoreMissing) (hk : k ∈ g.nodes) :
    k.module.filePath? = some k.path := by
  obtain ⟨m, hm⟩ := hg.explored k hk
  rw [hm.module, hm.path]
  rfl

end Provider

/-- Only a file that is no text keeps a successful analysis from having tables. -/
theorem exists_tablesOf (hb : graphOf t lookup config = .ok built)
    (hs : (analyze t lookup config).success = true)
    (hall : ∀ n ∈ built.graph.nodes, ∃ source, t.readText n.path = .ok source) :
    ∃ b, tablesOf t (analyze t lookup config) = .ok b := by
  obtain ⟨order, ho, -, hsorted, -, -⟩ := analyze_success hb hs
  have hread : ∃ sources, readSources t .empty (analyze t lookup config).sortedModules =
      .ok sources := by
    refine readSources_succeeds fun record hrecord p hp => ?_
    rw [hsorted] at hrecord
    obtain ⟨n, hn, rfl⟩ := List.mem_map.mp hrecord
    have hn := ho.perm.mem_iff.mp hn
    cases hp.symm.trans (module_file (buildGraph_complete hb).1 hn)
    exact hall n hn
  obtain ⟨sources, hread⟩ := hread
  exact ⟨_, by rw [tablesOf, hread]; rfl⟩

/-! ### Where names tell files apart -/

section Matching

variable {g : DependencyGraph} {r : Resolver} {ignoreMissing : Bool} {order : List GraphNode}

theorem NamesMatchFiles.node_eq (hm : NamesMatchFiles g) (hg : g.Complete r t ignoreMissing)
    (hn : n ∈ g.nodes) (hk : k ∈ g.nodes) (h : nodeName n = nodeName k) : n = k :=
  hg.distinct_keys.eq_of_key hn hk ((hm _ (node_place hn) _ (node_place hk)).mp h)

theorem NamesMatchFiles.provider?_eq (hm : NamesMatchFiles g) (hg : g.Complete r t ignoreMissing)
    (ho : g.Arranged order) (hk : k ∈ g.nodes) :
    provider? (order.map GraphNode.module) (nodeName k) = some k.module := by
  obtain ⟨record, h⟩ := Option.isSome_iff_exists.mp ((provider?_isSome hg ho).mpr ⟨k, hk, rfl⟩)
  obtain ⟨k', hk', rfl, hname⟩ := mem_of_provider? ho h
  rw [h, hm.node_eq hg hk' hk hname]

theorem NamesMatchFiles.get?_edgeRows (hm : NamesMatchFiles g) (hg : g.Complete r t ignoreMissing)
    (hn : n ∈ g.nodes) : (Analysis.edgeRows g).get? (nodeName n) = some n.dependencies := by
  rw [Bundle.get?_edgeRows]
  cases hf : g.nodes.find? fun k => k.module.moduleName == nodeName n with
  | none => simpa [nodeName] using List.find?_eq_none.mp hf n hn
  | some k =>
    have hname := List.find?_some hf
    rw [beq_iff_eq] at hname
    rw [hm.node_eq hg (List.mem_of_find?_eq_some hf) hn hname]
    rfl

/-- The file of an edge is a node, and under matching names the edge has the node's name. -/
theorem NamesMatchFiles.edge_node (hm : NamesMatchFiles g) (hg : g.Complete r t ignoreMissing)
    (hn : n ∈ g.nodes) (he : e ∈ n.dependencies) (hfound : e.isMissing = false) :
    ∃ k ∈ g.nodes, e.filePath = some k.path ∧ e.moduleName = nodeName k := by
  obtain ⟨m, hexplored⟩ := hg.explored n hn
  obtain ⟨-, m', -, rfl, -, -⟩ := hexplored.edge_resolved he hfound
  obtain ⟨k, hk, hpath⟩ := hg.closed n hn m'.filePath (List.mem_filterMap.mpr ⟨_, he, rfl⟩)
  refine ⟨k, hk, congrArg some hpath.symm, ?_⟩
  exact (hm _ (edge_place hn he rfl) _ (node_place hk)).mpr (congrArg Path.components hpath).symm

/-- The alias rows and the module table together lead every found edge to its name. -/
theorem NamesMatchFiles.target?_eq (hm : NamesMatchFiles g) (hg : g.Complete r t ignoreMissing)
    {sources : OrderedMap String (List Char)} (hn : n ∈ g.nodes) (he : e ∈ n.dependencies)
    (hfound : e.isMissing = false) (hregistered : sources.contains e.moduleName = true) :
    (tables (requireAliases (Analysis.edgeRows g)) sources).target? (nodeName n) e.id =
      some e.moduleName := by
  obtain ⟨m, hexplored⟩ := hg.explored n hn
  have hrow := hm.get?_edgeRows hg hn
  have halias := get?_edgeAliases he hfound fun e' he' hfound' hid =>
    congrArg Edge.moduleName (hexplored.edge_unique he' hfound' he hfound hid)
  rw [Tables.target?]
  by_cases hsame : e.id = e.moduleName
  · have hnone : (tables (requireAliases (Analysis.edgeRows g)) sources).alias? (nodeName n) e.id =
        none := by
      cases ha : (tables (requireAliases (Analysis.edgeRows g)) sources).alias? (nodeName n)
        e.id with
      | none => rfl
      | some name =>
        obtain ⟨edges, hedges, hget, -⟩ := alias?_tables.mp ha
        obtain rfl := Option.some.inj (hrow.symm.trans hedges)
        rw [halias, if_pos hsame] at hget
        cases hget
    have hmodule : ((tables (requireAliases (Analysis.edgeRows g)) sources).modules.lookup
        e.id).isSome = true := by
      rw [lookup_modules, hsame, Option.isSome_map]
      exact hregistered
    rw [hnone, Option.none_or, if_pos hmodule, hsame]
  · rw [alias?_tables.mpr ⟨n.dependencies, hrow, by rw [halias, if_neg hsame], hsame, hregistered⟩,
      Option.some_or]

end Matching

section Sample

/-- A package beside a module of the same name. -/
def packageTree (main : String) : FileTree :=
  ⟨[(["a", "main.lua"], .file (.text main)), (["a", "pkg.lua"], .file (.text "return 1")),
    (["a", "pkg", "init.lua"], .file (.text "#!lua\nreturn 2")), (["a", "pkg"], .directory),
    (["a"], .directory)], ["a"]⟩

def mainConfig (t : FileTree) : Config := .forEntry t.workingPath ⟨"main.lua"⟩

def noVariables (_ : String) : Option String := none

def sampleModule (id name file : String) : ResolvedModule := ⟨id, name, ⟨file⟩, false, false, true⟩

/-- An entry and the modules that it requires, which require nothing. -/
def sampleGraph (entry : ResolvedModule) (modules : List ResolvedModule) : BuiltGraph :=
  ⟨.resolved entry,
    ⟨⟨entry.filePath, .resolved entry, modules.map fun m => (ModuleRecord.resolved m).edge⟩ ::
      modules.map fun m => ⟨m.filePath, .resolved m, []⟩⟩, [], []⟩

def initTree : FileTree := packageTree "require('pkg.init')"

def initGraph : BuiltGraph :=
  sampleGraph (sampleModule "main" "main" "/a/main.lua")
    [sampleModule "pkg.init" "pkg" "/a/pkg/init.lua"]

end Sample

end LuaBundle.Bundle
