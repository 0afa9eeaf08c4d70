import LuaBundle.Bundle.Run
import LuaBundle.Proofs.Analysis.Outcome
import LuaBundle.Proofs.Bundle.Order
import LuaBundle.Proofs.Graph.Footprint

/-!
# A bundle depends on what its walk looks at

After the walk only sizes and texts of its modules are looked at, and these are files that it
reaches. So files that no resolution probes before it finds its own may come, go and change without
a trace in the analysis or in the bundle.
-/
namespace LuaBundle

variable {t t' : FileTree}

/-- On the files of these modules the trees are the same. -/
structure FileTree.SameFiles (t t' : FileTree) (modules : List ModuleRecord) : Prop where
  texts : ∀ m ∈ modules, ∀ p, m.filePath? = some p → t'.readText p = t.readText p
  sizes : ∀ m ∈ modules, ∀ p, m.filePath? = some p → t'.size? p = t.size? p

namespace FileTree.SameFiles

variable {modules : List ModuleRecord}

theorem mono {others : List ModuleRecord} (h : SameFiles t t' modules) (hsub : others ⊆ modules) :
    SameFiles t t' others :=
  ⟨fun m hm => h.texts m (hsub hm), fun m hm => h.sizes m (hsub hm)⟩

theorem sizeSum (h : SameFiles t t' modules) :
    Analysis.sizeSum t' modules = Analysis.sizeSum t modules := by
  unfold Analysis.sizeSum
  congr 1
  apply List.filterMap_congr
  intro m hm
  cases hp : m.filePath? with
  | none => rfl
  | some p => exact h.sizes m hm p hp

theorem readSources (h : SameFiles t t' modules) (sources : OrderedMap String (List Char)) :
    Bundle.readSources t' sources modules = Bundle.readSources t sources modules := by
  induction modules generalizing sources with
  | nil => rfl
  | cons m modules ih =>
    have hrest := h.mono (List.subset_cons_self m modules)
    cases hp : m.filePath? with
    | none => rw [Bundle.readSources_pass hp, Bundle.readSources_pass hp, ih hrest]
    | some p =>
      by_cases hc : sources.contains m.moduleName = true
      · rw [Bundle.readSources_again hp hc, Bundle.readSources_again hp hc, ih hrest]
      · have hc : sources.contains m.moduleName = false := by simpa using hc
        have hread := h.texts m (List.mem_cons_self ..) p hp
        cases hr : t.readText p with
        | error fault =>
          rw [Bundle.readSources_fail hp hc hr, Bundle.readSources_fail hp hc (hread.trans hr)]
        | ok s =>
          rw [Bundle.readSources_read hp hc hr, Bundle.readSources_read hp hc (hread.trans hr),
            ih hrest]

end FileTree.SameFiles

section

variable {lookup : String → Option String} {config : Config} {built : BuiltGraph}

/-- What is put in order are modules of the graph, if anything is. -/
theorem sortedModules_subset (hb : graphOf t lookup config = .ok built) :
    (analyze t lookup config).sortedModules ⊆ built.graph.nodes.map GraphNode.module := by
  have hdescribes := Analysis.describes_of_graph hb
  rw [← hdescribes.modules]
  by_cases hacyclic : built.graph.Acyclic
  · exact (hdescribes.acyclic hacyclic).2.2.subset
  · rw [(hdescribes.cyclic hacyclic).2.2.1]
    exact List.nil_subset _

theorem Walk.SameFootprint.sameFiles
    (h : SameFootprint (.ofConfig config lookup) t t' config.modules.ignoreMissing config.entry)
    (hb : graphOf t lookup config = .ok built) :
    FileTree.SameFiles t t' (built.graph.nodes.map GraphNode.module) := by
  have hreaches : ∀ m ∈ built.graph.nodes.map GraphNode.module, ∀ p, m.filePath? = some p →
      Reaches (.ofConfig config lookup) t config.modules.ignoreMissing config.entry p := by
    intro m hm p hp
    obtain ⟨n, hn, rfl⟩ := List.mem_map.mp hm
    rw [(buildGraph_exact hb).file n hn] at hp
    exact (reaches_iff hb).mpr ⟨n, hn, Option.some.inj hp⟩
  constructor
  · exact fun m hm p hp => h.texts p (hreaches m hm p hp)
  · exact fun m hm p hp => h.sizes p (hreaches m hm p hp)

namespace Bundle

/-- Two trees that look the same to the walk on the first give the same analysis and the same
bundle. -/
theorem footprint_determines_bundle
    (h : Walk.SameFootprint (.ofConfig config lookup) t t' config.modules.ignoreMissing
      config.entry) :
    analyze t' lookup config = analyze t lookup config ∧
      ∀ draws, render t' draws (analyze t' lookup config) =
        render t draws (analyze t lookup config) := by
  have hgraph : graphOf t' lookup config = graphOf t lookup config := h.buildGraph
  cases hb : graphOf t lookup config with
  | error failure =>
    have hb' := hgraph.trans hb
    rw [analyze_of_failure hb, analyze_of_failure hb']
    constructor
    · rfl
    · intro draws
      rfl
  | ok built =>
    have hb' := hgraph.trans hb
    have hsame := h.sameFiles hb
    have hmodules : (built.graph.nodes.map GraphNode.module).filter (!·.isMissing) ⊆
        built.graph.nodes.map GraphNode.module := List.filter_subset_self _
    have hsize := (hsame.mono hmodules).sizeSum
    have hanalysis : analyze t' lookup config = analyze t lookup config := by
      rw [analyze_of_graph hb, analyze_of_graph hb']
      simp only [Analysis.ofGraph, hsize]
    constructor
    · exact hanalysis
    · intro draws
      have hsources := (hsame.mono (sortedModules_subset hb)).readSources .empty
      rw [hanalysis]
      simp only [render, ofAnalysis, assemble, hsources]

/-- The tree of four modules with a later candidate for one of them, and a file that no path leads
to. -/
def crowdedTree : FileTree :=
  ⟨(["a", "left", "init.lua"], .file (.text "return 'other'")) :: (["a", "left"], .directory) ::
    (["b", "notes.txt"], .file (.binary 7)) :: (["b"], .directory) :: diamondTree.entries, ["a"]⟩

theorem crowded_bundled_alike :
    Walk.SameFootprint (.ofConfig diamondConfig noVariables) diamondTree crowdedTree false
        diamondConfig.entry ∧
      analyze crowdedTree noVariables diamondConfig =
        analyze diamondTree noVariables diamondConfig ∧
      ∀ draws, render crowdedTree draws (analyze crowdedTree noVariables diamondConfig) =
        render diamondTree draws (analyze diamondTree noVariables diamondConfig) := by
  have hb : graphOf diamondTree noVariables diamondConfig = .ok diamondGraph :=
    graphOf_of_graphWithin 9 (by decide +kernel)
  have hsame : Walk.SameFootprint (.ofConfig diamondConfig noVariables) diamondTree crowdedTree
      false diamondConfig.entry := Walk.SameFootprint.of_nodes hb rfl (by decide +kernel)
  exact ⟨hsame, footprint_determines_bundle hsame⟩

end Bundle

end

end LuaBundle
