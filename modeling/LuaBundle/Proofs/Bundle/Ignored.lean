import LuaBundle.Proofs.Analysis.Outcome
import LuaBundle.Proofs.Bundle.ModuleTable
import LuaBundle.Proofs.Graph.DepthFirst

/-!
# Ignored identifiers

No require of an ignored identifier is followed, so no module but the entry is recorded under one.
Logical names are not looked up among the ignored identifiers: a file inside the source root that is
required by another identifier can still be named like one by its place.
-/
namespace LuaBundle

namespace Resolver

variable {r : Resolver} {t : FileTree} {requireId : String} {requesting : Path}

theorem resolve_ignored (h : normalizeId requireId ∈ r.ignore) :
    r.resolve t requireId requesting = .ok (.ignored (normalizeId requireId)) := by
  simp only [resolve, if_pos h]

/-- The name that a file has by its place inside the source root. -/
def placeName? (r : Resolver) (file : Path) : Option String :=
  (within? r.sourceRoot file).map fun inside => dotted (Path.toSlash inside)

/-- A name other than the identifier comes from the place of the file. -/
theorem Named.eq_iff_placeName? {m : ResolvedModule} (hm : r.Named m) {name : String}
    (hid : m.id ≠ name) : m.moduleName = name ↔ r.placeName? m.filePath = some name := by
  rw [hm, logicalName, ← placeName?]
  cases r.placeName? m.filePath with
  | some place => simp
  | none => simp [hid]

end Resolver

namespace Walk

variable {r : Resolver} {t : FileTree} {ignoreMissing : Bool} {directory : Path} {source : String}
  {record : ModuleRecord}

theorem id_not_ignored (h : record ∈ requireRecords r t directory source) :
    record.id ∉ r.ignore := by
  obtain ⟨id, hid, hrecord⟩ := List.mem_filterMap.mp h
  have hne := normalizeId_ne_empty (Lua.findRequires_ne_nil hid)
  have hresolve : normalizeId (String.ofList id) ∈ r.ignore →
      r.resolve t (String.ofList id) directory = .ok (.ignored _) := Resolver.resolve_ignored
  unfold requireRecord? at hrecord
  split at hrecord
  · next found hfound =>
    rcases Resolver.resolve_cases hfound with rfl | ⟨m, rfl, -, -, -, hname⟩
    · cases hrecord
    · cases hrecord
      intro hignored
      rw [show ModuleRecord.id (.resolved m) = _ from hname hne] at hignored
      cases hfound.symm.trans (hresolve hignored)
  · next failure hfailure =>
    cases hrecord
    intro hignored
    cases hfailure.symm.trans (hresolve hignored)

theorem mem_successors {m : ResolvedModule} (h : record ∈ successors r t m) :
    ∃ source, record ∈ requireRecords r t (m.filePath.parent?.getD ⟨""⟩) source := by
  unfold successors at h
  split at h
  · split at h
    · next source _ => exact ⟨source, h⟩
    · cases h
  · cases h

theorem Explored.edge_not_ignored {n : GraphNode} {m : ResolvedModule} {e : Edge}
    (h : Explored r t ignoreMissing n m) (he : e ∈ n.dependencies) : e.id ∉ r.ignore := by
  obtain ⟨source, record, hrecord, rfl⟩ := h.exists_record he
  exact id_not_ignored (required_eq m source ▸ hrecord)

end Walk

theorem node_not_ignored {r : Resolver} {t : FileTree} {ignoreMissing : Bool} {entry : Path}
    {built : BuiltGraph} (h : buildGraph r t ignoreMissing entry = .ok built) {n : GraphNode}
    (hn : n ∈ built.graph.nodes) (hentry : n.module ≠ built.entry) : n.module.id ∉ r.ignore := by
  obtain ⟨-, -, m, -, hnext⟩ := (buildGraph_origin h hn).resolve_left hentry
  obtain ⟨source, hrecord⟩ := Walk.mem_successors hnext
  exact Walk.id_not_ignored hrecord

end LuaBundle

namespace LuaBundle.Bundle

variable {t : FileTree} {lookup : String → Option String} {config : Config} {built : BuiltGraph}
  {b : Tables} {id name : String}

theorem dependencyGraph_of_graph (hb : graphOf t lookup config = .ok built) :
    (analyze t lookup config).dependencyGraph = Analysis.edgeRows built.graph := by
  rw [analyze_of_graph hb]
  rfl

theorem exists_node_of_row (hb : graphOf t lookup config = .ok built) {requester : String}
    {edges : List Edge}
    (h : (analyze t lookup config).dependencyGraph.get? requester = some edges) :
    ∃ n ∈ built.graph.nodes, n.dependencies = edges := by
  rw [dependencyGraph_of_graph hb, get?_edgeRows] at h
  obtain ⟨n, hn, hedges⟩ := Option.map_eq_some_iff.mp h
  exact ⟨n, List.mem_of_find?_eq_some hn, hedges⟩

/-- An ignored identifier is no alias of anything. -/
theorem alias?_ignored (hb : graphOf t lookup config = .ok built)
    (ht : tablesOf t (analyze t lookup config) = .ok b)
    (hid : id ∈ config.modules.ignore.map normalizeId) (requester : String) :
    b.alias? requester id = none := by
  have hg := (buildGraph_complete hb).1
  obtain ⟨sources, -, rfl⟩ := tablesOf_eq (dependencyGraph_of_graph hb) ht
  refine Option.eq_none_iff_forall_not_mem.mpr fun name halias => ?_
  obtain ⟨edges, hedges, hget, -⟩ := alias?_tables.mp halias
  rw [← dependencyGraph_of_graph hb] at hedges
  obtain ⟨n, hn, rfl⟩ := exists_node_of_row hb hedges
  obtain ⟨e, he, heq⟩ := List.mem_map.mp (OrderedMap.mem_of_get?_ofList hget)
  obtain ⟨m, hexplored⟩ := hg.explored n hn
  obtain ⟨rfl, rfl⟩ := Prod.mk.inj heq
  exact hexplored.edge_not_ignored (List.mem_of_mem_filter he) hid

/-- Requiring an ignored identifier is answered from the bundle exactly if a module is named so. -/
theorem target?_ignored (hb : graphOf t lookup config = .ok built)
    (hs : (analyze t lookup config).success = true)
    (ht : tablesOf t (analyze t lookup config) = .ok b)
    (hid : id ∈ config.modules.ignore.map normalizeId) (requester : String) :
    b.target? requester id = some name ↔
      name = id ∧ ∃ n ∈ built.graph.nodes, nodeName n = id := by
  rw [Tables.target?, alias?_ignored hb ht hid, Option.none_or, ← mem_keys_iff hb hs ht,
    ← isSome_lookup_iff_mem_keys]
  split
  · next hsome => simp [hsome, eq_comm]
  · next hnone => simp [hnone]

/-- The package is required under its own name, which is ignored, and under another one. -/
def ignoringConfig : Config :=
  let config := mainConfig twinTree
  { config with modules := { config.modules with ignore := ["pkg"] } }

end LuaBundle.Bundle
