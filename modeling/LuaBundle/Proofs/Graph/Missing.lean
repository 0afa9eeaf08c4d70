import LuaBundle.Proofs.Graph.DepthFirst

/-!
# Requires that lead nowhere

A require that is not resolved leaves a missing edge at its node, a record in the list of what is
missing and, if it is fatal, its failure among the errors. The three lists are filled module by
module, so they stay in step: the records are those of the missing edges, in the order in which the
modules are met.
-/
namespace LuaBundle

/-- The missing edges of the nodes, each with its node, in order. -/
def missingEdges (nodes : List GraphNode) : List (GraphNode × Edge) :=
  nodes.flatMap fun n => (n.dependencies.filter Edge.isMissing).map fun e => (n, e)

theorem missingEdges_append (nodes nodes' : List GraphNode) :
    missingEdges (nodes ++ nodes') = missingEdges nodes ++ missingEdges nodes' :=
  List.flatMap_append

theorem missingEdges_singleton (n : GraphNode) :
    missingEdges [n] = (n.dependencies.filter Edge.isMissing).map fun e => (n, e) :=
  List.flatMap_singleton ..

/-- The record and the failure belong to the require that left a missing edge at a node. -/
structure Reports (r : Resolver) (t : FileTree) (ignoreMissing : Bool) (place : GraphNode × Edge)
    (report : MissingRecord × Failure) : Prop where
  requiredBy : report.1.requiredBy = place.1.module.moduleName
  id : normalizeId report.1.requireId = place.2.id
  name : report.1.moduleName = place.2.moduleName
  overrideApplied : report.1.overrideApplied = place.2.overrideApplied
  fatal : report.1.fatal = !ignoreMissing
  message : report.1.message = report.2.message
  code : report.1.code = report.2.code
  unresolved : r.resolve t report.1.requireId (place.1.path.parent?.getD ⟨""⟩) = .error report.2
  resolution : report.2.isResolution = true

namespace Resolver

variable {r : Resolver} {t : FileTree} {id : String} {requesting : Path}

/-- Resolving fails only for want of a file. -/
theorem isResolution_of_resolve {failure : Failure}
    (h : r.resolve t id requesting = .error failure) : failure.isResolution = true := by
  simp only [resolve] at h
  split at h
  · cases h
  · split at h
    · cases h
    · cases h
      rfl
    · cases h
      rfl

theorem isMissing_of_resolve {record : ModuleRecord}
    (h : r.resolve t id requesting = .ok record) : record.isMissing = false := by
  rcases resolve_cases h with rfl | ⟨m, rfl, -⟩
  · rfl
  · rfl

end Resolver

namespace Walk

variable {r : Resolver} {t : FileTree} {ignoreMissing : Bool}

/-! ### One module -/

/-- The answer to a require of the node's module. -/
def answerAt (r : Resolver) (t : FileTree) (ignoreMissing : Bool) (n : GraphNode)
    (id : List Char) : Answer :=
  answer r t ignoreMissing n.module.moduleName (n.path.parent?.getD ⟨""⟩) (String.ofList id)

/-- A require is reported exactly if its record is missing. -/
theorem answerAt_cases (r : Resolver) (t : FileTree) (ignoreMissing : Bool) (n : GraphNode)
    (id : List Char) :
    ((answerAt r t ignoreMissing n id).missing = none ∧
        ∀ record, (answerAt r t ignoreMissing n id).record = some record →
          record.edge.isMissing = false) ∨
      ∃ record report, (answerAt r t ignoreMissing n id).record = some record ∧
        (answerAt r t ignoreMissing n id).missing = some report ∧
        record.edge.isMissing = true ∧ Reports r t ignoreMissing (n, record.edge) report := by
  rw [answerAt, answer]
  cases hid : r.resolve t (String.ofList id) (n.path.parent?.getD ⟨""⟩) with
  | ok record =>
    refine .inl ⟨rfl, fun record' hrecord => ?_⟩
    by_cases hignored : record.isIgnored = true
    · simp [hignored] at hrecord
    · simp only [hignored, Bool.false_eq_true, if_false, Option.some.injEq] at hrecord
      subst hrecord
      exact Resolver.isMissing_of_resolve hid
  | error failure =>
    exact .inr ⟨_, _, rfl, rfl, rfl,
      ⟨rfl, rfl, rfl, rfl, rfl, rfl, rfl, hid, Resolver.isResolution_of_resolve hid⟩⟩

theorem reports_answers (n : GraphNode) (ids : List (List Char)) :
    List.Forall₂ (Reports r t ignoreMissing)
      (((((ids.map (answerAt r t ignoreMissing n)).filterMap Answer.record).map
        ModuleRecord.edge).filter Edge.isMissing).map fun e => (n, e))
      ((ids.map (answerAt r t ignoreMissing n)).filterMap Answer.missing) := by
  induction ids with
  | nil => exact .nil
  | cons id ids ih =>
    rw [List.map_cons]
    -- either an edge and its report come in here or neither does
    rcases answerAt_cases r t ignoreMissing n id with
      ⟨hnone, hfound⟩ | ⟨record, report, hrecord, hreport, hmissing, hreports⟩
    · rw [List.filterMap_cons_none hnone]
      cases hrecord : (answerAt r t ignoreMissing n id).record with
      | none => rwa [List.filterMap_cons_none hrecord]
      | some record =>
        rw [List.filterMap_cons_some hrecord, List.map_cons,
          List.filter_cons_of_neg (by simp [hfound record hrecord])]
        exact ih
    · rw [List.filterMap_cons_some hrecord, List.filterMap_cons_some hreport, List.map_cons,
        List.filter_cons_of_pos hmissing, List.map_cons]
      exact .cons hreports ih

/-! ### Along a walk -/

/-- What is missing and what went wrong so far is what the missing edges of the nodes stand for. -/
def Recorded (r : Resolver) (t : FileTree) (ignoreMissing : Bool) (w : Walk) : Prop :=
  ∃ reports, w.missing = reports.map Prod.fst ∧
    w.errors = (reports.filter (·.1.fatal)).map Prod.snd ∧
    List.Forall₂ (Reports r t ignoreMissing) (missingEdges w.graph.nodes) reports

namespace Recorded

variable {entry : ResolvedModule}

theorem start : Recorded r t ignoreMissing .start := ⟨[], rfl, rfl, .nil⟩

/-- A node is put last, and its reports behind the others. -/
theorem add {w w' : Walk} {n : GraphNode} {reports : List (MissingRecord × Failure)}
    (h : Recorded r t ignoreMissing w) (hnodes : w'.graph.nodes = w.graph.nodes ++ [n])
    (hmissing : w'.missing = w.missing ++ reports.map Prod.fst)
    (herrors : w'.errors = w.errors ++ (reports.filter (·.1.fatal)).map Prod.snd)
    (hreports : List.Forall₂ (Reports r t ignoreMissing) (missingEdges [n]) reports) :
    Recorded r t ignoreMissing w' := by
  obtain ⟨earlier, hmissing', herrors', hearlier⟩ := h
  refine ⟨earlier ++ reports, ?_, ?_, ?_⟩
  · rw [hmissing, hmissing', List.map_append]
  · rw [herrors, herrors', List.filter_append, List.map_append]
  · rw [hnodes, missingEdges_append]
    exact List.rel_append hearlier hreports

theorem step {s s' : Walk × List ModuleRecord} (hs : Step r t ignoreMissing s s')
    (hgrown : Grown r t ignoreMissing entry s.1 s.2) (h : Recorded r t ignoreMissing s.1) :
    Recorded r t ignoreMissing s'.1 := by
  cases hs with
  | pass unresolved => exact h
  | skip visited => exact h
  | @enter w m rest source fresh analyzed read =>
    let n : GraphNode := ⟨m.filePath, .resolved m,
      (required r t ignoreMissing m source).map ModuleRecord.edge⟩
    refine h.add (n := n) (hgrown.nodes_insert fresh rfl) rfl rfl ?_
    rw [missingEdges_singleton]
    exact reports_answers n (Lua.findRequires source.toList)
  | @leaf w m rest fresh left =>
    let n : GraphNode := ⟨m.filePath, .resolved m, []⟩
    have hnone : List.Forall₂ (Reports r t ignoreMissing) (missingEdges [n]) [] := .nil
    exact h.add (hgrown.nodes_insert fresh rfl) (List.append_nil _).symm (List.append_nil _).symm
      hnone

theorem run {s s' : Walk × List ModuleRecord}
    (hs : Relation.ReflTransGen (Step r t ignoreMissing) s s')
    (hgrown : Grown r t ignoreMissing entry s.1 s.2) (h : Recorded r t ignoreMissing s.1) :
    Recorded r t ignoreMissing s'.1 := by
  induction hs with
  | refl => exact h
  | tail hrun hstep ih => exact ih.step hstep (hgrown.run hrun)

end Recorded

end Walk

variable {r : Resolver} {t : FileTree} {ignoreMissing : Bool}

theorem Reports.filter_fatal {places : List (GraphNode × Edge)}
    {reports : List (MissingRecord × Failure)}
    (h : List.Forall₂ (Reports r t ignoreMissing) places reports) :
    reports.filter (·.1.fatal) = if ignoreMissing then [] else reports := by
  induction h with
  | nil => simp
  | cons hreport _ ih =>
    rw [List.filter_cons, hreport.fatal, ih]
    cases ignoreMissing <;> rfl

theorem Reports.of_mem {places : List (GraphNode × Edge)}
    {reports : List (MissingRecord × Failure)}
    (h : List.Forall₂ (Reports r t ignoreMissing) places reports)
    {report : MissingRecord × Failure} (hreport : report ∈ reports) :
    ∃ place, Reports r t ignoreMissing place report := by
  induction h with
  | nil => cases hreport
  | cons hfirst _ ih =>
    rcases List.mem_cons.mp hreport with rfl | hreport
    · exact ⟨_, hfirst⟩
    · exact ih hreport

/-- The failure is the one that resolving the edge's identifier gives. -/
theorem Reports.failure_eq {place : GraphNode × Edge} {report : MissingRecord × Failure}
    (h : Reports r t ignoreMissing place report) (id : String) {failure : Failure}
    (hid : place.2.id = normalizeId id)
    (hfailure : r.resolve t id (place.1.path.parent?.getD ⟨""⟩) = .error failure) :
    report.2 = failure := by
  have hsame : r.resolve t report.1.requireId (place.1.path.parent?.getD ⟨""⟩) =
      r.resolve t id (place.1.path.parent?.getD ⟨""⟩) := Resolver.resolve_congr (h.id.trans hid)
  rw [h.unresolved, hfailure] at hsame
  exact Except.error.inj hsame

/-- The reports that a walk from an entry has left. -/
theorem buildGraph_reports {entry : Path} {built : BuiltGraph}
    (h : buildGraph r t ignoreMissing entry = .ok built) :
    ∃ reports, built.missing = reports.map Prod.fst ∧
      built.errors = (reports.filter (·.1.fatal)).map Prod.snd ∧
      List.Forall₂ (Reports r t ignoreMissing) (missingEdges built.graph.nodes) reports := by
  obtain ⟨m, w, rfl, hstart, hrun⟩ := run_of_buildGraph h
  exact Walk.Recorded.run hrun hstart .start

/-- What is missing, and with it the errors, follows the missing edges of the nodes one by one, and
the nodes are in the order in which modules are met depth first. -/
theorem Analyzer.missing_reported (a : Analyzer) (t : FileTree) (entry : Path) {built : BuiltGraph}
    (h : (a.build t entry).1 = .ok built) :
    ∃ reports, built.missing = reports.map Prod.fst ∧
      built.errors = (if a.ignoreMissing then [] else reports.map Prod.snd) ∧
      List.Forall₂ (Reports a.resolver t a.ignoreMissing) (missingEdges built.graph.nodes) reports ∧
      ∀ met, Walk.DepthFirst (Walk.successors a.resolver t) [] [built.entry] met ↔
        built.graph.nodes.map GraphNode.module = met.map .resolved := by
  rw [fst_build_eq] at h
  obtain ⟨reports, hmissing, herrors, hreports⟩ := buildGraph_reports h
  refine ⟨reports, hmissing, ?_, hreports, buildGraph_met h⟩
  rw [herrors, Reports.filter_fatal hreports]
  cases a.ignoreMissing <;> rfl

/-- Two occurrences in the entry and one in the module that it requires. -/
theorem mutual_losses_reported :
    ∃ built, ((Analyzer.fresh mutualResolver false).build mutualTree ⟨"main.lua"⟩).1 = .ok built ∧
      built.missing.map (fun m => (m.requiredBy, m.moduleName, m.overrideApplied)) =
        [("main", "gone", false), ("main", "gone", false), ("child", "lost", true)] ∧
      built.errors =
        [.moduleNotFound "gone", .moduleNotFound "gone", .overrideNotFound "lost" "nowhere"] := by
  have hwalk : ∃ built, buildGraph mutualResolver mutualTree false ⟨"main.lua"⟩ = .ok built ∧
      built.graph.nodes = [mainNode, childNode] :=
    exists_built_of_visitWithin 8 (by decide +kernel)
  obtain ⟨built, hbuilt, hnodes⟩ := hwalk
  obtain ⟨reports, hmissing, herrors, hreports, -⟩ :=
    (Analyzer.fresh mutualResolver false).missing_reported mutualTree ⟨"main.lua"⟩ hbuilt
  have hplaces : missingEdges built.graph.nodes =
      [(mainNode, goneEdge), (mainNode, goneEdge), (childNode, lostEdge)] := by
    rw [hnodes]
    decide
  rw [hplaces] at hreports
  obtain _ | ⟨hfirst, _ | ⟨hsecond, _ | ⟨hthird, _ | _⟩⟩⟩ := hreports
  have hgone : mutualResolver.resolve mutualTree "gone" (mainNode.path.parent?.getD ⟨""⟩) =
      .error (.moduleNotFound "gone") := by
    decide +kernel
  have hlost : mutualResolver.resolve mutualTree "lost" (childNode.path.parent?.getD ⟨""⟩) =
      .error (.overrideNotFound "lost" "nowhere") := by
    decide +kernel
  refine ⟨built, hbuilt, ?_, ?_⟩
  · simp only [hmissing, List.map_cons, List.map_nil, hfirst.requiredBy, hfirst.name,
      hfirst.overrideApplied, hsecond.requiredBy, hsecond.name, hsecond.overrideApplied,
      hthird.requiredBy, hthird.name, hthird.overrideApplied]
    rfl
  · rw [herrors]
    simp only [List.map_cons, List.map_nil, hfirst.failure_eq "gone" rfl hgone,
      hsecond.failure_eq "gone" rfl hgone, hthird.failure_eq "lost" rfl hlost]
    rfl

end LuaBundle
