import LuaBundle.Proofs.Analysis.Outcome

/-!
# The policy on missing modules

Two walks of one tree that differ in whether missing modules are tolerated go together step by step.
They come to the same graph or to the same file that cannot be read, so two analyses that differ in
the policy differ in nothing but how severe it is that a module is missing.
-/
namespace LuaBundle

/-- The record as it is where missing modules are tolerated. -/
def MissingRecord.tolerated (m : MissingRecord) : MissingRecord := { m with fatal := false }

theorem MissingRecord.tolerated_eq {m : MissingRecord} (h : m.fatal = false) : m.tolerated = m := by
  rw [tolerated, ← h]

def Config.withPolicy (config : Config) (ignoreMissing : Bool) : Config :=
  { config with modules.ignoreMissing := ignoreMissing }

namespace Walk

variable {r : Resolver} {t : FileTree} {policy policy' : Bool} {w v : Walk} {m : ResolvedModule}
  {source : String}

/-- The walks have come to the same, but for the severity of what is missing. -/
structure Alike (w v : Walk) : Prop where
  graph : w.graph = v.graph
  visited : w.visited = v.visited
  missing : w.missing.map MissingRecord.tolerated = v.missing.map MissingRecord.tolerated

theorem required_policy (policy policy' : Bool) :
    required r t policy m source = required r t policy' m source := by
  rw [required_eq, required_eq]

theorem tolerated_answers :
    ((answers r t policy m source).filterMap Answer.missing).map (fun report => report.1.tolerated) =
      ((answers r t policy' m source).filterMap Answer.missing).map
        fun report => report.1.tolerated := by
  simp only [answers, List.filterMap_map, List.map_filterMap]
  refine List.filterMap_congr fun id _ => ?_
  simp only [Function.comp_apply, answer]
  cases r.resolve t (String.ofList id) (m.filePath.parent?.getD ⟨""⟩) with
  | ok record => rfl
  | error failure => rfl

namespace Alike

theorem enter (h : Alike w v) :
    Alike (w.enter r t policy m source) (v.enter r t policy' m source) where
  graph := by
    simp only [Walk.enter, addNode, addMissing]
    rw [h.graph, required_policy policy policy']
  visited := congrArg (m.filePath.folding :: ·) h.visited
  missing := by
    simp only [Walk.enter, addNode, addMissing, List.map_append, List.map_map]
    exact congrArg₂ (· ++ ·) h.missing tolerated_answers

theorem leaf (h : Alike w v) : Alike (w.leaf m) (v.leaf m) where
  graph := congrArg (DependencyGraph.insert · _) h.graph
  visited := congrArg (m.filePath.folding :: ·) h.visited
  missing := h.missing

/-- Under the other policy the same step is taken. -/
theorem step (policy' : Bool) {s s' : Walk × List ModuleRecord} (hs : Step r t policy s s')
    (h : Alike s.1 v) :
    ∃ v', Step r t policy' (v, s.2) (v', s'.2) ∧ Alike s'.1 v' := by
  cases hs with
  | pass unresolved => exact ⟨v, .pass unresolved, h⟩
  | skip visited => exact ⟨v, .skip (h.visited ▸ visited), h⟩
  | @enter w m rest source fresh analyzed read =>
    refine ⟨v.enter r t policy' m source, ?_, h.enter⟩
    rw [required_policy policy policy']
    exact .enter (h.visited ▸ fresh) analyzed read
  | leaf fresh left => exact ⟨_, .leaf (h.visited ▸ fresh) left, h.leaf⟩

theorem run (policy' : Bool) {s s' : Walk × List ModuleRecord}
    (hs : Relation.ReflTransGen (Step r t policy) s s') (h : Alike s.1 v) :
    ∃ v', Relation.ReflTransGen (Step r t policy') (v, s.2) (v', s'.2) ∧ Alike s'.1 v' := by
  induction hs with
  | refl => exact ⟨v, .refl, h⟩
  | tail _ hstep ih =>
    obtain ⟨v₁, hrun, h₁⟩ := ih
    obtain ⟨v₂, hstep', h₂⟩ := h₁.step policy' hstep
    exact ⟨v₂, hrun.tail hstep', h₂⟩

theorem stops (policy' : Bool) {pending : List ModuleRecord} {failure : Failure}
    (hs : Stops r t policy (w, pending) failure) (h : Alike w v) :
    Stops r t policy' (v, pending) failure := by
  obtain ⟨hrun, fresh, analyzed, unread⟩ := hs
  obtain ⟨v', hrun', h'⟩ := h.run policy' hrun
  exact .unreadable hrun' (h'.visited ▸ fresh) analyzed unread

end Alike

end Walk

section Built

variable {r : Resolver} {t : FileTree} {policy policy' : Bool} {entry : Path} {built : BuiltGraph}

theorem buildGraph_policy (policy' : Bool) (h : buildGraph r t policy entry = .ok built) :
    ∃ built', buildGraph r t policy' entry = .ok built' ∧ built'.entry = built.entry ∧
      built'.graph = built.graph ∧
      built'.missing.map MissingRecord.tolerated = built.missing.map MissingRecord.tolerated := by
  obtain ⟨w, hw, rfl⟩ := buildGraph_eq_ok_iff.mp h
  obtain ⟨v, hrun, halike⟩ := Walk.Alike.run policy' (v := .start)
    (Walk.steps_of_visitAll hw) ⟨rfl, rfl, rfl⟩
  refine ⟨_, buildGraph_eq_ok_iff.mpr ⟨v, ?_, rfl⟩, rfl, halike.graph.symm, halike.missing.symm⟩
  rw [Walk.visitAll_run hrun]
  exact Walk.visitAll_nil

theorem buildGraph_error_policy (policy' : Bool) {failure : Failure}
    (h : buildGraph r t policy entry = .error failure) :
    buildGraph r t policy' entry = .error failure :=
  buildGraph_eq_error_iff.mpr
    (Walk.Alike.stops policy' (buildGraph_eq_error_iff.mp h) ⟨rfl, rfl, rfl⟩)

theorem fatal_of_mem_missing (h : buildGraph r t policy entry = .ok built) {m : MissingRecord}
    (hm : m ∈ built.missing) : m.fatal = !policy := by
  obtain ⟨reports, hmissing, -, hreports⟩ := buildGraph_reports h
  rw [hmissing] at hm
  obtain ⟨report, hreport, rfl⟩ := List.mem_map.mp hm
  obtain ⟨place, htells⟩ := Reports.of_mem hreports hreport
  exact htells.fatal

end Built

/-- The first analysis takes for fatal what the second tolerates; otherwise they are the same. -/
structure Analysis.DiffersInSeverity (strict tolerant : Analysis) : Prop where
  config : tolerant.config = strict.config.withPolicy true
  roots : tolerant.roots = strict.roots
  entryModule : tolerant.entryModule = strict.entryModule
  modules : tolerant.modules = strict.modules
  externals : tolerant.externals = strict.externals
  dependencyGraph : tolerant.dependencyGraph = strict.dependencyGraph
  sortedModules : tolerant.sortedModules = strict.sortedModules
  topologicalOrder : tolerant.topologicalOrder = strict.topologicalOrder
  cycles : tolerant.cycles = strict.cycles
  metrics : tolerant.metrics = strict.metrics
  fatal : ∀ m ∈ strict.missing, m.fatal = true
  missing : tolerant.missing = strict.missing.map MissingRecord.tolerated
  errors : ∃ unresolved, List.Forall₂ MissingRecord.Tells strict.missing unresolved ∧
    strict.errors = unresolved ++ tolerant.errors

variable {t : FileTree} {lookup : String → Option String} {config : Config} {built : BuiltGraph}

theorem not_fatal_of_tolerant (h : graphOf t lookup (config.withPolicy true) = .ok built) :
    ∀ m ∈ built.missing, m.fatal = false :=
  fun _ => fatal_of_mem_missing h

theorem fatal_of_strict (h : graphOf t lookup (config.withPolicy false) = .ok built) :
    ∀ m ∈ built.missing, m.fatal = true :=
  fun _ => fatal_of_mem_missing h

theorem errors_of_tolerant (h : graphOf t lookup (config.withPolicy true) = .ok built) :
    built.errors = [] := by
  have hnone : built.missing.filter MissingRecord.fatal = [] :=
    List.filter_eq_nil_iff.mpr fun m hm => by simp [not_fatal_of_tolerant h m hm]
  have htells := fatal_tells h
  rw [hnone] at htells
  exact List.forall₂_nil_left_iff.mp htells

theorem errors_of_strict (h : graphOf t lookup (config.withPolicy false) = .ok built) :
    List.Forall₂ MissingRecord.Tells built.missing built.errors := by
  have htells := fatal_tells h
  rwa [List.filter_eq_self.mpr (fatal_of_strict h)] at htells

namespace Analysis

theorem differsInSeverity_of_failure {failure : Failure}
    (h : graphOf t lookup (config.withPolicy false) = .error failure) :
    (analyze t lookup (config.withPolicy false)).DiffersInSeverity
      (analyze t lookup (config.withPolicy true)) := by
  have h' : graphOf t lookup (config.withPolicy true) = .error failure :=
    buildGraph_error_policy true h
  rw [analyze_of_failure h, analyze_of_failure h']
  constructor
  case errors => exact ⟨[], .nil, rfl⟩
  case fatal => simp [failed]
  all_goals rfl

theorem differsInSeverity_of_graph
    (h : graphOf t lookup (config.withPolicy false) = .ok built) :
    (analyze t lookup (config.withPolicy false)).DiffersInSeverity
      (analyze t lookup (config.withPolicy true)) := by
  obtain ⟨built', h', hentry, hgraph, hmissing⟩ : ∃ built',
      graphOf t lookup (config.withPolicy true) = .ok built' ∧ built'.entry = built.entry ∧
        built'.graph = built.graph ∧
        built'.missing.map MissingRecord.tolerated = built.missing.map MissingRecord.tolerated :=
    buildGraph_policy true h
  have hkept : built'.missing.map MissingRecord.tolerated = built'.missing.map id :=
    List.map_congr_left fun m hm => MissingRecord.tolerated_eq (not_fatal_of_tolerant h' m hm)
  have hbuilt : built' =
      ⟨built.entry, built.graph, built.missing.map MissingRecord.tolerated, []⟩ := by
    rw [← hentry, ← hgraph, ← hmissing, hkept, List.map_id, ← errors_of_tolerant h']
  rw [analyze_of_graph h, analyze_of_graph h', hbuilt]
  constructor
  case metrics => simp [ofGraph]
  case fatal => exact fatal_of_strict h
  case errors => exact ⟨built.errors, errors_of_strict h, rfl⟩
  all_goals rfl

end Analysis

/-- Tolerating missing modules changes nothing but their severity: a tolerant analysis finds what a
strict one finds, and it is a success exactly if no file stops the walk and the graph has no
cycle. -/
theorem analyze_policy (t : FileTree) (lookup : String → Option String) (config : Config) :
    (analyze t lookup (config.withPolicy false)).DiffersInSeverity
        (analyze t lookup (config.withPolicy true)) ∧
      ((∃ built, graphOf t lookup (config.withPolicy true) = .ok built) ↔
        ∀ failure, ¬ Walk.Stops (Resolver.ofConfig config lookup) t true
          (.start, [(Resolver.ofConfig config lookup).entryRecord t.workingPath config.entry])
          failure) ∧
      ((analyze t lookup (config.withPolicy true)).success = true ↔
        ∃ built, graphOf t lookup (config.withPolicy true) = .ok built ∧ built.graph.Acyclic) := by
  refine ⟨?_, ?_, ?_⟩
  · cases h : graphOf t lookup (config.withPolicy false) with
    | error failure => exact Analysis.differsInSeverity_of_failure h
    | ok built => exact Analysis.differsInSeverity_of_graph h
  · constructor
    · rintro ⟨built, h⟩ failure hstops
      cases h.symm.trans (buildGraph_eq_error_iff.mpr hstops)
    · intro hnone
      cases h : graphOf t lookup (config.withPolicy true) with
      | error failure => exact absurd (buildGraph_eq_error_iff.mp h) (hnone failure)
      | ok built => exact ⟨built, rfl⟩
  · constructor
    · intro hs
      obtain ⟨built, h⟩ := graph_of_success hs
      exact ⟨built, h, ((success_iff_of_graph h).mp hs).2⟩
    · rintro ⟨built, h, hacyclic⟩
      exact (success_iff_of_graph h).mpr ⟨errors_of_tolerant h, hacyclic⟩

end LuaBundle
