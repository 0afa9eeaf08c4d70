import LuaBundle.Proofs.Graph.Order
import Mathlib.Order.WellFounded

/-!
# The walk is depth first

Every run of steps ends, with nothing pending or at a file that cannot be read. A walk that ends has
met modules depth first: its nodes are those that were met, each under the record by which its file
was met for the first time. What an earlier walk left behind does not matter.
-/
namespace LuaBundle.Walk

variable {r : Resolver} {t : FileTree} {ignoreMissing : Bool}

/-! ### Requires as records -/

/-- What becomes of one require: nothing if it is ignored, a missing record if it is not resolved. -/
def requireRecord? (r : Resolver) (t : FileTree) (directory : Path) (id : String) :
    Option ModuleRecord :=
  match r.resolve t id directory with
  | .ok record => if record.isIgnored then none else some record
  | .error failure => some (Resolver.missingRecord id failure)

/-- The records of all requires in a text, in order. -/
def requireRecords (r : Resolver) (t : FileTree) (directory : Path) (source : String) :
    List ModuleRecord :=
  (Lua.findRequires source.toList).filterMap fun id =>
    requireRecord? r t directory (String.ofList id)

/-- The records that a module leads to; there are none if it is not to be scanned. -/
def successors (r : Resolver) (t : FileTree) (m : ResolvedModule) : List ModuleRecord :=
  if m.analyzeDependencies then
    match t.readText m.filePath with
    | .ok source => requireRecords r t (m.filePath.parent?.getD ⟨""⟩) source
    | .error _ => []
  else []

theorem record_answer (requiredBy : String) (directory : Path) (id : String) :
    (answer r t ignoreMissing requiredBy directory id).record = requireRecord? r t directory id := by
  unfold answer requireRecord?
  cases r.resolve t id directory with
  | ok record => rfl
  | error failure => rfl

theorem required_eq (m : ResolvedModule) (source : String) :
    required r t ignoreMissing m source =
      requireRecords r t (m.filePath.parent?.getD ⟨""⟩) source := by
  simp only [required, answers, requireRecords, List.filterMap_map, Function.comp_def,
    record_answer]

theorem successors_of_read {m : ResolvedModule} {source : String}
    (analyzed : m.analyzeDependencies = true) (read : t.readText m.filePath = .ok source) :
    successors r t m = required r t ignoreMissing m source := by
  simp only [successors, analyzed, if_true, read, required_eq]

theorem successors_of_left {m : ResolvedModule} (left : m.analyzeDependencies = false) :
    successors r t m = [] := by
  simp [successors, left]

/-! ### Runs end -/

/-- A step visits a file of the tree for the first time, or it leaves fewer records pending. -/
theorem Step.decreases {s s' : Walk × List ModuleRecord} (h : Step r t ignoreMissing s s') :
    Prod.Lex (· < ·) (· < ·) (t.unvisited s'.1.visited, s'.2.length)
      (t.unvisited s.1.visited, s.2.length) := by
  cases h with
  | pass unresolved => exact .right _ (by simp)
  | skip visited => exact .right _ (by simp)
  | enter fresh analyzed read =>
    exact .left _ _ (FileTree.unvisited_cons_lt (FileTree.folding_of_readText read) fresh)
  -- a module that is not scanned need not be a file of the tree
  | @leaf w m rest fresh left =>
    show Prod.Lex _ _ (t.unvisited (m.filePath.folding :: w.visited), _) _
    rcases Nat.lt_or_eq_of_le (t.unvisited_cons_le m.filePath.folding w.visited) with hlt | heq
    · exact .left _ _ hlt
    · rw [heq]
      exact .right _ (by simp)

theorem wellFounded_step (r : Resolver) (t : FileTree) (ignoreMissing : Bool) :
    WellFounded fun s' s => Step r t ignoreMissing s s' :=
  Subrelation.wf (fun h => Step.decreases h)
    (InvImage.wf (fun s : Walk × List ModuleRecord => (t.unvisited s.1.visited, s.2.length))
      (WellFounded.prod_lex wellFounded_lt wellFounded_lt))

/-- A run comes to a module that is to be scanned and cannot be read. -/
inductive Stops (r : Resolver) (t : FileTree) (ignoreMissing : Bool)
    (s : Walk × List ModuleRecord) : Failure → Prop where
  | unreadable {w : Walk} {m : ResolvedModule} {rest : List ModuleRecord} {fault : FileFault}
      (run : Relation.ReflTransGen (Step r t ignoreMissing) s (w, .resolved m :: rest))
      (fresh : m.filePath.folding ∉ w.visited) (analyzed : m.analyzeDependencies = true)
      (unread : t.readText m.filePath = .error fault) :
      Stops r t ignoreMissing s (.access m.filePath.text fault.message)

theorem Stops.head {s s' : Walk × List ModuleRecord} {failure : Failure}
    (hstep : Step r t ignoreMissing s s') (h : Stops r t ignoreMissing s' failure) :
    Stops r t ignoreMissing s failure := by
  cases h with
  | unreadable run fresh analyzed unread =>
    exact .unreadable (.head hstep run) fresh analyzed unread

theorem stops_of_visitAll {w : Walk} {pending : List ModuleRecord} {stopped : Stopped}
    (h : visitAll r t ignoreMissing w pending = .error stopped) :
    Stops r t ignoreMissing (w, pending) stopped.failure := by
  induction w, pending using visitAll.induct r t ignoreMissing with
  | case1 w =>
    rw [visitAll_nil] at h
    cases h
  | case2 w id rest ih =>
    rw [visitAll_pass rfl] at h
    exact (ih h).head (.pass rfl)
  | case3 w id message overridden rest ih =>
    rw [visitAll_pass rfl] at h
    exact (ih h).head (.pass rfl)
  | case4 w m rest hv ih =>
    rw [visitAll_skip hv] at h
    exact (ih h).head (.skip hv)
  | case5 w m rest hv ha fault hr =>
    obtain ⟨_, hstop, hfailure⟩ := visitAll_stop hv ha hr
    rw [hstop] at h
    cases h
    rw [hfailure]
    exact .unreadable .refl hv ha hr
  | case6 w m rest hv _ ha source hr _ _ _ ih =>
    rw [visitAll_enter hv ha hr] at h
    exact (ih h).head (.enter hv ha hr)
  | case7 w m rest hv _ ha ih =>
    have ha : m.analyzeDependencies = false := by simpa using ha
    rw [visitAll_leaf hv ha] at h
    exact (ih h).head (.leaf hv ha)

/-- What a walk comes to is the same from every point of its run. -/
theorem visitAll_run {s s' : Walk × List ModuleRecord}
    (hs : Relation.ReflTransGen (Step r t ignoreMissing) s s') :
    visitAll r t ignoreMissing s.1 s.2 = visitAll r t ignoreMissing s'.1 s'.2 := by
  induction hs with
  | refl => rfl
  | tail _ hstep ih =>
    rw [ih]
    cases hstep with
    | pass unresolved => exact visitAll_pass unresolved
    | skip visited => exact visitAll_skip visited
    | enter fresh analyzed read => exact visitAll_enter fresh analyzed read
    | leaf fresh left => exact visitAll_leaf fresh left

theorem visitAll_eq_error_iff {w : Walk} {pending : List ModuleRecord} {failure : Failure} :
    (∃ stopped, visitAll r t ignoreMissing w pending = .error stopped ∧
      stopped.failure = failure) ↔ Stops r t ignoreMissing (w, pending) failure := by
  constructor
  · rintro ⟨stopped, h, rfl⟩
    exact stops_of_visitAll h
  · rintro ⟨run, fresh, analyzed, unread⟩
    rw [visitAll_run run]
    exact visitAll_stop fresh analyzed unread

/-! ### Meeting modules depth first -/

/-- Going through records with the modules in `before` met already, these modules are met, in this
order. What a module leads to comes right after it, and a module whose file was met before is passed
over. -/
inductive DepthFirst (next : ResolvedModule → List ModuleRecord) :
    List ResolvedModule → List ModuleRecord → List ResolvedModule → Prop where
  | nil {before : List ResolvedModule} : DepthFirst next before [] []
  | pass {before : List ResolvedModule} {record : ModuleRecord} {rest : List ModuleRecord}
      {met : List ResolvedModule} (unresolved : record.asResolved? = none)
      (onward : DepthFirst next before rest met) : DepthFirst next before (record :: rest) met
  | again {before : List ResolvedModule} {m : ResolvedModule} {rest : List ModuleRecord}
      {met : List ResolvedModule}
      (known : ∃ k ∈ before, k.filePath.components = m.filePath.components)
      (onward : DepthFirst next before rest met) : DepthFirst next before (.resolved m :: rest) met
  | meet {before : List ResolvedModule} {m : ResolvedModule} {rest : List ModuleRecord}
      {below later : List ResolvedModule}
      (fresh : ∀ k ∈ before, k.filePath.components ≠ m.filePath.components)
      (down : DepthFirst next (before ++ [m]) (next m) below)
      (onward : DepthFirst next (before ++ m :: below) rest later) :
      DepthFirst next before (.resolved m :: rest) (m :: (below ++ later))

namespace DepthFirst

variable {next : ResolvedModule → List ModuleRecord} {before met met' : List ResolvedModule}
  {records : List ModuleRecord}

/-- What is met first in a row of records is met before the rest. -/
theorem split {front back : List ModuleRecord} (h : DepthFirst next before (front ++ back) met) :
    ∃ below later, met = below ++ later ∧ DepthFirst next before front below ∧
      DepthFirst next (before ++ below) back later := by
  generalize hrecords : front ++ back = records at h
  induction h generalizing front with
  | nil =>
    obtain ⟨rfl, rfl⟩ := List.append_eq_nil_iff.mp hrecords
    exact ⟨[], [], rfl, .nil, .nil⟩
  | @pass before record rest met unresolved onward ih =>
    cases front with
    | nil =>
      cases hrecords
      exact ⟨[], met, rfl, .nil, by simpa using onward.pass unresolved⟩
    | cons first front =>
      obtain ⟨rfl, hrest⟩ := List.cons.inj hrecords
      obtain ⟨below, later, rfl, hfront, hback⟩ := ih hrest
      exact ⟨below, later, rfl, hfront.pass unresolved, hback⟩
  | @again before m rest met known onward ih =>
    cases front with
    | nil =>
      cases hrecords
      exact ⟨[], met, rfl, .nil, by simpa using onward.again known⟩
    | cons first front =>
      obtain ⟨rfl, hrest⟩ := List.cons.inj hrecords
      obtain ⟨below, later, rfl, hfront, hback⟩ := ih hrest
      exact ⟨below, later, rfl, hfront.again known, hback⟩
  | @meet before m rest inner outer fresh down onward _ ih =>
    cases front with
    | nil =>
      cases hrecords
      exact ⟨[], _, rfl, .nil, by simpa using down.meet fresh onward⟩
    | cons first front =>
      obtain ⟨rfl, hrest⟩ := List.cons.inj hrecords
      obtain ⟨below, later, rfl, hfront, hback⟩ := ih hrest
      refine ⟨m :: (inner ++ below), later, by simp, down.meet fresh hfront, ?_⟩
      simpa using hback

/-- A module that is met is one of the records, or another module that is met leads to it. -/
theorem origin (h : DepthFirst next before records met) {m : ResolvedModule} (hm : m ∈ met) :
    .resolved m ∈ records ∨ ∃ k ∈ met, .resolved m ∈ next k := by
  induction h with
  | nil => cases hm
  | pass _ _ ih => exact (ih hm).imp_left (List.mem_cons_of_mem _)
  | again _ _ ih => exact (ih hm).imp_left (List.mem_cons_of_mem _)
  | @meet before first rest below later _ _ _ ihdown ihonward =>
    rcases List.mem_cons.mp hm with rfl | hm
    · exact .inl (List.mem_cons_self ..)
    refine .imp_left (List.mem_cons_of_mem _) ?_
    rcases List.mem_append.mp hm with hbelow | hlater
    · refine .inr ?_
      rcases ihdown hbelow with hfirst | ⟨k, hk, hnext⟩
      · exact ⟨first, List.mem_cons_self .., hfirst⟩
      · exact ⟨k, List.mem_cons_of_mem _ (List.mem_append_left _ hk), hnext⟩
    · refine (ihonward hlater).imp_right ?_
      rintro ⟨k, hk, hnext⟩
      exact ⟨k, List.mem_cons_of_mem _ (List.mem_append_right _ hk), hnext⟩

theorem unique (h : DepthFirst next before records met) (h' : DepthFirst next before records met') :
    met = met' := by
  induction h generalizing met' with
  | nil =>
    cases h'
    rfl
  | pass unresolved _ ih =>
    cases h' with
    | pass _ onward => exact ih onward
    | again => cases unresolved
    | meet => cases unresolved
  | again known _ ih =>
    cases h' with
    | pass unresolved _ => cases unresolved
    | again _ onward => exact ih onward
    | meet fresh _ _ =>
      obtain ⟨k, hk, hfile⟩ := known
      exact absurd hfile (fresh k hk)
  | meet fresh _ _ ihdown ih =>
    cases h' with
    | pass unresolved _ => cases unresolved
    | again known _ =>
      obtain ⟨k, hk, hfile⟩ := known
      exact absurd hfile (fresh k hk)
    | meet _ down onward =>
      cases ihdown down
      cases ih onward
      rfl

end DepthFirst

namespace Grown

variable {entry m : ResolvedModule} {w : Walk} {pending rest : List ModuleRecord} {n : GraphNode}

/-- A node for a fresh file is put behind the others. -/
theorem nodes_insert (h : Grown r t ignoreMissing entry w (.resolved m :: rest))
    (fresh : m.filePath.folding ∉ w.visited) (hn : n.path = m.filePath) :
    (w.graph.insert n).nodes = w.graph.nodes ++ [n] :=
  DependencyGraph.putNode_of_new
    (h.key_ne_of_fresh (h.plain m (List.mem_cons_self ..)).1 fresh hn)

variable {before : List ResolvedModule}

theorem known_of_visited (h : Grown r t ignoreMissing entry w (.resolved m :: rest))
    (hbefore : w.graph.nodes.map GraphNode.module = before.map .resolved)
    (visited : m.filePath.folding ∈ w.visited) :
    ∃ k ∈ before, k.filePath.components = m.filePath.components := by
  obtain ⟨n, hn, hpath⟩ := h.path_of_visited (h.plain m (List.mem_cons_self ..)).1 visited
  obtain ⟨k, hk⟩ := h.explored n hn
  have hmem : n.module ∈ before.map ModuleRecord.resolved :=
    hbefore ▸ List.mem_map_of_mem hn
  obtain ⟨k', hk', hmodule⟩ := List.mem_map.mp hmem
  obtain rfl : k' = k := ModuleRecord.resolved.inj (hmodule.trans hk.module)
  exact ⟨k', hk', by rw [← hk.path, hpath]⟩

theorem fresh_of_not_visited (h : Grown r t ignoreMissing entry w (.resolved m :: rest))
    (hbefore : w.graph.nodes.map GraphNode.module = before.map .resolved)
    (fresh : m.filePath.folding ∉ w.visited) :
    ∀ k ∈ before, k.filePath.components ≠ m.filePath.components := by
  intro k hk hfile
  have hmem : ModuleRecord.resolved k ∈ w.graph.nodes.map GraphNode.module :=
    hbefore ▸ List.mem_map_of_mem hk
  obtain ⟨n, hn, hmodule⟩ := List.mem_map.mp hmem
  obtain ⟨k', hk'⟩ := h.explored n hn
  obtain rfl : k' = k := ModuleRecord.resolved.inj (hk'.module.symm.trans hmodule)
  let new : GraphNode := ⟨m.filePath, .resolved m, []⟩
  have hne := h.key_ne_of_fresh (n := new) (h.plain m (List.mem_cons_self ..)).1 fresh rfl n hn
  exact hne (by rw [GraphNode.key, hk'.path, hfile]; rfl)

/-- From any point of a walk on, the nodes that are still added are those that are met depth first
from the pending records. -/
theorem depthFirst {s s' : Walk × List ModuleRecord}
    (hs : Relation.ReflTransGen (Step r t ignoreMissing) s s') (hend : s'.2 = [])
    (h : Grown r t ignoreMissing entry s.1 s.2) :
    ∃ added met, s'.1.graph.nodes = s.1.graph.nodes ++ added ∧
      added.map GraphNode.module = met.map .resolved ∧
      ∀ before, s.1.graph.nodes.map GraphNode.module = before.map .resolved →
        DepthFirst (successors r t) before s.2 met := by
  induction hs using Relation.ReflTransGen.head_induction_on with
  | refl => exact ⟨[], [], by simp, rfl, fun before _ => hend ▸ .nil⟩
  | @head s s₁ hstep _ ih =>
    obtain ⟨added, met, hnodes, hadded, hmet⟩ := ih (h.step hstep)
    cases hstep with
    | pass unresolved =>
      exact ⟨added, met, hnodes, hadded, fun before hbefore => .pass unresolved (hmet before hbefore)⟩
    | skip visited =>
      refine ⟨added, met, hnodes, hadded, fun before hbefore => ?_⟩
      exact .again (h.known_of_visited hbefore visited) (hmet before hbefore)
    | @enter w m rest source fresh analyzed read =>
      let n : GraphNode := ⟨m.filePath, .resolved m,
        (required r t ignoreMissing m source).map ModuleRecord.edge⟩
      have hinsert : (w.enter r t ignoreMissing m source).graph.nodes = w.graph.nodes ++ [n] :=
        h.nodes_insert (n := n) fresh rfl
      refine ⟨n :: added, m :: met, ?_, by simp [n, hadded], fun before hbefore => ?_⟩
      · rw [hnodes, hinsert, List.append_assoc]
        rfl
      · have hafter : (w.enter r t ignoreMissing m source).graph.nodes.map GraphNode.module =
            (before ++ [m]).map .resolved := by
          simp [hinsert, hbefore, n]
        -- what is met from here on falls into what the module leads to and what was pending before
        obtain ⟨below, later, rfl, hdown, honward⟩ := (hmet _ hafter).split
        rw [← successors_of_read analyzed read] at hdown
        exact .meet (h.fresh_of_not_visited hbefore fresh) hdown (by simpa using honward)
    | @leaf w m rest fresh left =>
      have hinsert : (w.leaf m).graph.nodes = w.graph.nodes ++ [⟨m.filePath, .resolved m, []⟩] :=
        h.nodes_insert (n := ⟨m.filePath, .resolved m, []⟩) fresh rfl
      refine ⟨⟨m.filePath, .resolved m, []⟩ :: added, m :: met, ?_, by simp [hadded],
        fun before hbefore => ?_⟩
      · rw [hnodes, hinsert, List.append_assoc]
        rfl
      · have hafter : (w.leaf m).graph.nodes.map GraphNode.module =
            (before ++ [m]).map .resolved := by
          simp [hinsert, hbefore]
        have hdown : DepthFirst (successors r t) (before ++ [m]) (successors r t m) [] := by
          rw [successors_of_left left]
          exact .nil
        exact .meet (h.fresh_of_not_visited hbefore fresh) hdown (hmet _ hafter)

end Grown

end LuaBundle.Walk

namespace LuaBundle

/-- What a walk from an entry builds. A file is told by its path. -/
structure BuiltGraph.Exact (r : Resolver) (t : FileTree) (entry : Path) (built : BuiltGraph) :
    Prop where
  record : built.entry = r.entryRecord t.workingPath entry
  first : ∃ n rest, built.graph.nodes = n :: rest ∧ n.module = built.entry ∧
    n.path = t.workingPath.resolve entry
  file : ∀ n ∈ built.graph.nodes, n.module.filePath? = some n.path
  distinct : (built.graph.nodes.map GraphNode.key).Nodup
  scanned : ∀ n ∈ built.graph.nodes, n.module.analyzeDependencies = true →
    ∃ source, t.readText n.path = .ok source ∧
      n.dependencies =
        (Walk.requireRecords r t (n.path.parent?.getD ⟨""⟩) source).map ModuleRecord.edge
  bare : ∀ n ∈ built.graph.nodes, n.module.analyzeDependencies = false → n.dependencies = []
  closed : ∀ n ∈ built.graph.nodes, ∀ e ∈ n.dependencies, ∀ p, e.filePath = some p →
    ∃ k ∈ built.graph.nodes, k.path = p
  linked : ∀ before n after, built.graph.nodes = before ++ n :: after → before ≠ [] →
    ∃ k ∈ before, ∃ e ∈ k.dependencies, e.filePath = some n.path
  /-- The nodes, with their records, are the modules that are met depth first. -/
  met : ∀ met, Walk.DepthFirst (Walk.successors r t) [] [built.entry] met ↔
    built.graph.nodes.map GraphNode.module = met.map .resolved

variable {r : Resolver} {t : FileTree} {ignoreMissing : Bool} {entry : Path} {built : BuiltGraph}

/-- A graph is built unless the run from the entry comes to a module that cannot be read. -/
theorem buildGraph_eq_error_iff {failure : Failure} :
    buildGraph r t ignoreMissing entry = .error failure ↔
      Walk.Stops r t ignoreMissing (.start, [r.entryRecord t.workingPath entry]) failure := by
  rw [← Walk.visitAll_eq_error_iff, buildGraph, Analyzer.fst_build, Analyzer.fresh]
  cases Walk.visitAll r t ignoreMissing .start [r.entryRecord t.workingPath entry] with
  | ok w => simp
  | error stopped => simp

theorem exists_met (h : buildGraph r t ignoreMissing entry = .ok built) :
    ∃ met, Walk.DepthFirst (Walk.successors r t) [] [built.entry] met ∧
      built.graph.nodes.map GraphNode.module = met.map .resolved := by
  obtain ⟨m, w, rfl, hstart, hrun⟩ := run_of_buildGraph h
  obtain ⟨added, met, hnodes, hadded, hmet⟩ := Walk.Grown.depthFirst hrun rfl hstart
  refine ⟨met, hmet [] rfl, ?_⟩
  rw [hnodes, ← hadded]
  rfl

theorem buildGraph_met (h : buildGraph r t ignoreMissing entry = .ok built)
    (met : List ResolvedModule) :
    Walk.DepthFirst (Walk.successors r t) [] [built.entry] met ↔
      built.graph.nodes.map GraphNode.module = met.map .resolved := by
  obtain ⟨found, hwalk, hmodules⟩ := exists_met h
  rw [hmodules]
  constructor
  · intro hmet
    rw [hmet.unique hwalk]
  · intro heq
    have hinj : Function.Injective ModuleRecord.resolved := fun _ _ => ModuleRecord.resolved.inj
    rw [← hinj.list_map heq]
    exact hwalk

/-- Every node but the entry's is a record of the requires of some node. -/
theorem buildGraph_origin (h : buildGraph r t ignoreMissing entry = .ok built) {n : GraphNode}
    (hn : n ∈ built.graph.nodes) :
    n.module = built.entry ∨ ∃ k ∈ built.graph.nodes, ∃ m, k.module = .resolved m ∧
      n.module ∈ Walk.successors r t m := by
  obtain ⟨met, hwalk, hmodules⟩ := exists_met h
  obtain ⟨m, hm, hmodule⟩ := List.mem_map.mp (hmodules ▸ List.mem_map_of_mem hn)
  rw [← hmodule]
  refine (hwalk.origin hm).imp List.mem_singleton.mp ?_
  rintro ⟨above, habove, hnext⟩
  obtain ⟨k, hk, hkmodule⟩ := List.mem_map.mp (hmodules ▸ List.mem_map_of_mem habove)
  exact ⟨k, hk, above, hkmodule, hnext⟩

theorem buildGraph_exact (h : buildGraph r t ignoreMissing entry = .ok built) :
    built.Exact r t entry := by
  obtain ⟨hg, n, rest, hfirst, hmodule⟩ := buildGraph_complete h
  have hentry : built.entry = r.entryRecord t.workingPath entry := by
    obtain ⟨w, -, rfl⟩ := buildGraph_eq_ok_iff.mp h
    rfl
  constructor
  case record => exact hentry
  case first =>
    refine ⟨n, rest, hfirst, hmodule, ?_⟩
    obtain ⟨m, hm⟩ := hg.explored n (hfirst ▸ List.mem_cons_self ..)
    obtain ⟨m', hm', hfile, -⟩ := r.entryRecord_resolved t.workingPath entry
    have heq : ModuleRecord.resolved m = .resolved m' := by rw [← hm.module, hmodule, hentry, hm']
    rw [hm.path, ModuleRecord.resolved.inj heq, hfile]
  case file =>
    intro n hn
    obtain ⟨m, hm⟩ := hg.explored n hn
    rw [hm.module, hm.path]
    rfl
  case distinct => exact hg.distinct_keys
  case scanned =>
    intro n hn hanalyzed
    obtain ⟨m, hm⟩ := hg.explored n hn
    rw [hm.module] at hanalyzed
    obtain ⟨source, hread, hedges⟩ := hm.scanned hanalyzed
    rw [hm.path, hedges, Walk.required_eq]
    exact ⟨source, hread, rfl⟩
  case bare =>
    intro n hn hleft
    obtain ⟨m, hm⟩ := hg.explored n hn
    rw [hm.module] at hleft
    exact hm.bare hleft
  case closed =>
    intro n hn e he p hp
    exact hg.closed n hn p (List.mem_filterMap.mpr ⟨e, he, hp⟩)
  case linked =>
    intro before n after hsplit hbefore
    obtain ⟨k, hk, htarget⟩ := hg.linked before n after hsplit hbefore
    obtain ⟨e, he, hp⟩ := List.mem_filterMap.mp htarget
    exact ⟨k, hk, e, he, hp⟩
  case met => exact buildGraph_met h

namespace Analyzer

theorem fst_build_eq (a : Analyzer) (t : FileTree) (entry : Path) :
    (a.build t entry).1 = buildGraph a.resolver t a.ignoreMissing entry := by
  rw [buildGraph, fst_build, fst_build]
  rfl

theorem buildAll_eq (a : Analyzer) (walks : List (FileTree × Path)) :
    a.buildAll walks =
      walks.map fun walk => buildGraph a.resolver walk.1 a.ignoreMissing walk.2 := by
  induction walks generalizing a with
  | nil => rfl
  | cons walk walks ih =>
    rw [buildAll_cons, List.map_cons, ih, fst_build_eq, resolver_build, ignoreMissing_build]

/-- A walk ends, whatever an analyzer holds before it: there is no endless run of steps, and the run
from the entry finishes or comes to a module that cannot be read. The result is that of a fresh
analyzer, also where many walks follow each other, and what is built is exact. -/
theorem build_exact (a : Analyzer) (t : FileTree) (entry : Path) :
    (WellFounded fun s' s => Walk.Step a.resolver t a.ignoreMissing s s') ∧
      (a.build t entry).1 = buildGraph a.resolver t a.ignoreMissing entry ∧
      (∀ walks, a.buildAll walks =
        walks.map fun walk => buildGraph a.resolver walk.1 a.ignoreMissing walk.2) ∧
      (∀ built, (a.build t entry).1 = .ok built →
        (∃ w, Relation.ReflTransGen (Walk.Step a.resolver t a.ignoreMissing)
            (.start, [a.resolver.entryRecord t.workingPath entry]) (w, []) ∧
          built = ⟨a.resolver.entryRecord t.workingPath entry, w.graph, w.missing, w.errors⟩) ∧
        built.Exact a.resolver t entry) ∧
      ∀ failure, (a.build t entry).1 = .error failure →
        Walk.Stops a.resolver t a.ignoreMissing
          (.start, [a.resolver.entryRecord t.workingPath entry]) failure := by
  refine ⟨Walk.wellFounded_step _ _ _, a.fst_build_eq t entry, a.buildAll_eq, ?_, ?_⟩
  · intro built h
    rw [fst_build_eq] at h
    obtain ⟨w, hw, hbuilt⟩ := buildGraph_eq_ok_iff.mp h
    exact ⟨⟨w, Walk.steps_of_visitAll hw, hbuilt⟩, buildGraph_exact h⟩
  · intro failure h
    rw [fst_build] at h
    split at h
    · cases h
    · next stopped hw =>
      cases h
      exact Walk.stops_of_visitAll hw

end Analyzer

section Sample

/-- Two modules that require each other, and files that are not there. -/
def mutualTree : FileTree :=
  ⟨[(["a", "main.lua"], .file (.text "require('gone') require('child') require('gone')")),
    (["a", "child.lua"], .file (.text "require('main') require('lost')")), (["a"], .directory)],
    ["a"]⟩

def mutualResolver : Resolver :=
  let config := Config.forEntry mutualTree.workingPath ⟨"main.lua"⟩
  .ofConfig { config with modules.overrides := .ofList [("lost", ⟨some ⟨"nowhere"⟩, none⟩)] }
    fun _ => none

def mainRecord : ModuleRecord := .resolved ⟨"main", "main", ⟨"/a/main.lua"⟩, false, false, true⟩

def childRecord : ModuleRecord := .resolved ⟨"child", "child", ⟨"/a/child.lua"⟩, false, false, true⟩

def goneEdge : Edge := ⟨"gone", "gone", none, false, true, false⟩

def lostEdge : Edge := ⟨"lost", "lost", none, false, true, true⟩

def mainNode : GraphNode := ⟨⟨"/a/main.lua"⟩, mainRecord, [goneEdge, childRecord.edge, goneEdge]⟩

def childNode : GraphNode := ⟨⟨"/a/child.lua"⟩, childRecord, [mainRecord.edge, lostEdge]⟩

/-- An analyzer that has visited the entry, and more, before. -/
def usedAnalyzer : Analyzer :=
  ⟨mutualResolver, false, [Path.folding ⟨"/a/main.lua"⟩, Path.folding ⟨"/b/other.lua"⟩], [],
    [.moduleNotFound "other"]⟩

end Sample

theorem mutual_modules_exact :
    ∃ built, (usedAnalyzer.build mutualTree ⟨"main.lua"⟩).1 = .ok built ∧
      built.graph.nodes = [mainNode, childNode] ∧ built.Exact mutualResolver mutualTree ⟨"main.lua"⟩ := by
  obtain ⟨-, hfresh, -, hexact, -⟩ := usedAnalyzer.build_exact mutualTree ⟨"main.lua"⟩
  have hwalk : ∃ built, buildGraph mutualResolver mutualTree false ⟨"main.lua"⟩ = .ok built ∧
      built.graph.nodes = [mainNode, childNode] := exists_built_of_visitWithin 8 (by decide +kernel)
  obtain ⟨built, hbuilt, hnodes⟩ := hwalk
  have hok : (usedAnalyzer.build mutualTree ⟨"main.lua"⟩).1 = .ok built := hfresh.trans hbuilt
  exact ⟨built, hok, hnodes, (hexact built hok).2⟩

end LuaBundle
