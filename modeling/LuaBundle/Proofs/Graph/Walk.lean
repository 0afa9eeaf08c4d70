import LuaBundle.Graph.Walk
import LuaBundle.Proofs.Module.Naming
import Mathlib.Logic.Relation

/-!
# What a walk builds

A walk is a run of steps on the walk so far and the records still to be visited. Every step keeps
`Grown`: nodes are explored files, no file twice, and whatever an edge leads to is a node or pending.
-/
namespace LuaBundle.DependencyGraph

theorem putNode_of_new {n : GraphNode} {nodes : List GraphNode}
    (h : ∀ k ∈ nodes, k.key ≠ n.key) : putNode n nodes = nodes ++ [n] := by
  induction nodes with
  | nil => rfl
  | cons k nodes ih =>
    rw [putNode, if_neg (h k (List.mem_cons_self ..)),
      ih fun l hl => h l (List.mem_cons_of_mem _ hl), List.cons_append]

end LuaBundle.DependencyGraph

namespace LuaBundle.Walk

variable {r : Resolver} {t : FileTree} {ignoreMissing : Bool}

/-- The records of a module's requires, in order; the ignored ones are left out. -/
def required (r : Resolver) (t : FileTree) (ignoreMissing : Bool) (m : ResolvedModule)
    (source : String) : List ModuleRecord :=
  (answers r t ignoreMissing m source).filterMap Answer.record

/-- The walk after a module whose text is scanned. -/
def enter (r : Resolver) (t : FileTree) (ignoreMissing : Bool) (w : Walk) (m : ResolvedModule)
    (source : String) : Walk :=
  { (w.addMissing ((answers r t ignoreMissing m source).filterMap Answer.missing)).addNode m
      (required r t ignoreMissing m source) with
    visited := m.filePath.folding :: w.visited }

/-- The walk after a module whose text is left alone. -/
def leaf (w : Walk) (m : ResolvedModule) : Walk :=
  { w.addNode m [] with visited := m.filePath.folding :: w.visited }

inductive Step (r : Resolver) (t : FileTree) (ignoreMissing : Bool) :
    Walk × List ModuleRecord → Walk × List ModuleRecord → Prop where
  | pass {w : Walk} {record : ModuleRecord} {rest : List ModuleRecord}
      (unresolved : record.asResolved? = none) :
      Step r t ignoreMissing (w, record :: rest) (w, rest)
  | skip {w : Walk} {m : ResolvedModule} {rest : List ModuleRecord}
      (visited : m.filePath.folding ∈ w.visited) :
      Step r t ignoreMissing (w, .resolved m :: rest) (w, rest)
  | enter {w : Walk} {m : ResolvedModule} {rest : List ModuleRecord} {source : String}
      (fresh : m.filePath.folding ∉ w.visited) (analyzed : m.analyzeDependencies = true)
      (read : t.readText m.filePath = .ok source) :
      Step r t ignoreMissing (w, .resolved m :: rest)
        (w.enter r t ignoreMissing m source, required r t ignoreMissing m source ++ rest)
  | leaf {w : Walk} {m : ResolvedModule} {rest : List ModuleRecord}
      (fresh : m.filePath.folding ∉ w.visited) (left : m.analyzeDependencies = false) :
      Step r t ignoreMissing (w, .resolved m :: rest) (w.leaf m, rest)

section Equations

variable {w : Walk} {m : ResolvedModule} {rest : List ModuleRecord} {source : String}

theorem visitAll_nil : visitAll r t ignoreMissing w [] = .ok w := by rw [visitAll]

theorem visitAll_pass {record : ModuleRecord} (h : record.asResolved? = none) :
    visitAll r t ignoreMissing w (record :: rest) = visitAll r t ignoreMissing w rest := by
  cases record with
  | resolved m => cases h
  | ignored id => rw [visitAll]
  | missing id message overridden => rw [visitAll]

theorem visitAll_skip (h : m.filePath.folding ∈ w.visited) :
    visitAll r t ignoreMissing w (.resolved m :: rest) = visitAll r t ignoreMissing w rest := by
  rw [visitAll, dif_pos h]

theorem visitAll_enter (fresh : m.filePath.folding ∉ w.visited)
    (analyzed : m.analyzeDependencies = true) (read : t.readText m.filePath = .ok source) :
    visitAll r t ignoreMissing w (.resolved m :: rest) =
      visitAll r t ignoreMissing (w.enter r t ignoreMissing m source)
        (required r t ignoreMissing m source ++ rest) := by
  rw [visitAll, dif_neg fresh]
  simp only [analyzed, if_true]
  split
  · next fault h => cases read.symm.trans h
  · next source' h =>
    cases read.symm.trans h
    rfl

theorem visitAll_stop {fault : FileFault} (fresh : m.filePath.folding ∉ w.visited)
    (analyzed : m.analyzeDependencies = true) (unread : t.readText m.filePath = .error fault) :
    ∃ stopped, visitAll r t ignoreMissing w (.resolved m :: rest) = .error stopped ∧
      stopped.failure = .access m.filePath.text fault.message := by
  rw [visitAll, dif_neg fresh]
  simp only [analyzed, if_true]
  split
  · next fault' hr =>
    cases unread.symm.trans hr
    exact ⟨_, rfl, rfl⟩
  · next source hr => cases unread.symm.trans hr

theorem visitAll_leaf (fresh : m.filePath.folding ∉ w.visited)
    (left : m.analyzeDependencies = false) :
    visitAll r t ignoreMissing w (.resolved m :: rest) =
      visitAll r t ignoreMissing (w.leaf m) rest := by
  rw [visitAll, dif_neg fresh]
  simp only [left]
  rfl

end Equations

/-- A walk that ends is a run of steps to its end. -/
theorem steps_of_visitAll {w w' : Walk} {pending : List ModuleRecord}
    (h : visitAll r t ignoreMissing w pending = .ok w') :
    Relation.ReflTransGen (Step r t ignoreMissing) (w, pending) (w', []) := by
  induction w, pending using visitAll.induct r t ignoreMissing with
  | case1 w => rw [visitAll_nil] at h; cases h; exact .refl
  | case2 w id rest ih => rw [visitAll_pass rfl] at h; exact .head (.pass rfl) (ih h)
  | case3 w id message overridden rest ih =>
    rw [visitAll_pass rfl] at h
    exact .head (.pass rfl) (ih h)
  | case4 w m rest hv ih => rw [visitAll_skip hv] at h; exact .head (.skip hv) (ih h)
  | case5 w m rest hv ha fault hr =>
    obtain ⟨_, hstop, -⟩ := visitAll_stop hv ha hr
    rw [hstop] at h
    cases h
  | case6 w m rest hv _ ha source hr _ _ _ ih =>
    rw [visitAll_enter hv ha hr] at h
    exact .head (.enter hv ha hr) (ih h)
  | case7 w m rest hv _ ha ih =>
    have ha : m.analyzeDependencies = false := by simpa using ha
    rw [visitAll_leaf hv ha] at h
    exact .head (.leaf hv ha) (ih h)

/-- A walk of a bounded number of steps, for computing with closed trees. -/
def visitWithin (r : Resolver) (t : FileTree) (ignoreMissing : Bool) :
    Nat → Walk → List ModuleRecord → Option Walk
  | _, w, [] => some w
  | 0, _, _ :: _ => none
  | steps + 1, w, .ignored _ :: rest => visitWithin r t ignoreMissing steps w rest
  | steps + 1, w, .missing .. :: rest => visitWithin r t ignoreMissing steps w rest
  | steps + 1, w, .resolved m :: rest =>
    if w.visited.contains m.filePath.folding then visitWithin r t ignoreMissing steps w rest
    else if m.analyzeDependencies then
      match t.readText m.filePath with
      | .error _ => none
      | .ok source =>
        visitWithin r t ignoreMissing steps (w.enter r t ignoreMissing m source)
          (required r t ignoreMissing m source ++ rest)
    else visitWithin r t ignoreMissing steps (w.leaf m) rest

theorem visitAll_of_visitWithin {steps : Nat} {w w' : Walk} {pending : List ModuleRecord}
    (h : visitWithin r t ignoreMissing steps w pending = some w') :
    visitAll r t ignoreMissing w pending = .ok w' := by
  induction steps generalizing w pending with
  | zero =>
    cases pending with
    | nil => cases h; exact visitAll_nil
    | cons record rest => cases h
  | succ steps ih =>
    cases pending with
    | nil => cases h; exact visitAll_nil
    | cons record rest =>
      cases record with
      | ignored id => rw [visitAll_pass rfl]; exact ih h
      | missing id message overridden => rw [visitAll_pass rfl]; exact ih h
      | resolved m =>
        rw [visitWithin] at h
        by_cases hv : m.filePath.folding ∈ w.visited
        · rw [if_pos (List.contains_iff_mem.mpr hv)] at h
          rw [visitAll_skip hv]
          exact ih h
        · rw [if_neg (mt List.contains_iff_mem.mp hv)] at h
          cases ha : m.analyzeDependencies with
          | false =>
            simp only [ha, Bool.false_eq_true, if_false] at h
            rw [visitAll_leaf hv ha]
            exact ih h
          | true =>
            simp only [ha, if_true] at h
            split at h
            · cases h
            · next source hr => rw [visitAll_enter hv ha hr]; exact ih h

/-! ### Requires and edges -/

section Required

variable {m : ResolvedModule} {source : String} {record : ModuleRecord}

/-- A record comes from one require: it is resolved or says what is missing. -/
theorem mem_required (h : record ∈ required r t ignoreMissing m source) :
    ∃ id ∈ Lua.findRequires source.toList,
      (r.resolve t (String.ofList id) (m.filePath.parent?.getD ⟨""⟩) = .ok record ∧
        record.isIgnored = false) ∨
      ∃ failure, r.resolve t (String.ofList id) (m.filePath.parent?.getD ⟨""⟩) = .error failure ∧
        record = Resolver.missingRecord (String.ofList id) failure := by
  obtain ⟨a, ha, hrecord⟩ := List.mem_filterMap.mp h
  obtain ⟨id, hid, rfl⟩ := List.mem_map.mp ha
  refine ⟨id, hid, ?_⟩
  unfold answer at hrecord
  split at hrecord
  · next found hfound =>
    cases hi : found.isIgnored with
    | true => simp [hi] at hrecord
    | false =>
      simp only [hi, Bool.false_eq_true, if_false, Option.some.injEq] at hrecord
      subst hrecord
      exact .inl ⟨hfound, hi⟩
  · next failure hfailure => exact .inr ⟨failure, hfailure, (Option.some.inj hrecord).symm⟩

theorem ignored_not_mem_required (id : String) :
    .ignored id ∉ required r t ignoreMissing m source := by
  intro h
  obtain ⟨_, -, ⟨-, hkept⟩ | ⟨_, -, hmissing⟩⟩ := mem_required h
  · cases hkept
  · cases hmissing

/-- A record with a file is resolved, under the identifier of its require. -/
theorem mem_required_resolved {m' : ResolvedModule}
    (h : .resolved m' ∈ required r t ignoreMissing m source) :
    ∃ id ∈ Lua.findRequires source.toList,
      r.resolve t (String.ofList id) (m.filePath.parent?.getD ⟨""⟩) = .ok (.resolved m') ∧
        r.Named m' ∧ m'.filePath.Plain ∧ m'.id = normalizeId (String.ofList id) := by
  obtain ⟨id, hid, ⟨hok, -⟩ | ⟨failure, -, hmissing⟩⟩ := mem_required h
  · refine ⟨id, hid, hok, ?_⟩
    rcases Resolver.resolve_cases hok with hi | ⟨m'', hm, hnamed, -, -, hname⟩
    · cases hi
    · cases hm
      exact ⟨hnamed, Resolver.resolve_plain hok,
        hname (normalizeId_ne_empty (Lua.findRequires_ne_nil hid))⟩
  · cases hmissing

end Required

/-- The node holds a module of a plain path, with the requires of its text as edges if it is to be
scanned, and no edges otherwise. -/
structure Explored (r : Resolver) (t : FileTree) (ignoreMissing : Bool) (n : GraphNode)
    (m : ResolvedModule) : Prop where
  module : n.module = .resolved m
  path : n.path = m.filePath
  plain : m.filePath.Plain
  named : r.Named m
  scanned : m.analyzeDependencies = true → ∃ source, t.readText m.filePath = .ok source ∧
    n.dependencies = (required r t ignoreMissing m source).map ModuleRecord.edge
  bare : m.analyzeDependencies = false → n.dependencies = []

namespace Explored

variable {n : GraphNode} {m : ResolvedModule} {e e' : Edge}

/-- An edge comes from a record of the module's requires. -/
theorem exists_record (h : Explored r t ignoreMissing n m) (he : e ∈ n.dependencies) :
    ∃ source, ∃ record ∈ required r t ignoreMissing m source, e = record.edge := by
  cases ha : m.analyzeDependencies with
  | false =>
    rw [h.bare ha] at he
    cases he
  | true =>
    obtain ⟨source, -, hdeps⟩ := h.scanned ha
    rw [hdeps] at he
    obtain ⟨record, hrecord, rfl⟩ := List.mem_map.mp he
    exact ⟨source, record, hrecord, rfl⟩

/-- An edge that is not missing holds a resolution of one of the module's requires. -/
theorem edge_resolved (h : Explored r t ignoreMissing n m) (he : e ∈ n.dependencies)
    (hfound : e.isMissing = false) :
    ∃ id m', r.resolve t id (m.filePath.parent?.getD ⟨""⟩) = .ok (.resolved m') ∧
      e = (ModuleRecord.resolved m').edge ∧ r.Named m' ∧ m'.id = normalizeId id := by
  obtain ⟨source, record, hrecord, rfl⟩ := h.exists_record he
  cases record with
  | resolved m' =>
    obtain ⟨id, -, hok, hnamed, -, hid⟩ := mem_required_resolved hrecord
    exact ⟨_, m', hok, rfl, hnamed, hid⟩
  | ignored id => exact absurd hrecord (ignored_not_mem_required id)
  | missing id message overridden => cases hfound

/-- In one module an identifier stands for one file and one name. -/
theorem edge_unique (h : Explored r t ignoreMissing n m) (he : e ∈ n.dependencies)
    (hfound : e.isMissing = false) (he' : e' ∈ n.dependencies) (hfound' : e'.isMissing = false)
    (hid : e.id = e'.id) : e = e' := by
  obtain ⟨id, m₁, hok, rfl, -, hm⟩ := h.edge_resolved he hfound
  obtain ⟨id', m₂, hok', rfl, -, hm'⟩ := h.edge_resolved he' hfound'
  have hnorm : normalizeId id = normalizeId id' := hm.symm.trans (hid.trans hm')
  rw [Resolver.resolve_congr hnorm, hok'] at hok
  cases hok
  rfl

end Explored

/-- What every step of a walk keeps. -/
structure Grown (r : Resolver) (t : FileTree) (ignoreMissing : Bool) (entry : ResolvedModule)
    (w : Walk) (pending : List ModuleRecord) : Prop where
  explored : ∀ n ∈ w.graph.nodes, ∃ m, Explored r t ignoreMissing n m
  visited : ∀ f, f ∈ w.visited ↔ ∃ n ∈ w.graph.nodes, n.path.folding = f
  distinct : (w.graph.nodes.map GraphNode.path).Nodup
  /-- Every node but the first is led to from an earlier one. -/
  linked : ∀ before n after, w.graph.nodes = before ++ n :: after → before ≠ [] →
    ∃ k ∈ before, n.path ∈ k.targets
  plain : ∀ m, .resolved m ∈ pending → m.filePath.Plain ∧ r.Named m
  first : w.graph.nodes = [] ∧ pending = [.resolved entry] ∨
    ∃ n rest, w.graph.nodes = n :: rest ∧ n.module = .resolved entry
  reached : ∀ m, .resolved m ∈ pending →
    w.graph.nodes = [] ∨ ∃ k ∈ w.graph.nodes, m.filePath ∈ k.targets
  closed : ∀ n ∈ w.graph.nodes, ∀ p ∈ n.targets,
    (∃ k ∈ w.graph.nodes, k.path = p) ∨ ∃ m, .resolved m ∈ pending ∧ m.filePath = p

namespace Grown

variable {entry m : ResolvedModule} {w w' : Walk} {pending pending' : List ModuleRecord}
  {n : GraphNode}

theorem start (h : entry.filePath.Plain ∧ r.Named entry) :
    Grown r t ignoreMissing entry .start [.resolved entry] where
  explored := by simp [Walk.start, DependencyGraph.empty]
  visited := by simp [Walk.start, DependencyGraph.empty]
  distinct := List.nodup_nil
  linked := by simp [Walk.start, DependencyGraph.empty]
  plain := fun m hm => by cases List.mem_singleton.mp hm; exact h
  first := .inl ⟨rfl, rfl⟩
  reached := fun _ _ => .inl rfl
  closed := by simp [Walk.start, DependencyGraph.empty]

/-- A record of a file that is a node already can be dropped. -/
theorem drop {record : ModuleRecord} (h : Grown r t ignoreMissing entry w (record :: pending))
    (hfile : ∀ m, record = .resolved m → ∃ k ∈ w.graph.nodes, k.path = m.filePath) :
    Grown r t ignoreMissing entry w pending where
  explored := h.explored
  visited := h.visited
  distinct := h.distinct
  linked := h.linked
  plain := fun m hm => h.plain m (List.mem_cons_of_mem _ hm)
  first := by
    rcases h.first with ⟨hnil, hp⟩ | hfirst
    · obtain ⟨k, hk, -⟩ := hfile entry (List.cons.inj hp).1
      rw [hnil] at hk
      cases hk
    · exact .inr hfirst
  reached := fun m hm => h.reached m (List.mem_cons_of_mem _ hm)
  closed := by
    intro n hn p hp
    rcases h.closed n hn p hp with hk | ⟨m, hm, rfl⟩
    · exact .inl hk
    · rcases List.mem_cons.mp hm with hm | hm
      · exact .inl (hfile m hm.symm)
      · exact .inr ⟨m, hm, rfl⟩

theorem path_of_visited (h : Grown r t ignoreMissing entry w pending) (hm : m.filePath.Plain)
    (hv : m.filePath.folding ∈ w.visited) : ∃ k ∈ w.graph.nodes, k.path = m.filePath := by
  obtain ⟨k, hk, hfold⟩ := (h.visited _).mp hv
  obtain ⟨m', hm'⟩ := h.explored k hk
  refine ⟨k, hk, (Path.Plain.folding_inj ?_ hm).mp hfold⟩
  rw [hm'.path]
  exact hm'.plain

theorem key_ne_of_fresh (h : Grown r t ignoreMissing entry w pending) (hm : m.filePath.Plain)
    (fresh : m.filePath.folding ∉ w.visited) (hn : n.path = m.filePath) :
    ∀ k ∈ w.graph.nodes, k.key ≠ n.key := by
  intro k hk hkey
  obtain ⟨m', hm'⟩ := h.explored k hk
  apply fresh
  refine (h.visited _).mpr ⟨k, hk, ?_⟩
  have hpath : k.path = m.filePath := by
    refine Path.Plain.eq_of_components (hm'.path ▸ hm'.plain) hm ?_
    rw [← hn]
    exact hkey
  rw [hpath]

theorem linked_concat {nodes : List GraphNode}
    (h : ∀ before k after, nodes = before ++ k :: after → before ≠ [] →
      ∃ l ∈ before, k.path ∈ l.targets)
    (hn : nodes ≠ [] → ∃ l ∈ nodes, n.path ∈ l.targets) :
    ∀ before k after, nodes ++ [n] = before ++ k :: after → before ≠ [] →
      ∃ l ∈ before, k.path ∈ l.targets := by
  intro before k after he hbefore
  rcases List.eq_nil_or_concat after with rfl | ⟨after, last, rfl⟩
  · obtain ⟨rfl, hk⟩ := List.append_inj' he rfl
    obtain rfl := List.singleton_inj.mp hk
    exact hn hbefore
  · rw [List.concat_eq_append, ← List.cons_append, ← List.append_assoc] at he
    exact h before k after (List.append_inj' he rfl).1 hbefore

/-- What is pending behind another record is not the entry. -/
theorem reached_of_pending {record : ModuleRecord}
    (h : Grown r t ignoreMissing entry w (record :: pending)) (hm : .resolved m ∈ pending) :
    ∃ k ∈ w.graph.nodes, m.filePath ∈ k.targets := by
  rcases h.reached m (List.mem_cons_of_mem _ hm) with hnil | hk
  · rcases h.first with ⟨-, hp⟩ | ⟨k, rest, hk, -⟩
    · rw [(List.cons.inj hp).2] at hm
      cases hm
    · rw [hnil] at hk
      cases hk
  · exact hk

/-- A node for a fresh file goes to the end. The new pending records are old ones, or the node's
edges lead to them, and no edge of the node is left without one. -/
theorem add (h : Grown r t ignoreMissing entry w (.resolved m :: pending))
    (fresh : m.filePath.folding ∉ w.visited) (hn : Explored r t ignoreMissing n m)
    (hnodes : w'.graph = w.graph.insert n) (hvisited : w'.visited = m.filePath.folding :: w.visited)
    (hkeep : pending ⊆ pending')
    (hnew : ∀ m', .resolved m' ∈ pending' → .resolved m' ∈ pending ∨
      m'.filePath ∈ n.targets ∧ m'.filePath.Plain ∧ r.Named m')
    (htargets : ∀ p ∈ n.targets, ∃ m', .resolved m' ∈ pending' ∧ m'.filePath = p) :
    Grown r t ignoreMissing entry w' pending' := by
  have hkeys := h.key_ne_of_fresh hn.plain fresh hn.path
  have hlast : w'.graph.nodes = w.graph.nodes ++ [n] := by
    rw [hnodes]
    exact DependencyGraph.putNode_of_new hkeys
  constructor
  case explored =>
    intro k hk
    rw [hlast] at hk
    rcases List.mem_append.mp hk with hk | hk
    · exact h.explored k hk
    · rw [List.mem_singleton.mp hk]
      exact ⟨m, hn⟩
  case visited =>
    intro f
    rw [hvisited, hlast, List.mem_cons, h.visited]
    simp only [List.mem_append, List.mem_singleton, or_and_right, exists_or, exists_eq_left,
      hn.path]
    rw [or_comm, @eq_comm _ f]
  case distinct =>
    rw [hlast, List.map_append, List.map_singleton, List.nodup_append]
    refine ⟨h.distinct, by simp, ?_⟩
    intro p hp q hq he
    obtain ⟨k, hk, rfl⟩ := List.mem_map.mp hp
    rw [List.mem_singleton.mp hq] at he
    exact hkeys k hk (congrArg Path.components he)
  case linked =>
    rw [hlast]
    refine linked_concat h.linked fun hne => ?_
    rw [hn.path]
    exact (h.reached m (List.mem_cons_self ..)).resolve_left hne
  case plain =>
    intro m' hm'
    rcases hnew m' hm' with hm' | ⟨-, hm'⟩
    · exact h.plain m' (List.mem_cons_of_mem _ hm')
    · exact hm'
  case first =>
    refine .inr ?_
    rw [hlast]
    rcases h.first with ⟨hnil, hp⟩ | ⟨k, rest, hk, hentry⟩
    · cases (List.cons.inj hp).1
      exact ⟨n, [], by rw [hnil]; rfl, hn.module⟩
    · exact ⟨k, rest ++ [n], by rw [hk, List.cons_append], hentry⟩
  case reached =>
    intro m' hm'
    refine .inr ?_
    rw [hlast]
    rcases hnew m' hm' with hm' | ⟨hp, -⟩
    · obtain ⟨k, hk, hp⟩ := h.reached_of_pending hm'
      exact ⟨k, List.mem_append_left _ hk, hp⟩
    · exact ⟨n, by simp, hp⟩
  case closed =>
    intro k hk p hp
    rw [hlast] at hk ⊢
    rcases List.mem_append.mp hk with hk | hk
    · rcases h.closed k hk p hp with ⟨l, hl, rfl⟩ | ⟨m', hm', rfl⟩
      · exact .inl ⟨l, List.mem_append_left _ hl, rfl⟩
      · rcases List.mem_cons.mp hm' with hm' | hm'
        · cases hm'
          exact .inl ⟨n, by simp, hn.path⟩
        · exact .inr ⟨m', hkeep hm', rfl⟩
    · rw [List.mem_singleton.mp hk] at hp
      exact .inr (htargets p hp)

theorem mem_targets_required {m m' : ResolvedModule} {source : String}
    (h : .resolved m' ∈ required r t ignoreMissing m source) (n : GraphNode)
    (hn : n.dependencies = (required r t ignoreMissing m source).map ModuleRecord.edge) :
    m'.filePath ∈ n.targets := by
  refine List.mem_filterMap.mpr ⟨(ModuleRecord.resolved m').edge, ?_, rfl⟩
  rw [hn]
  exact List.mem_map_of_mem h

theorem step {s s' : Walk × List ModuleRecord} (hs : Step r t ignoreMissing s s')
    (h : Grown r t ignoreMissing entry s.1 s.2) : Grown r t ignoreMissing entry s'.1 s'.2 := by
  cases hs with
  | pass unresolved => exact h.drop fun m hm => by rw [hm] at unresolved; cases unresolved
  | skip visited =>
    refine h.drop fun m hm => ?_
    cases hm
    exact h.path_of_visited (h.plain _ (List.mem_cons_self ..)).1 visited
  | @enter w m rest source fresh analyzed read =>
    obtain ⟨hplain, hnamed⟩ := h.plain m (List.mem_cons_self ..)
    let n : GraphNode := ⟨m.filePath, .resolved m,
      (required r t ignoreMissing m source).map ModuleRecord.edge⟩
    have hn : Explored r t ignoreMissing n m :=
      ⟨rfl, rfl, hplain, hnamed, fun _ => ⟨source, read, rfl⟩, fun ha => by simp [analyzed] at ha⟩
    refine h.add (n := n) fresh hn rfl rfl (List.subset_append_right _ _) ?_ ?_
    · intro m' hm'
      rcases List.mem_append.mp hm' with hm' | hm'
      · obtain ⟨_, -, -, hnamed', hplain', -⟩ := mem_required_resolved hm'
        exact .inr ⟨mem_targets_required hm' n rfl, hplain', hnamed'⟩
      · exact .inl hm'
    · intro p hp
      obtain ⟨e, he, hfile⟩ := List.mem_filterMap.mp hp
      obtain ⟨record, hrecord, rfl⟩ := List.mem_map.mp he
      cases record with
      | resolved m' => exact ⟨m', List.mem_append_left _ hrecord, Option.some.inj hfile⟩
      | ignored id => cases hfile
      | missing id message overridden => cases hfile
  | @leaf w m rest fresh left =>
    obtain ⟨hplain, hnamed⟩ := h.plain m (List.mem_cons_self ..)
    have hn : Explored r t ignoreMissing ⟨m.filePath, .resolved m, []⟩ m :=
      ⟨rfl, rfl, hplain, hnamed, fun ha => by simp [left] at ha, fun _ => rfl⟩
    exact h.add fresh hn rfl rfl (List.Subset.refl _) (fun m' hm' => .inl hm')
      (fun p hp => by cases hp)

theorem run {s s' : Walk × List ModuleRecord}
    (hs : Relation.ReflTransGen (Step r t ignoreMissing) s s')
    (h : Grown r t ignoreMissing entry s.1 s.2) : Grown r t ignoreMissing entry s'.1 s'.2 := by
  induction hs with
  | refl => exact h
  | tail _ hstep ih => exact ih.step hstep

end Grown

end LuaBundle.Walk

namespace LuaBundle

structure DependencyGraph.Complete (r : Resolver) (t : FileTree) (ignoreMissing : Bool)
    (g : DependencyGraph) : Prop where
  explored : ∀ n ∈ g.nodes, ∃ m, Walk.Explored r t ignoreMissing n m
  distinct : (g.nodes.map GraphNode.path).Nodup
  linked : ∀ before n after, g.nodes = before ++ n :: after → before ≠ [] →
    ∃ k ∈ before, n.path ∈ k.targets
  closed : ∀ n ∈ g.nodes, ∀ p ∈ n.targets, ∃ k ∈ g.nodes, k.path = p

theorem buildGraph_eq_ok_iff {r : Resolver} {t : FileTree} {ignoreMissing : Bool} {entry : Path}
    {built : BuiltGraph} : buildGraph r t ignoreMissing entry = .ok built ↔
      ∃ w, Walk.visitAll r t ignoreMissing .start [r.entryRecord t.workingPath entry] = .ok w ∧
        built = ⟨r.entryRecord t.workingPath entry, w.graph, w.missing, w.errors⟩ := by
  rw [buildGraph, Analyzer.fst_build, Analyzer.fresh]
  cases Walk.visitAll r t ignoreMissing .start [r.entryRecord t.workingPath entry] with
  | ok w => simp [eq_comm]
  | error stopped => simp

/-- The nodes that a bounded walk leaves, for computing with closed trees. -/
theorem exists_built_of_visitWithin {r : Resolver} {t : FileTree} {ignoreMissing : Bool}
    {entry : Path} (steps : Nat) {nodes : List GraphNode}
    (h : (Walk.visitWithin r t ignoreMissing steps .start
      [r.entryRecord t.workingPath entry]).map (fun w => w.graph.nodes) = some nodes) :
    ∃ built, buildGraph r t ignoreMissing entry = .ok built ∧ built.graph.nodes = nodes := by
  obtain ⟨w, hw, hnodes⟩ := Option.map_eq_some_iff.mp h
  exact ⟨_, buildGraph_eq_ok_iff.mpr ⟨w, Walk.visitAll_of_visitWithin hw, rfl⟩, hnodes⟩

/-- What a walk has built is what a run of steps from the entry's record has come to. -/
theorem run_of_buildGraph {r : Resolver} {t : FileTree} {ignoreMissing : Bool} {entry : Path}
    {built : BuiltGraph} (h : buildGraph r t ignoreMissing entry = .ok built) :
    ∃ m w, built = ⟨.resolved m, w.graph, w.missing, w.errors⟩ ∧
      Walk.Grown r t ignoreMissing m .start [.resolved m] ∧
      Relation.ReflTransGen (Walk.Step r t ignoreMissing) (.start, [.resolved m]) (w, []) := by
  obtain ⟨m, hm, hfile, hnamed⟩ := r.entryRecord_resolved t.workingPath entry
  obtain ⟨w, hw, rfl⟩ := buildGraph_eq_ok_iff.mp h
  rw [hm] at hw ⊢
  exact ⟨m, w, rfl, .start ⟨hfile ▸ Path.resolve_plain _ _, hnamed⟩, Walk.steps_of_visitAll hw⟩

/-- A walk that does not fail leaves a finished graph, with the entry's node in front. -/
theorem buildGraph_complete {r : Resolver} {t : FileTree} {ignoreMissing : Bool} {entry : Path}
    {built : BuiltGraph} (h : buildGraph r t ignoreMissing entry = .ok built) :
    built.graph.Complete r t ignoreMissing ∧
      ∃ n rest, built.graph.nodes = n :: rest ∧ n.module = built.entry := by
  obtain ⟨m, w, rfl, hstart, hrun⟩ := run_of_buildGraph h
  have hgrown := Walk.Grown.run hrun hstart
  refine ⟨⟨hgrown.explored, hgrown.distinct, hgrown.linked, ?_⟩, ?_⟩
  · intro n hn p hp
    rcases hgrown.closed n hn p hp with hk | ⟨m', hm', -⟩
    · exact hk
    · cases hm'
  · rcases hgrown.first with ⟨-, hp⟩ | hfirst
    · cases hp
    · exact hfirst

end LuaBundle
