import LuaBundle.Proofs.Graph.Order
import Mathlib.Data.List.Chain
import Mathlib.Data.List.TakeWhile
import Mathlib.Logic.Relation

/-!
# Sorting and cycles

A graph has an order with dependencies first exactly when its edges between nodes form no cycle. The
search finds such an order, or a cycle among the files on its trail.
-/
namespace LuaBundle.DependencyGraph

variable {g : DependencyGraph}

/-- The graph of all these nodes, inserted one after the other. -/
def ofInserts (inserted : List GraphNode) : DependencyGraph := inserted.foldl insert empty

/-! ### One node for each file -/

theorem map_key_putNode (new : GraphNode) (nodes : List GraphNode) :
    (putNode new nodes).map GraphNode.key =
      if new.key ∈ nodes.map GraphNode.key then nodes.map GraphNode.key
      else nodes.map GraphNode.key ++ [new.key] := by
  induction nodes with
  | nil => rfl
  | cons n ns ih =>
    rw [putNode]
    by_cases hkey : n.key = new.key
    · rw [if_pos hkey, if_pos (by simp [hkey])]
      rfl
    · rw [if_neg hkey, List.map_cons, ih, List.map_cons]
      simp only [List.mem_cons, Ne.symm hkey, false_or]
      split <;> rfl

theorem Distinct.insert (hg : g.Distinct) (n : GraphNode) : (g.insert n).Distinct := by
  show ((putNode n g.nodes).map GraphNode.key).Nodup
  rw [map_key_putNode]
  split
  · exact hg
  · rename_i hnew
    exact List.nodup_append.mpr ⟨hg, List.nodup_singleton _, fun k hk k' hk' he =>
      hnew (List.mem_singleton.mp hk' ▸ he ▸ hk)⟩

theorem distinct_ofInserts (inserted : List GraphNode) : (ofInserts inserted).Distinct := by
  suffices key : ∀ g : DependencyGraph, g.Distinct →
      (inserted.foldl DependencyGraph.insert g).Distinct from key empty List.nodup_nil
  induction inserted with
  | nil => exact fun g hg => hg
  | cons n ns ih => exact fun g hg => ih _ (hg.insert n)

/-! ### Edges between nodes -/

/-- An edge of the node `n` has the file of the node `k`. -/
structure Leads (g : DependencyGraph) (n k : GraphNode) : Prop where
  source : n ∈ g.nodes
  target : k ∈ g.nodes
  edge : ∃ p ∈ n.targets, p.components = k.key

def Acyclic (g : DependencyGraph) : Prop := ∀ n, ¬ Relation.TransGen g.Leads n n

/-- Edges between nodes, one after the other, that come back to where they began. -/
structure ClosedWalk (g : DependencyGraph) (walk : List GraphNode) : Prop where
  two_le_length : 2 ≤ walk.length
  nodes : ∀ n ∈ walk, n ∈ g.nodes
  edges : walk.IsChain g.Leads
  closed : walk.getLast? = walk.head?

theorem ClosedWalk.not_acyclic {walk : List GraphNode} (h : g.ClosedWalk walk) : ¬ g.Acyclic := by
  intro hg
  obtain ⟨n, k, rest, rfl⟩ : ∃ n k rest, walk = n :: k :: rest := by
    match walk, h.two_le_length with
    | n :: k :: rest, _ => exact ⟨n, k, rest, rfl⟩
  obtain ⟨hfirst, hrest⟩ := List.isChain_cons_cons.mp h.edges
  have hlast : (k :: rest).getLast (List.cons_ne_nil _ _) = n := by
    have hclosed := h.closed
    rw [List.getLast?_cons_cons, List.getLast?_eq_some_getLast (List.cons_ne_nil _ _)] at hclosed
    exact Option.some.inj hclosed
  have hback : Relation.ReflTransGen g.Leads k n :=
    List.relationReflTransGen_of_exists_isChain_cons rest hrest hlast
  exact hg n (.head' hfirst hback)

namespace Arranged

variable {order : List GraphNode} {n k : GraphNode}

/-- In an order with dependencies first, edges lead to earlier places. -/
theorem idxOf_lt (h : g.Arranged order) (hedge : g.Leads n k) : order.idxOf k < order.idxOf n := by
  obtain ⟨p, hp, hkey⟩ := hedge.edge
  have hn : order.idxOf n < order.length :=
    List.idxOf_lt_length_of_mem (h.perm.mem_iff.mpr hedge.source)
  have hsplit : order = order.take (order.idxOf n) ++ n :: order.drop (order.idxOf n + 1) := by
    conv_lhs => rw [← List.take_append_drop (order.idxOf n) order, List.drop_eq_getElem_cons hn]
    rw [List.getElem_idxOf]
  have hbefore := h.after _ n _ hsplit p hp k hedge.target hkey.symm
  exact (List.mem_take_iff_idxOf_lt (h.perm.mem_iff.mpr hedge.target)).mp hbefore

theorem acyclic (h : g.Arranged order) : g.Acyclic := by
  have hlt : ∀ {n k}, Relation.TransGen g.Leads n k → order.idxOf k < order.idxOf n := by
    intro n k hpath
    induction hpath with
    | single hedge => exact h.idxOf_lt hedge
    | tail _ hedge ih => exact (h.idxOf_lt hedge).trans ih
  exact fun n hcycle => (hlt hcycle).false

end Arranged

/-! ### The trail of the search -/

/-- The path `q` is what an edge of the node at the path `p` has. -/
def Steps (g : DependencyGraph) (p q : Path) : Prop :=
  ∃ n, g.node? p.components = some n ∧ q ∈ n.targets

/-- Paths of nodes that are one edge apart stand for a walk, which has the names that the paths are
displayed with. -/
theorem exists_walk {paths : List Path} (hnodes : ∀ p ∈ paths, g.contains p.components = true)
    (hsteps : paths.IsChain g.Steps) :
    ∃ walk : List GraphNode, walk.map some = paths.map (fun p => g.node? p.components) ∧
      walk.IsChain g.Leads ∧
        walk.map (fun n => n.module.moduleName) = paths.map g.displayName := by
  induction paths with
  | nil => exact ⟨[], rfl, .nil, rfl⟩
  | cons p paths ih =>
    obtain ⟨hp, hpaths⟩ := List.forall_mem_cons.mp hnodes
    obtain ⟨n, hn⟩ := Option.isSome_iff_exists.mp hp
    obtain ⟨walk, hwalk, hedges, hnames⟩ := ih hpaths hsteps.tail
    have hname : n.module.moduleName = g.displayName p := by rw [displayName, hn]
    refine ⟨n :: walk, by simp [hn, hwalk], ?_, by simp [hname, hnames]⟩
    cases walk with
    | nil => exact .singleton n
    | cons k walk =>
      obtain ⟨q, paths, rfl⟩ : ∃ q rest, paths = q :: rest := by
        cases paths with
        | nil => cases hwalk
        | cons q paths => exact ⟨q, paths, rfl⟩
      obtain ⟨⟨n', hn', hq⟩, -⟩ := List.isChain_cons_cons.mp hsteps
      obtain rfl := Option.some.inj (hn.symm.trans hn')
      obtain ⟨hk, hkey⟩ := mem_of_node? (List.cons.inj hwalk).1.symm
      exact .cons_cons ⟨(mem_of_node? hn).1, hk, q, hq, hkey.symm⟩ hedges

/-- Where a path leads on to a file that the trail holds already, the trail from there on closes a
walk. -/
theorem closedWalk_of_trail {trail : List Path} {p : Path}
    (hnodes : ∀ q ∈ trail, g.contains q.components = true)
    (hsteps : (p :: trail).IsChain fun q p => g.Steps p q)
    (again : p.components ∈ trail.map Path.components) :
    ∃ walk, g.ClosedWalk walk ∧
      walk.map (fun n => n.module.moduleName) = g.cycleNames trail p := by
  obtain ⟨front, q, back, hback, hkey, hsplit⟩ : ∃ front q back,
      trail.reverse.dropWhile (fun q => !q.same p) = q :: back ∧ q.components = p.components ∧
        trail.reverse = front ++ q :: back := by
    have happend := List.takeWhile_append_dropWhile (p := fun q : Path => !q.same p)
      (l := trail.reverse)
    cases hdrop : trail.reverse.dropWhile (fun q => !q.same p) with
    | nil =>
      obtain ⟨q, hq, hkey⟩ := List.mem_map.mp again
      have := List.dropWhile_eq_nil_iff.mp hdrop q (List.mem_reverse.mpr hq)
      simp [Path.same, hkey] at this
    | cons q back =>
      have hhead := List.head?_dropWhile_not (fun q : Path => !q.same p) trail.reverse
      rw [hdrop] at hhead happend
      exact ⟨_, q, back, rfl, by simpa [Path.same] using hhead, happend.symm⟩
  have hchain : (q :: back ++ [p]).IsChain g.Steps := by
    have hall := List.isChain_reverse.mpr hsteps
    rw [List.reverse_cons, hsplit, List.append_assoc] at hall
    exact hall.suffix (List.suffix_append _ _)
  have hcontains : ∀ r ∈ q :: back ++ [p], g.contains r.components = true := by
    have hin : ∀ r ∈ q :: back, g.contains r.components = true := fun r hr =>
      hnodes r (List.mem_reverse.mp (hsplit ▸ List.mem_append_right _ hr))
    intro r hr
    rcases List.mem_append.mp hr with hr | hr
    · exact hin r hr
    · rw [List.mem_singleton.mp hr, ← hkey]
      exact hin q (List.mem_cons_self ..)
  obtain ⟨walk, hwalk, hedges, hnames⟩ := exists_walk hcontains hchain
  refine ⟨walk, ⟨?_, fun n hn => ?_, hedges, ?_⟩, by rw [cycleNames, hback, hnames]⟩
  · have hlength := congrArg List.length hwalk
    simp only [List.length_map, List.length_append, List.length_cons, List.length_nil] at hlength
    omega
  · obtain ⟨r, -, hr⟩ := List.mem_map.mp (hwalk ▸ List.mem_map_of_mem hn)
    exact (mem_of_node? hr).1
  -- the first path and the last have the same file
  · have hfirst := congrArg List.head? hwalk
    have hlast := congrArg List.getLast? hwalk
    simp only [List.head?_map, List.getLast?_map, List.cons_append, List.head?_cons,
      List.getLast?_cons, List.getLast?_append, Option.map_some, Option.some_or, Option.getD_some,
      hkey] at hfirst hlast
    exact Option.map_injective (fun _ _ => Option.some.inj) (hlast.trans hfirst.symm)

/-- A search that fails has found a walk that comes back to where it began. -/
theorem closedWalk_of_error {trail : List Path} {o : Ordering} {ps : List Path} {failure : Failure}
    (h : g.visitAll trail o ps = .error failure)
    (hnodes : ∀ p ∈ trail, g.contains p.components = true)
    (hsteps : ∀ p ∈ ps, (p :: trail).IsChain fun q p => g.Steps p q) :
    ∃ walk, g.ClosedWalk walk ∧
      failure = .circularDependency (walk.map fun n => n.module.moduleName) := by
  induction trail, o, ps using visitAll.induct g generalizing failure with
  | case1 trail o =>
    rw [visitAll_nil] at h
    cases h
  | case2 trail o p ps hdone ih =>
    rw [visitAll_done hdone] at h
    exact ih h hnodes (List.forall_mem_cons.mp hsteps).2
  | case3 trail o p ps hdone again =>
    rw [visitAll_cycle hdone again] at h
    cases h
    obtain ⟨walk, hwalk, hnames⟩ :=
      closedWalk_of_trail hnodes (List.forall_mem_cons.mp hsteps).1 again
    exact ⟨walk, hwalk, by rw [hnames]⟩
  | case4 trail o p ps hdone fresh hn ih =>
    rw [visitAll_absent hdone fresh hn] at h
    exact ih h hnodes (List.forall_mem_cons.mp hsteps).2
  | case5 trail o p ps hdone fresh n hn failure' hfail ih =>
    rw [visitAll_node hdone fresh hn, hfail] at h
    cases h
    have hp := (List.forall_mem_cons.mp hsteps).1
    refine ih hfail (List.forall_mem_cons.mpr ⟨?_, hnodes⟩) fun q hq => ?_
    · rw [contains, hn]
      rfl
    · exact .cons_cons ⟨n, hn, hq⟩ hp
  | case6 trail o p ps hdone fresh n hn middle hmiddle _ ih =>
    rw [visitAll_node hdone fresh hn, hmiddle] at h
    exact ih h hnodes (List.forall_mem_cons.mp hsteps).2

theorem closedWalk_of_topologicalSort {failure : Failure} (h : g.topologicalSort = .error failure) :
    ∃ walk, g.ClosedWalk walk ∧
      failure = .circularDependency (walk.map fun n => n.module.moduleName) := by
  unfold topologicalSort at h
  cases hv : g.visitAll [] ⟨[], []⟩ (g.nodes.map GraphNode.path) with
  | error failure' =>
    rw [hv] at h
    cases h
    exact closedWalk_of_error hv nofun fun p _ => .singleton p
  | ok o =>
    rw [hv] at h
    cases h

/-- Sorting gives an order, and there are no cycles, or it gives a closed walk, and there are. -/
theorem topologicalSort_cases (hg : g.Distinct) :
    (∃ order, g.topologicalSort = .ok (order.map GraphNode.module) ∧ g.Arranged order ∧
        g.Acyclic) ∨
      ∃ walk, g.topologicalSort =
        .error (.circularDependency (walk.map fun n => n.module.moduleName)) ∧
          g.ClosedWalk walk ∧ ¬ g.Acyclic := by
  cases h : g.topologicalSort with
  | ok sorted =>
    obtain ⟨order, horder, rfl⟩ := topologicalSort_arranged hg h
    exact .inl ⟨order, rfl, horder, horder.acyclic⟩
  | error failure =>
    obtain ⟨walk, hwalk, rfl⟩ := closedWalk_of_topologicalSort h
    exact .inr ⟨walk, rfl, hwalk, hwalk.not_acyclic⟩

/-- Sorting succeeds exactly on graphs without cycles. An order lists every node once, after the
nodes that its edges lead to; a failure names a closed walk along edges between nodes. -/
theorem sorts_iff_acyclic (inserted : List GraphNode) :
    ((∃ sorted, (ofInserts inserted).topologicalSort = .ok sorted) ↔
        (ofInserts inserted).Acyclic) ∧
      (∀ sorted, (ofInserts inserted).topologicalSort = .ok sorted →
        ∃ order, (ofInserts inserted).Arranged order ∧ sorted = order.map GraphNode.module) ∧
      ∀ failure, (ofInserts inserted).topologicalSort = .error failure →
        ∃ walk, (ofInserts inserted).ClosedWalk walk ∧
          failure = .circularDependency (walk.map fun n => n.module.moduleName) := by
  have hdistinct := distinct_ofInserts inserted
  generalize ofInserts inserted = g at hdistinct
  have hok : ∀ sorted, g.topologicalSort = .ok sorted →
      ∃ order, g.Arranged order ∧ sorted = order.map GraphNode.module :=
    fun sorted h => topologicalSort_arranged hdistinct h
  have herror : ∀ failure, g.topologicalSort = .error failure → ∃ walk, g.ClosedWalk walk ∧
      failure = .circularDependency (walk.map fun n => n.module.moduleName) :=
    fun failure h => closedWalk_of_topologicalSort h
  refine ⟨⟨?_, fun hg => ?_⟩, hok, herror⟩
  · rintro ⟨sorted, h⟩
    obtain ⟨order, horder, -⟩ := hok sorted h
    exact horder.acyclic
  · cases h : g.topologicalSort with
    | ok sorted => exact ⟨sorted, rfl⟩
    | error failure =>
      obtain ⟨walk, hwalk, -⟩ := herror failure h
      exact absurd hg hwalk.not_acyclic

end LuaBundle.DependencyGraph
