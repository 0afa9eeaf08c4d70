import LuaBundle.Graph.Order
import LuaBundle.Proofs.Graph.Walk
import Mathlib.Data.List.Nodup

/-!
# What sorting arranges

A file is done only after the files that its node's edges lead to, and no file is done twice. So a
sort that does not fail lists every node once, after the nodes that its edges lead to.
-/
namespace LuaBundle.DependencyGraph

variable {g : DependencyGraph}

def Distinct (g : DependencyGraph) : Prop := (g.nodes.map GraphNode.key).Nodup

theorem Distinct.eq_of_key (hg : g.Distinct) {n k : GraphNode} (hn : n ∈ g.nodes) (hk : k ∈ g.nodes)
    (h : n.key = k.key) : n = k :=
  List.inj_on_of_nodup_map hg hn hk h

theorem Distinct.node?_key (hg : g.Distinct) {n : GraphNode} (hn : n ∈ g.nodes) :
    g.node? n.key = some n := by
  cases h : g.node? n.key with
  | none => simpa using List.find?_eq_none.mp h n hn
  | some k =>
    obtain ⟨hk, hkey⟩ := mem_of_node? h
    rw [hg.eq_of_key hk hn hkey]

/-- The nodes are listed once each, after the nodes that their edges lead to. -/
structure Arranged (g : DependencyGraph) (order : List GraphNode) : Prop where
  perm : order.Perm g.nodes
  after : ∀ before n later, order = before ++ n :: later → ∀ p ∈ n.targets, ∀ k ∈ g.nodes,
    k.key = p.components → k ∈ before

namespace Ordering

/-- What holds of the files that are done with, which are listed last first. -/
structure Settled (g : DependencyGraph) (o : Ordering) : Prop where
  nodup : o.done.Nodup
  sorted : o.sorted = (o.done.reverse.filterMap g.node?).map GraphNode.module
  closed : ∀ later key before n, o.done = later ++ key :: before → g.node? key = some n →
    ∀ p ∈ n.targets, p.components ∈ before

theorem Settled.empty : Settled g ⟨[], []⟩ :=
  ⟨List.nodup_nil, rfl, fun later key before n h => absurd h (by simp)⟩

variable {o : Ordering} {key : FileKey}

theorem Settled.pass (h : o.Settled g) (hnew : key ∉ o.done) (hn : g.node? key = none) :
    Settled g { o with done := key :: o.done } where
  nodup := List.nodup_cons.mpr ⟨hnew, h.nodup⟩
  sorted := by simp [h.sorted, hn]
  closed := by
    intro later key' before n he hn'
    rcases List.cons_eq_append_iff.mp he with ⟨rfl, he⟩ | ⟨later, rfl, he⟩
    · obtain ⟨rfl, rfl⟩ := List.cons.inj he
      rw [hn] at hn'
      cases hn'
    · exact h.closed later key' before n (List.cons.inj he).2 hn'

theorem Settled.put {n : GraphNode} (h : o.Settled g) (hnew : key ∉ o.done)
    (hn : g.node? key = some n) (htargets : ∀ p ∈ n.targets, p.components ∈ o.done) :
    Settled g ⟨key :: o.done, o.sorted ++ [n.module]⟩ where
  nodup := List.nodup_cons.mpr ⟨hnew, h.nodup⟩
  sorted := by simp [h.sorted, hn]
  closed := by
    intro later key' before n' he hn'
    rcases List.cons_eq_append_iff.mp he with ⟨rfl, he⟩ | ⟨later, rfl, he⟩
    · obtain ⟨rfl, rfl⟩ := List.cons.inj he
      rw [hn] at hn'
      cases hn'
      exact htargets
    · exact h.closed later key' before n' (List.cons.inj he).2 hn'

end Ordering

section Equations

variable {trail : List Path} {o : Ordering} {p : Path} {ps : List Path}

theorem visitAll_nil : g.visitAll trail o [] = .ok o := by rw [visitAll]

theorem visitAll_done (h : p.components ∈ o.done) :
    g.visitAll trail o (p :: ps) = g.visitAll trail o ps := by
  rw [visitAll, if_pos h]

theorem visitAll_cycle (h : p.components ∉ o.done)
    (again : p.components ∈ trail.map Path.components) :
    g.visitAll trail o (p :: ps) = .error (.circularDependency (g.cycleNames trail p)) := by
  rw [visitAll, if_neg h, dif_pos again]

theorem visitAll_absent (h : p.components ∉ o.done)
    (fresh : p.components ∉ trail.map Path.components)
    (hn : g.node? p.components = none) :
    g.visitAll trail o (p :: ps) =
      g.visitAll trail { o with done := p.components :: o.done } ps := by
  rw [visitAll, if_neg h, dif_neg fresh]
  split
  · rfl
  · next n hn' => cases hn.symm.trans hn'

theorem visitAll_node {n : GraphNode} (h : p.components ∉ o.done)
    (fresh : p.components ∉ trail.map Path.components) (hn : g.node? p.components = some n) :
    g.visitAll trail o (p :: ps) = (g.visitAll (p :: trail) o n.targets).bind fun o =>
      g.visitAll trail ⟨p.components :: o.done, o.sorted ++ [n.module]⟩ ps := by
  rw [visitAll, if_neg h, dif_neg fresh]
  split
  · next hn' => cases hn.symm.trans hn'
  · next n' hn' =>
    cases hn.symm.trans hn'
    cases g.visitAll (p :: trail) o n.targets with
    | error failure => rfl
    | ok o => rfl

end Equations

/-- A sort of bounded depth and length, for computing with closed graphs. -/
def sortWithin (g : DependencyGraph) : Nat → List Path → Ordering → List Path → Option Ordering
  | _, _, o, [] => some o
  | 0, _, _, _ :: _ => none
  | steps + 1, trail, o, p :: ps =>
    if p.components ∈ o.done then sortWithin g steps trail o ps
    else if p.components ∈ trail.map Path.components then none
    else
      match g.node? p.components with
      | none => sortWithin g steps trail { o with done := p.components :: o.done } ps
      | some n =>
        (sortWithin g steps (p :: trail) o n.targets).bind fun o =>
          sortWithin g steps trail ⟨p.components :: o.done, o.sorted ++ [n.module]⟩ ps

theorem visitAll_of_sortWithin {steps : Nat} {trail : List Path} {o o' : Ordering} {ps : List Path}
    (h : g.sortWithin steps trail o ps = some o') : g.visitAll trail o ps = .ok o' := by
  induction steps generalizing trail o o' ps with
  | zero =>
    cases ps with
    | nil => cases h; exact visitAll_nil
    | cons p ps => cases h
  | succ steps ih =>
    cases ps with
    | nil => cases h; exact visitAll_nil
    | cons p ps =>
      rw [sortWithin] at h
      by_cases hdone : p.components ∈ o.done
      · rw [if_pos hdone] at h
        rw [visitAll_done hdone]
        exact ih h
      · rw [if_neg hdone] at h
        by_cases again : p.components ∈ trail.map Path.components
        · rw [if_pos again] at h
          cases h
        · rw [if_neg again] at h
          split at h
          · next hn => rw [visitAll_absent hdone again hn]; exact ih h
          · next n hn =>
            obtain ⟨middle, hmiddle, hrest⟩ := Option.bind_eq_some_iff.mp h
            rw [visitAll_node hdone again hn, ih hmiddle]
            exact ih hrest

theorem undone_cons {trail : List Path} {p : Path} {done : List (List Component)}
    (fresh : p.components ∉ trail.map Path.components)
    (h : ∀ q ∈ trail, q.components ∉ done) : ∀ q ∈ trail, q.components ∉ p.components :: done := by
  intro q hq hmem
  rcases List.mem_cons.mp hmem with he | hmem
  · exact fresh (he ▸ List.mem_map_of_mem hq)
  · exact h q hq hmem

/-- Visiting gets all the given files done, keeps what is done, and leaves the trail undone. -/
theorem visitAll_settled {trail : List Path} {o o' : Ordering} {ps : List Path}
    (h : g.visitAll trail o ps = .ok o') (ho : o.Settled g)
    (htrail : ∀ p ∈ trail, p.components ∉ o.done) :
    o'.Settled g ∧ o.done ⊆ o'.done ∧ (∀ p ∈ trail, p.components ∉ o'.done) ∧
      ∀ p ∈ ps, p.components ∈ o'.done := by
  induction trail, o, ps using visitAll.induct g generalizing o' with
  | case1 trail o =>
    rw [visitAll_nil] at h
    cases h
    exact ⟨ho, List.Subset.refl _, htrail, by simp⟩
  | case2 trail o p ps hdone ih =>
    rw [visitAll_done hdone] at h
    obtain ⟨hs, hsub, hundone, hall⟩ := ih h ho htrail
    exact ⟨hs, hsub, hundone, List.forall_mem_cons.mpr ⟨hsub hdone, hall⟩⟩
  | case3 trail o p ps hdone again =>
    rw [visitAll_cycle hdone again] at h
    cases h
  | case4 trail o p ps hdone fresh hn ih =>
    rw [visitAll_absent hdone fresh hn] at h
    obtain ⟨hs, hsub, hundone, hall⟩ := ih h (ho.pass hdone hn) (undone_cons fresh htrail)
    exact ⟨hs, List.Subset.trans (List.subset_cons_self _ _) hsub, hundone,
      List.forall_mem_cons.mpr ⟨hsub (List.mem_cons_self ..), hall⟩⟩
  | case5 trail o p ps hdone fresh n hn failure hfail ih =>
    rw [visitAll_node hdone fresh hn, hfail] at h
    cases h
  | case6 trail o p ps hdone fresh n hn middle hmiddle ihdeps ih =>
    rw [visitAll_node hdone fresh hn, hmiddle] at h
    have hin : ∀ q ∈ p :: trail, q.components ∉ o.done :=
      List.forall_mem_cons.mpr ⟨hdone, htrail⟩
    obtain ⟨hs, hsub, hundone, hall⟩ := ihdeps hmiddle ho hin
    obtain ⟨hp, hundone⟩ := List.forall_mem_cons.mp hundone
    obtain ⟨hs', hsub', hundone', hall'⟩ := ih h (hs.put hp hn hall) (undone_cons fresh hundone)
    have hkept : middle.done ⊆ o'.done := List.Subset.trans (List.subset_cons_self _ _) hsub'
    exact ⟨hs', List.Subset.trans hsub hkept, hundone',
      List.forall_mem_cons.mpr ⟨hsub' (List.mem_cons_self ..), hall'⟩⟩

theorem Ordering.Settled.arranged {o : Ordering} (h : o.Settled g) (hg : g.Distinct)
    (hall : ∀ n ∈ g.nodes, n.key ∈ o.done) : g.Arranged (o.done.reverse.filterMap g.node?) where
  perm := by
    refine (List.perm_ext_iff_of_nodup ?_ (List.Nodup.of_map _ hg)).mpr fun n => ?_
    · refine (List.nodup_reverse.mpr h.nodup).filterMap fun k k' n hk hk' => ?_
      rw [← (mem_of_node? hk).2, (mem_of_node? hk').2]
    · rw [List.mem_filterMap]
      constructor
      · rintro ⟨key, -, hn⟩
        exact (mem_of_node? hn).1
      · intro hn
        exact ⟨n.key, List.mem_reverse.mpr (hall n hn), hg.node?_key hn⟩
  after := by
    intro before n later he p hp k hk hkey
    obtain ⟨front, back, hsplit, rfl, hback⟩ := List.filterMap_eq_append_iff.mp he
    obtain ⟨skipped, key, rest, rfl, hskipped, hn, -⟩ := List.filterMap_eq_cons_iff.mp hback
    have hdone : o.done = rest.reverse ++ key :: (front ++ skipped).reverse := by
      rw [← List.reverse_reverse o.done, hsplit]
      simp
    have hmem := h.closed _ _ _ n hdone hn p hp
    rw [← hkey, List.mem_reverse] at hmem
    refine List.mem_filterMap.mpr ⟨k.key, ?_, hg.node?_key hk⟩
    rcases List.mem_append.mp hmem with hmem | hmem
    · exact hmem
    · cases (hskipped _ hmem).symm.trans (hg.node?_key hk)

/-- A sort that does not fail gives the modules of the nodes in such an order. -/
theorem topologicalSort_arranged (hg : g.Distinct) {sorted : List ModuleRecord}
    (h : g.topologicalSort = .ok sorted) :
    ∃ order, g.Arranged order ∧ sorted = order.map GraphNode.module := by
  unfold topologicalSort at h
  cases hv : g.visitAll [] ⟨[], []⟩ (g.nodes.map GraphNode.path) with
  | error failure => rw [hv] at h; cases h
  | ok o =>
    rw [hv] at h
    cases h
    obtain ⟨hs, -, -, hall⟩ := visitAll_settled hv .empty (by simp)
    exact ⟨_, hs.arranged hg fun n hn => hall _ (List.mem_map_of_mem hn), hs.sorted⟩

/-! ### Finished graphs -/

namespace Complete

variable {r : Resolver} {t : FileTree} {ignoreMissing : Bool}

theorem path_plain (h : g.Complete r t ignoreMissing) {n : GraphNode} (hn : n ∈ g.nodes) :
    n.path.Plain := by
  obtain ⟨m, hm⟩ := h.explored n hn
  rw [hm.path]
  exact hm.plain

theorem distinct_keys (h : g.Complete r t ignoreMissing) : g.Distinct := by
  refine List.Nodup.map_on ?_ (List.Nodup.of_map _ h.distinct)
  intro n hn k hk hkey
  have hpath := (h.path_plain hn).eq_of_components (h.path_plain hk) hkey
  exact List.inj_on_of_nodup_map h.distinct hn hk hpath

theorem filter_not_missing (h : g.Complete r t ignoreMissing) {nodes : List GraphNode}
    (hnodes : nodes ⊆ g.nodes) :
    (nodes.map GraphNode.module).filter (!·.isMissing) = nodes.map GraphNode.module := by
  refine List.filter_eq_self.mpr fun record hrecord => ?_
  obtain ⟨n, hn, rfl⟩ := List.mem_map.mp hrecord
  obtain ⟨m, hm⟩ := h.explored n (hnodes hn)
  rw [hm.module]
  rfl

/-- An order of a finished graph ends with its first node: every other node has to come before one
that leads to it. -/
theorem getLast?_arranged (h : g.Complete r t ignoreMissing) {n : GraphNode}
    {rest order : List GraphNode} (hfirst : g.nodes = n :: rest) (ho : g.Arranged order) :
    order.getLast? = some n := by
  rcases List.eq_nil_or_concat order with rfl | ⟨front, last, rfl⟩
  · have := ho.perm.length_eq
    rw [hfirst] at this
    cases this
  · have hlast : last ∈ g.nodes := ho.perm.mem_iff.mp (by simp)
    obtain ⟨before, after, hsplit⟩ := List.append_of_mem hlast
    cases before with
    | nil =>
      rw [hfirst] at hsplit
      rw [(List.cons.inj hsplit).1]
      simp
    | cons k before =>
      obtain ⟨k, hk, htarget⟩ := h.linked _ _ _ hsplit (List.cons_ne_nil _ _)
      have hk : k ∈ front ++ [last] := by
        rw [← List.concat_eq_append]
        exact ho.perm.mem_iff.mpr (by rw [hsplit]; exact List.mem_append_left _ hk)
      obtain ⟨earlier, later, he⟩ := List.append_of_mem hk
      have hmem := ho.after earlier k later (by rw [List.concat_eq_append, he]) _
        htarget last hlast rfl
      have hnodup : (front ++ [last]).Nodup := by
        rw [← List.concat_eq_append]
        exact ho.perm.nodup_iff.mpr (List.Nodup.of_map _ h.distinct)
      rcases List.eq_nil_or_concat later with rfl | ⟨later, end', rfl⟩
      · obtain ⟨rfl, -⟩ := List.append_inj' he rfl
        exact absurd hmem (by simpa using (List.nodup_append.mp hnodup).2.2 last)
      · rw [List.concat_eq_append, ← List.cons_append, ← List.append_assoc] at he
        obtain ⟨rfl, -⟩ := List.append_inj' he rfl
        rw [List.nodup_append] at hnodup
        exact absurd rfl (hnodup.2.2 last (List.mem_append_left _ hmem) last (by simp))

end Complete

end LuaBundle.DependencyGraph
