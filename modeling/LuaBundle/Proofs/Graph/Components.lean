import LuaBundle.Graph.Cycles
import LuaBundle.Proofs.Graph.Sorting
import Mathlib.Data.List.Perm.Basic
import Mathlib.Data.List.Sort

/-!
# Groups and strongly connected components

The groups of modules that require each other are the strongly connected components that hold a
cycle. There are none exactly if the graph can be sorted, and the cycle that a failed sort names lies
in one of them.
-/
namespace LuaBundle.DependencyGraph

open Relation (TransGen ReflTransGen)

variable {g : DependencyGraph} {n k m : GraphNode}

/-! ### Reaching -/

section Reach

variable {seen work : List FileKey} {key : FileKey}

theorem reach_nil : g.reach seen [] = seen := by rw [reach]

theorem reach_seen (h : key ∈ seen) : g.reach seen (key :: work) = g.reach seen work := by
  rw [reach, dif_pos h]

theorem reach_absent (h : key ∉ seen) (hn : g.node? key = none) :
    g.reach seen (key :: work) = g.reach seen work := by
  rw [reach, dif_neg h]
  split
  · rfl
  · next n hn' => cases hn.symm.trans hn'

theorem reach_node (h : key ∉ seen) (hn : g.node? key = some n) :
    g.reach seen (key :: work) =
      g.reach (key :: seen) (n.targets.map Path.components ++ work) := by
  rw [reach, dif_neg h]
  split
  · next hn' => cases hn.symm.trans hn'
  · next n' hn' =>
    cases hn.symm.trans hn'
    rfl

theorem leads_of_target {p : Path} (hn : g.node? key = some n) (hp : p ∈ n.targets)
    (hk : g.node? p.components = some k) : g.Leads n k where
  source := (mem_of_node? hn).1
  target := (mem_of_node? hk).1
  edge := ⟨p, hp, (mem_of_node? hk).2.symm⟩

/-- What is reached are nodes, and they have what the nodes at hand have and edges pass on. -/
theorem exists_of_mem_reach {P : GraphNode → Prop} (hstep : ∀ n k, P n → g.Leads n k → P k)
    (hseen : ∀ key ∈ seen, ∃ n, g.node? key = some n ∧ P n)
    (hwork : ∀ key ∈ work, ∀ n, g.node? key = some n → P n) :
    ∀ key ∈ g.reach seen work, ∃ n, g.node? key = some n ∧ P n := by
  induction seen, work using reach.induct g with
  | case1 seen =>
    rw [reach_nil]
    exact hseen
  | case2 seen key work h ih =>
    rw [reach_seen h]
    exact ih hseen (List.forall_mem_cons.mp hwork).2
  | case3 seen key work h hn ih =>
    rw [reach_absent h hn]
    exact ih hseen (List.forall_mem_cons.mp hwork).2
  | case4 seen key work h n hn ih =>
    rw [reach_node h hn]
    obtain ⟨hkey, hrest⟩ := List.forall_mem_cons.mp hwork
    have hpn : P n := hkey n hn
    apply ih
    · exact List.forall_mem_cons.mpr ⟨⟨n, hn, hpn⟩, hseen⟩
    · intro key' hkey' k hk
      rcases List.mem_append.mp hkey' with htarget | hkey'
      · obtain ⟨p, hp, rfl⟩ := List.mem_map.mp htarget
        exact hstep n k hpn (leads_of_target hn hp hk)
      · exact hrest key' hkey' k hk

/-- Whatever a node in the list leads to is in the list. -/
def ClosedUnder (g : DependencyGraph) (found list : List FileKey) : Prop :=
  ∀ n, n.key ∈ found → ∀ k, g.Leads n k → k.key ∈ list

/-- Only the file of a node that was not met before has to stay at hand. -/
theorem ClosedUnder.drop (h : g.ClosedUnder seen (seen ++ key :: work))
    (hkey : ∀ k ∈ g.nodes, k.key = key → key ∈ seen) : g.ClosedUnder seen (seen ++ work) := by
  intro n hn k hk
  rcases List.mem_append.mp (h n hn k hk) with hseen | hmem
  · exact List.mem_append_left _ hseen
  rcases List.mem_cons.mp hmem with heq | hwork
  · apply List.mem_append_left
    rw [heq]
    exact hkey k hk.target heq
  · exact List.mem_append_right _ hwork

/-- A node is met, and what it leads to is put at hand. -/
theorem ClosedUnder.take (hg : g.Distinct) (hn : g.node? key = some n)
    (h : g.ClosedUnder seen (seen ++ key :: work)) :
    g.ClosedUnder (key :: seen) (key :: seen ++ (n.targets.map Path.components ++ work)) := by
  intro n' hn' k hk
  rcases List.mem_cons.mp hn' with rfl | hn'
  · obtain ⟨p, hp, hpk⟩ := hk.edge
    obtain rfl : n = n' := Option.some.inj (hn.symm.trans (hg.node?_key hk.source))
    have htarget : k.key ∈ n.targets.map Path.components := List.mem_map.mpr ⟨p, hp, hpk⟩
    exact List.mem_append_right _ (List.mem_append_left _ htarget)
  · have hmem := h n' hn' k hk
    simp only [List.mem_append, List.mem_cons] at hmem ⊢
    tauto

/-- Everything at hand is reached, and what is reached is closed under edges. -/
theorem reach_closed (hg : g.Distinct) (h : g.ClosedUnder seen (seen ++ work)) :
    seen ⊆ g.reach seen work ∧ (∀ k ∈ g.nodes, k.key ∈ work → k.key ∈ g.reach seen work) ∧
      g.ClosedUnder (g.reach seen work) (g.reach seen work) := by
  induction seen, work using reach.induct g with
  | case1 seen =>
    rw [reach_nil]
    rw [List.append_nil] at h
    exact ⟨List.Subset.refl _, by simp, h⟩
  | case2 seen key work hkey ih =>
    rw [reach_seen hkey]
    obtain ⟨hseen, hwork, hclosed⟩ := ih (h.drop fun _ _ _ => hkey)
    refine ⟨hseen, fun k hk hmem => ?_, hclosed⟩
    rcases List.mem_cons.mp hmem with heq | hmem
    · rw [heq]
      exact hseen hkey
    · exact hwork k hk hmem
  | case3 seen key work hkey hn ih =>
    rw [reach_absent hkey hn]
    have hne : ∀ k ∈ g.nodes, k.key ≠ key := by
      rintro k hk rfl
      cases hn.symm.trans (hg.node?_key hk)
    obtain ⟨hseen, hwork, hclosed⟩ := ih (h.drop fun k hk heq => absurd heq (hne k hk))
    refine ⟨hseen, fun k hk hmem => ?_, hclosed⟩
    exact hwork k hk ((List.mem_cons.mp hmem).resolve_left (hne k hk))
  | case4 seen key work hkey n hn ih =>
    rw [reach_node hkey hn]
    obtain ⟨hseen, hwork, hclosed⟩ := ih (h.take hg hn)
    refine ⟨fun k hk => hseen (List.mem_cons_of_mem _ hk), fun k hk hmem => ?_, hclosed⟩
    rcases List.mem_cons.mp hmem with heq | hmem
    · apply hseen
      rw [heq]
      exact List.mem_cons_self ..
    · exact hwork k hk (List.mem_append_right _ hmem)

end Reach

theorem mem_nodes_of_transGen (h : TransGen g.Leads n k) : n ∈ g.nodes ∧ k ∈ g.nodes := by
  induction h with
  | single hedge => exact ⟨hedge.source, hedge.target⟩
  | tail _ hedge ih => exact ⟨ih.1, hedge.target⟩

theorem mem_reachable (hg : g.Distinct) (hn : n ∈ g.nodes) (hk : k ∈ g.nodes) :
    k.key ∈ g.reachable n ↔ TransGen g.Leads n k := by
  constructor
  · intro h
    obtain ⟨k', hk', hpath⟩ := exists_of_mem_reach (P := TransGen g.Leads n)
      (fun _ _ hpath hedge => hpath.tail hedge) (by simp)
      (fun key hkey k hk => by
        obtain ⟨p, hp, rfl⟩ := List.mem_map.mp hkey
        exact .single (leads_of_target (hg.node?_key hn) hp hk)) _ h
    cases hk'.symm.trans (hg.node?_key hk)
    exact hpath
  · intro h
    have hstart : g.ClosedUnder [] ([] ++ n.targets.map Path.components) := by simp [ClosedUnder]
    obtain ⟨-, hwork, hclosed⟩ := reach_closed hg hstart
    induction h with
    | single hedge =>
      obtain ⟨p, hp, hpk⟩ := hedge.edge
      exact hwork _ hedge.target (List.mem_map.mpr ⟨p, hp, hpk⟩)
    | tail _ hedge ih => exact hclosed _ (ih hedge.source) _ hedge

/-! ### Companions and groups -/

theorem mem_companions (hg : g.Distinct) (hn : n ∈ g.nodes) :
    m ∈ g.companions n ↔ TransGen g.Leads n m ∧ TransGen g.Leads m n := by
  simp only [companions, List.mem_filter, decide_eq_true_eq]
  constructor
  · rintro ⟨hm, hahead, hback⟩
    exact ⟨(mem_reachable hg hn hm).mp hahead, (mem_reachable hg hm hn).mp hback⟩
  · rintro ⟨hahead, hback⟩
    have hm := (mem_nodes_of_transGen hahead).2
    exact ⟨hm, (mem_reachable hg hn hm).mpr hahead, (mem_reachable hg hm hn).mpr hback⟩

theorem self_mem_companions (hg : g.Distinct) (h : TransGen g.Leads n n) : n ∈ g.companions n :=
  (mem_companions hg (mem_nodes_of_transGen h).1).mpr ⟨h, h⟩

/-- The companions, picked from the nodes by whatever tells them. -/
theorem companions_eq_filter (hg : g.Distinct) (hn : n ∈ g.nodes) {p : GraphNode → Bool}
    (h : ∀ m ∈ g.nodes, p m = true ↔ TransGen g.Leads n m ∧ TransGen g.Leads m n) :
    g.companions n = g.nodes.filter p := by
  refine List.filter_congr fun m hm => Bool.eq_iff_iff.mpr ?_
  rw [h m hm, ← mem_companions hg hn, companions, List.mem_filter]
  simp [hm]

theorem companions_congr (hg : g.Distinct) (hk : k ∈ g.companions n) (hn : n ∈ g.nodes) :
    g.companions k = g.companions n := by
  obtain ⟨hahead, hback⟩ := (mem_companions hg hn).mp hk
  refine companions_eq_filter hg (mem_nodes_of_transGen hback).1 fun m hm => ?_
  rw [decide_eq_true_eq, mem_reachable hg hn hm, mem_reachable hg hm hn]
  exact ⟨fun h => ⟨hback.trans h.1, h.2.trans hahead⟩, fun h => ⟨hahead.trans h.1, h.2.trans hback⟩⟩

theorem companions_eq_nil_iff (hg : g.Distinct) (hn : n ∈ g.nodes) :
    g.companions n = [] ↔ ¬ TransGen g.Leads n n := by
  constructor
  · intro h hcycle
    have := self_mem_companions hg hcycle
    rw [h] at this
    cases this
  · intro h
    refine List.eq_nil_iff_forall_not_mem.mpr fun m hm => ?_
    obtain ⟨hahead, hback⟩ := (mem_companions hg hn).mp hm
    exact h (hahead.trans hback)

section Groups

variable {seen : List FileKey} {ns : List GraphNode} {c : List GraphNode}

theorem groupsFrom_skip (h : n.key ∈ seen ∨ g.companions n = []) :
    g.groupsFrom seen (n :: ns) = g.groupsFrom seen ns := by
  rw [groupsFrom]
  exact if_pos (by simpa using h)

theorem groupsFrom_take (hseen : n.key ∉ seen) (h : g.companions n ≠ []) :
    g.groupsFrom seen (n :: ns) =
      g.companions n :: g.groupsFrom ((g.companions n).map GraphNode.key ++ seen) ns := by
  rw [groupsFrom]
  exact if_neg (by simpa using ⟨hseen, h⟩)

/-- The files of whole groups: with a node, all its companions. -/
def Grouped (g : DependencyGraph) (seen : List FileKey) : Prop :=
  ∀ n ∈ g.nodes, n.key ∈ seen → ∀ k ∈ g.companions n, k.key ∈ seen

theorem mem_keys_companions (hg : g.Distinct) (hk : k ∈ g.nodes) :
    k.key ∈ (g.companions n).map GraphNode.key ↔ k ∈ g.companions n := by
  constructor
  · intro h
    obtain ⟨k', hk', hkey⟩ := List.mem_map.mp h
    rw [← hg.eq_of_key (List.mem_filter.mp hk').1 hk hkey]
    exact hk'
  · exact List.mem_map_of_mem

theorem Grouped.companions_append (hg : g.Distinct) (h : g.Grouped seen) (hn : n ∈ g.nodes) :
    g.Grouped ((g.companions n).map GraphNode.key ++ seen) := by
  intro k hk hmem l hl
  rcases List.mem_append.mp hmem with hmem | hmem
  · have hk' := (mem_keys_companions hg hk).mp hmem
    rw [companions_congr hg hk' hn] at hl
    exact List.mem_append_left _ (List.mem_map_of_mem hl)
  · exact List.mem_append_right _ (h k hk hmem l hl)

/-- The groups are the companions of the nodes that are on a cycle and not yet in a group. -/
theorem mem_groupsFrom (hg : g.Distinct) (hns : ns ⊆ g.nodes) (hseen : g.Grouped seen) :
    c ∈ g.groupsFrom seen ns ↔
      ∃ n ∈ ns, n.key ∉ seen ∧ TransGen g.Leads n n ∧ c = g.companions n := by
  induction ns generalizing seen with
  | nil => simp [groupsFrom]
  | cons n ns ih =>
    obtain ⟨hn, hns⟩ := List.cons_subset.mp hns
    by_cases hskip : n.key ∈ seen ∨ g.companions n = []
    · rw [groupsFrom_skip hskip, ih hns hseen]
      have : ¬ (n.key ∉ seen ∧ TransGen g.Leads n n ∧ c = g.companions n) := by
        rintro ⟨hfresh, hcycle, -⟩
        rcases hskip with hmem | hnil
        · exact hfresh hmem
        · exact (companions_eq_nil_iff hg hn).mp hnil hcycle
      simp [this]
    · obtain ⟨hfresh, hne⟩ := not_or.mp hskip
      have hcycle : TransGen g.Leads n n := by
        by_contra h
        exact hne ((companions_eq_nil_iff hg hn).mpr h)
      rw [groupsFrom_take hfresh hne, List.mem_cons, ih hns (hseen.companions_append hg hn)]
      simp only [List.exists_mem_cons_iff, List.mem_append, not_or]
      -- a later node on a cycle is in this group already, or in none of those taken so far
      constructor
      · rintro (rfl | ⟨k, hk, ⟨-, hnew⟩, hrest⟩)
        · exact .inl ⟨hfresh, hcycle, rfl⟩
        · exact .inr ⟨k, hk, hnew, hrest⟩
      · rintro (⟨-, -, rfl⟩ | ⟨k, hk, hnew, hkcycle, rfl⟩)
        · exact .inl rfl
        · by_cases hcomp : k ∈ g.companions n
          · exact .inl (companions_congr hg hcomp hn)
          · have := mt (mem_keys_companions hg (hns hk)).mp hcomp
            exact .inr ⟨k, hk, ⟨this, hnew⟩, hkcycle, rfl⟩

theorem nodup_groupsFrom (hg : g.Distinct) (hns : ns ⊆ g.nodes) (hseen : g.Grouped seen) :
    (g.groupsFrom seen ns).Nodup := by
  induction ns generalizing seen with
  | nil => exact List.nodup_nil
  | cons n ns ih =>
    obtain ⟨hn, hns⟩ := List.cons_subset.mp hns
    by_cases hskip : n.key ∈ seen ∨ g.companions n = []
    · rw [groupsFrom_skip hskip]
      exact ih hns hseen
    · obtain ⟨hfresh, hne⟩ := not_or.mp hskip
      have hseen' := hseen.companions_append hg hn
      rw [groupsFrom_take hfresh hne]
      refine List.nodup_cons.mpr ⟨fun hmem => ?_, ih hns hseen'⟩
      obtain ⟨k, -, hnew, hcycle, heq⟩ := (mem_groupsFrom hg hns hseen').mp hmem
      have hk : k ∈ g.companions n := heq ▸ self_mem_companions hg hcycle
      exact hnew (List.mem_append_left _ (List.mem_map_of_mem hk))

theorem mem_groups (hg : g.Distinct) :
    c ∈ g.groupsFrom [] g.nodes ↔ ∃ n, TransGen g.Leads n n ∧ c = g.companions n := by
  rw [mem_groupsFrom hg (List.Subset.refl _) (by simp [Grouped])]
  constructor
  · rintro ⟨n, -, -, h⟩
    exact ⟨n, h⟩
  · rintro ⟨n, h, hc⟩
    exact ⟨n, (mem_nodes_of_transGen h).1, by simp, h, hc⟩

end Groups

/-! ### Sorted lists -/

/-- In sorting, the order of the list does not matter. -/
theorem mergeSort_congr {α : Type} [LT α] [DecidableLT α] [Trans (α := α) (· < ·) (· < ·) (· < ·)]
    [Std.Asymm (α := α) (· < ·)] [Std.Trichotomous (α := α) (· < ·)] {l l' : List α}
    (h : l.Perm l') :
    (l.mergeSort fun a b => !(b < a)) = l'.mergeSort fun a b => !(b < a) := by
  have htotal : ∀ a b : α, (!decide (b < a) || !decide (a < b)) = true := by
    intro a b
    by_cases hab : a < b
    · simp [Std.Asymm.asymm a b hab]
    · simp [hab]
  have htrans : ∀ a b c : α, (!decide (b < a)) = true → (!decide (c < b)) = true →
      (!decide (c < a)) = true := by
    simp only [Bool.not_eq_true', decide_eq_false_iff_not]
    intro a b c hba hcb hca
    by_cases hab : a < b
    · exact hcb (Trans.trans hca hab)
    · exact hcb (Std.Trichotomous.trichotomous a b hab hba ▸ hca)
  refine List.Perm.eq_of_pairwise ?_ (List.pairwise_mergeSort htrans htotal l)
    (List.pairwise_mergeSort htrans htotal l') ?_
  · simp only [Bool.not_eq_true', decide_eq_false_iff_not]
    exact fun a b _ _ hba hab => Std.Trichotomous.trichotomous a b hab hba
  · exact (List.mergeSort_perm _ _).trans (h.trans (List.mergeSort_perm _ _).symm)

theorem sortNames_congr {names names' : List String} (h : names.Perm names') :
    sortNames names = sortNames names' :=
  mergeSort_congr h

theorem sortGroups_congr {groups groups' : List (List String)} (h : groups.Perm groups') :
    sortGroups groups = sortGroups groups' :=
  mergeSort_congr h

/-! ### Strongly connected components -/

/-- Nodes that lead to each other, in any number of steps. -/
def Mutual (g : DependencyGraph) (n k : GraphNode) : Prop :=
  ReflTransGen g.Leads n k ∧ ReflTransGen g.Leads k n

/-- The nodes, each in one part, where a part holds all nodes that are mutual with one of it. -/
structure Components (g : DependencyGraph) (parts : List (List GraphNode)) : Prop where
  perm : parts.flatten.Perm g.nodes
  ne_nil : ∀ c ∈ parts, c ≠ []
  mem_iff : ∀ c ∈ parts, ∀ n ∈ c, ∀ k ∈ g.nodes, k ∈ c ↔ g.Mutual n k

/-- An edge of the node has its own file. -/
def requiresItself (n : GraphNode) : Bool := n.targets.any fun p => p.components = n.key

/-- More than one node, or a node with an edge to itself. -/
def isCyclic (c : List GraphNode) : Bool := 1 < c.length || c.any requiresItself

theorem requiresItself_iff (hn : n ∈ g.nodes) : requiresItself n = true ↔ g.Leads n n := by
  simp only [requiresItself, List.any_eq_true, decide_eq_true_eq]
  exact ⟨fun h => ⟨hn, hn, h⟩, fun h => h.edge⟩

/-- Any list falls into the classes of an equivalence. -/
theorem exists_classes {α : Type} {r : α → α → Prop} (hr : Equivalence r) (l : List α) :
    ∃ parts : List (List α), parts.flatten.Perm l ∧ (∀ c ∈ parts, c ≠ []) ∧
      ∀ c ∈ parts, ∀ a ∈ c, ∀ b ∈ l, b ∈ c ↔ r a b := by
  classical
  induction hlength : l.length using Nat.strong_induction_on generalizing l with
  | h length ih =>
    cases l with
    | nil => exact ⟨[], by simp⟩
    | cons a l =>
      -- the class of the first element, and the classes of what is not in it
      let own := (a :: l).filter fun b => r a b
      let others := (a :: l).filter fun b => !decide (r a b)
      have ha : a ∈ own := List.mem_filter.mpr ⟨List.mem_cons_self .., by simpa using hr.refl a⟩
      have hperm : (own ++ others).Perm (a :: l) := List.filter_append_perm _ _
      have hshorter : others.length < length := by
        have := hperm.length_eq
        have := List.length_pos_of_mem ha
        rw [List.length_append] at *
        omega
      obtain ⟨parts, hparts, hne, hmem⟩ := ih _ hshorter others rfl
      refine ⟨own :: parts, ?_, ?_, ?_⟩
      · exact (List.Perm.append_left own hparts).trans hperm
      · exact List.forall_mem_cons.mpr ⟨List.ne_nil_of_mem ha, hne⟩
      · refine List.forall_mem_cons.mpr ⟨fun b hb d hd => ?_, fun c hc b hb d hd => ?_⟩
        · have hab : r a b := by simpa using (List.mem_filter.mp hb).2
          simp only [own, List.mem_filter, hd, true_and, decide_eq_true_eq]
          exact ⟨fun had => hr.trans (hr.symm hab) had, fun hbd => hr.trans hab hbd⟩
        · have hb' : b ∈ others := hparts.mem_iff.mp (List.mem_flatten.mpr ⟨c, hc, hb⟩)
          have hab : ¬ r a b := by simpa using (List.mem_filter.mp hb').2
          by_cases had : r a d
          · have hdc : d ∉ c := fun hdc => by
              have := hparts.mem_iff.mp (List.mem_flatten.mpr ⟨c, hc, hdc⟩)
              simp [others, had] at this
            have hbd : ¬ r b d := fun hbd => hab (hr.trans had (hr.symm hbd))
            exact ⟨fun h => absurd h hdc, fun h => absurd h hbd⟩
          · exact hmem c hc b hb d (List.mem_filter.mpr ⟨hd, by simpa using had⟩)

theorem exists_components (g : DependencyGraph) : ∃ parts, g.Components parts := by
  have hmutual : Equivalence g.Mutual :=
    ⟨fun _ => ⟨.refl, .refl⟩, fun h => ⟨h.2, h.1⟩, fun h h' => ⟨h.1.trans h'.1, h'.2.trans h.2⟩⟩
  obtain ⟨parts, hperm, hne, hmem⟩ := exists_classes hmutual g.nodes
  exact ⟨parts, hperm, hne, hmem⟩

namespace Components

variable {parts : List (List GraphNode)} {c c' : List GraphNode}

theorem subset_nodes (h : g.Components parts) (hc : c ∈ parts) : c ⊆ g.nodes := fun _ hn =>
  h.perm.mem_iff.mp (List.mem_flatten.mpr ⟨c, hc, hn⟩)

theorem exists_part (h : g.Components parts) (hn : n ∈ g.nodes) : ∃ c ∈ parts, n ∈ c :=
  List.mem_flatten.mp (h.perm.mem_iff.mpr hn)

theorem nodup_flatten (h : g.Components parts) (hg : g.Distinct) : parts.flatten.Nodup :=
  h.perm.nodup_iff.mpr (List.Nodup.of_map _ hg)

theorem nodup_part (h : g.Components parts) (hg : g.Distinct) (hc : c ∈ parts) : c.Nodup :=
  (List.nodup_flatten.mp (h.nodup_flatten hg)).1 c hc

theorem nodup (h : g.Components parts) (hg : g.Distinct) : parts.Nodup := by
  have hdisjoint := (List.nodup_flatten.mp (h.nodup_flatten hg)).2
  refine hdisjoint.imp_of_mem fun hc _ hcc' heq => ?_
  obtain ⟨n, hn⟩ := List.exists_mem_of_ne_nil _ (h.ne_nil _ hc)
  exact hcc' hn (heq ▸ hn)

/-- Parts with a common node are one part. -/
theorem eq_of_mem (h : g.Components parts) (hg : g.Distinct) (hc : c ∈ parts) (hc' : c' ∈ parts)
    (hn : n ∈ c) (hn' : n ∈ c') : c = c' := by
  by_contra hne
  have hdisjoint := (List.nodup_flatten.mp (h.nodup_flatten hg)).2
  have hsymm : Std.Symm (α := List GraphNode) List.Disjoint := ⟨fun _ _ hd _ hn hn' => hd hn' hn⟩
  exact hdisjoint.forall hc hc' hne hn hn'

/-- A part of several nodes is one with another node beside any of its own. -/
theorem one_lt_length_iff (h : g.Components parts) (hg : g.Distinct) (hc : c ∈ parts)
    (hn : n ∈ c) : 1 < c.length ↔ ∃ k ∈ c, k ≠ n := by
  have hnodup := h.nodup_part hg hc
  obtain ⟨before, after, rfl⟩ := List.append_of_mem hn
  have hmiddle := List.nodup_middle.mp hnodup
  constructor
  · intro hlength
    have hne : before ++ after ≠ [] := by
      rw [List.length_append, List.length_cons] at hlength
      rw [← List.length_pos_iff, List.length_append]
      omega
    obtain ⟨k, hk⟩ := List.exists_mem_of_ne_nil _ hne
    refine ⟨k, by simpa [or_left_comm] using .inr (List.mem_append.mp hk), ?_⟩
    rintro rfl
    exact (List.nodup_cons.mp hmiddle).1 hk
  · rintro ⟨k, hk, hne⟩
    have hk' : k ∈ before ++ after := by simpa [hne] using hk
    have := List.length_pos_of_mem hk'
    simp only [List.length_append, List.length_cons] at this ⊢
    omega

/-- A part is cyclic exactly if its nodes are on cycles. -/
theorem isCyclic_iff (h : g.Components parts) (hg : g.Distinct) (hc : c ∈ parts) (hn : n ∈ c) :
    isCyclic c = true ↔ TransGen g.Leads n n := by
  have hmem := h.mem_iff c hc n hn
  simp only [isCyclic, Bool.or_eq_true, decide_eq_true_eq, List.any_eq_true,
    h.one_lt_length_iff hg hc hn]
  constructor
  · rintro (⟨k, hk, hne⟩ | ⟨k, hk, hself⟩)
    · obtain ⟨hahead, hback⟩ := (hmem k (h.subset_nodes hc hk)).mp hk
      rcases Relation.reflTransGen_iff_eq_or_transGen.mp hahead with heq | hpath
      · exact absurd heq hne
      · exact hpath.trans_left hback
    · have hnode := h.subset_nodes hc hk
      obtain ⟨hahead, hback⟩ := (hmem k hnode).mp hk
      have hedge : g.Leads k k := (requiresItself_iff hnode).mp hself
      exact (TransGen.trans_right hahead (.single hedge)).trans_left hback
  -- the first edge of the cycle leads to another node or is the node's edge to itself
  · intro hcycle
    obtain ⟨k, hedge, hback⟩ := TransGen.head'_iff.mp hcycle
    have hk : k ∈ c := (hmem k hedge.target).mpr ⟨.single hedge, hback⟩
    by_cases heq : k = n
    · subst heq
      exact .inr ⟨k, hk, (requiresItself_iff hedge.source).mpr hedge⟩
    · exact .inl ⟨k, hk, heq⟩

/-- The companions of a node on a cycle are the nodes of its part. -/
theorem companions_eq (h : g.Components parts) (hg : g.Distinct) (hc : c ∈ parts) (hn : n ∈ c)
    (hcycle : TransGen g.Leads n n) : g.companions n = g.nodes.filter (· ∈ c) := by
  refine companions_eq_filter hg (h.subset_nodes hc hn) fun m hm => ?_
  rw [decide_eq_true_eq, h.mem_iff c hc n hn m hm]
  constructor
  · rintro ⟨hahead, hback⟩
    exact ⟨hcycle.trans_left hahead, TransGen.trans_right hback hcycle⟩
  · rintro ⟨hahead, hback⟩
    exact ⟨hahead.to_reflTransGen, hback.to_reflTransGen⟩

/-- The groups are the cyclic parts, each with its nodes in the order of the graph. -/
theorem groups_perm (h : g.Components parts) (hg : g.Distinct) :
    (g.groupsFrom [] g.nodes).Perm
      ((parts.filter isCyclic).map fun c => g.nodes.filter (· ∈ c)) := by
  have hgroups : (g.groupsFrom [] g.nodes).Nodup :=
    nodup_groupsFrom hg (List.Subset.refl _) (by simp [Grouped])
  have hparts : ((parts.filter isCyclic).map fun c => g.nodes.filter (· ∈ c)).Nodup := by
    refine List.Nodup.map_on ?_ ((h.nodup hg).filter _)
    intro c hc c' hc' heq
    have hc := (List.mem_filter.mp hc).1
    obtain ⟨n, hn⟩ := List.exists_mem_of_ne_nil _ (h.ne_nil c hc)
    have hmem : n ∈ g.nodes.filter (· ∈ c) := by simp [h.subset_nodes hc hn, hn]
    rw [heq] at hmem
    exact h.eq_of_mem hg hc (List.mem_filter.mp hc').1 hn (by simpa using (List.mem_filter.mp hmem).2)
  refine (List.perm_ext_iff_of_nodup hgroups hparts).mpr fun group => ?_
  simp only [mem_groups hg, List.mem_map, List.mem_filter]
  constructor
  · rintro ⟨n, hcycle, rfl⟩
    obtain ⟨c, hc, hn⟩ := h.exists_part (mem_nodes_of_transGen hcycle).1
    exact ⟨c, ⟨hc, (h.isCyclic_iff hg hc hn).mpr hcycle⟩, (h.companions_eq hg hc hn hcycle).symm⟩
  · rintro ⟨c, ⟨hc, hcyclic⟩, rfl⟩
    obtain ⟨n, hn⟩ := List.exists_mem_of_ne_nil _ (h.ne_nil c hc)
    have hcycle := (h.isCyclic_iff hg hc hn).mp hcyclic
    exact ⟨n, hcycle, (h.companions_eq hg hc hn hcycle).symm⟩

theorem nodes_perm (h : g.Components parts) (hg : g.Distinct) (hc : c ∈ parts) :
    (g.nodes.filter (· ∈ c)).Perm c := by
  have hnodes : g.nodes.Nodup := List.Nodup.of_map _ hg
  refine (List.perm_ext_iff_of_nodup (hnodes.filter _) (h.nodup_part hg hc)).mpr fun n => ?_
  simp only [List.mem_filter, decide_eq_true_eq, and_iff_right_iff_imp]
  exact fun hn => h.subset_nodes hc hn

theorem cyclicGroups_eq (h : g.Components parts) (hg : g.Distinct) :
    g.cyclicGroups = sortGroups ((parts.filter isCyclic).map fun c =>
      sortNames (c.map fun n => n.module.moduleName)) := by
  refine sortGroups_congr (((h.groups_perm hg).map _).trans ?_)
  rw [List.map_map]
  refine List.Perm.of_eq (List.map_congr_left fun c hc => sortNames_congr ?_)
  exact (h.nodes_perm hg (List.mem_filter.mp hc).1).map _

end Components

/-! ### Sorting and groups -/

theorem sortGroups_eq_nil {groups : List (List String)} : sortGroups groups = [] ↔ groups = [] := by
  rw [sortGroups, ← List.length_eq_zero_iff, List.length_mergeSort, List.length_eq_zero_iff]

theorem cyclicGroups_eq_nil_iff (hg : g.Distinct) : g.cyclicGroups = [] ↔ g.Acyclic := by
  rw [cyclicGroups, sortGroups_eq_nil, List.map_eq_nil_iff]
  constructor
  · intro h n hcycle
    have : g.companions n ∈ g.groupsFrom [] g.nodes := (mem_groups hg).mpr ⟨n, hcycle, rfl⟩
    rw [h] at this
    cases this
  · intro h
    refine List.eq_nil_iff_forall_not_mem.mpr fun c hc => ?_
    obtain ⟨n, hcycle, -⟩ := (mem_groups hg).mp hc
    exact h n hcycle

theorem reflTransGen_of_isChain {walk : List GraphNode} (h : (n :: walk).IsChain g.Leads) :
    ∀ k ∈ n :: walk, ReflTransGen g.Leads n k ∧
      ReflTransGen g.Leads k ((n :: walk).getLast (List.cons_ne_nil _ _)) := by
  induction walk generalizing n with
  | nil =>
    intro k hk
    rw [List.mem_singleton.mp hk]
    exact ⟨.refl, .refl⟩
  | cons l walk ih =>
    obtain ⟨hedge, hrest⟩ := List.isChain_cons_cons.mp h
    have hl := ih hrest
    rw [List.getLast_cons (List.cons_ne_nil _ _)]
    refine List.forall_mem_cons.mpr ⟨?_, fun k hk => ?_⟩
    · exact ⟨.refl, .head hedge (hl l (List.mem_cons_self ..)).2⟩
    · exact ⟨.head hedge (hl k hk).1, (hl k hk).2⟩

/-- Each node of a closed walk leads to each other and to itself. -/
theorem ClosedWalk.transGen {walk : List GraphNode} (h : g.ClosedWalk walk) (hn : n ∈ walk)
    (hk : k ∈ walk) : TransGen g.Leads n k := by
  obtain ⟨first, second, rest, rfl⟩ : ∃ first second rest, walk = first :: second :: rest := by
    match walk, h.two_le_length with
    | first :: second :: rest, _ => exact ⟨first, second, rest, rfl⟩
  have hclosed : (first :: second :: rest).getLast (List.cons_ne_nil _ _) = first := by
    have := h.closed
    rw [List.getLast?_eq_some_getLast (List.cons_ne_nil _ _)] at this
    exact Option.some.inj this
  have hwalk := reflTransGen_of_isChain h.edges
  rw [hclosed] at hwalk
  obtain ⟨hedge, -⟩ := List.isChain_cons_cons.mp h.edges
  have haround : TransGen g.Leads first first :=
    .head' hedge (hwalk second (by simp)).2
  exact (TransGen.trans_right (hwalk n hn).2 haround).trans_left (hwalk k hk).1

/-- There are no groups exactly if sorting succeeds. Whatever the strongly connected components are,
the groups are the names of the cyclic ones, and a failed sort names a closed walk inside one of
them. -/
theorem cyclicGroups_components (inserted : List GraphNode) :
    ((ofInserts inserted).cyclicGroups = [] ↔
        ∃ sorted, (ofInserts inserted).topologicalSort = .ok sorted) ∧
      (∃ parts, (ofInserts inserted).Components parts) ∧
      ∀ parts, (ofInserts inserted).Components parts →
        ((ofInserts inserted).cyclicGroups = sortGroups ((parts.filter isCyclic).map fun c =>
          sortNames (c.map fun n => n.module.moduleName))) ∧
        ∀ failure, (ofInserts inserted).topologicalSort = .error failure →
          ∃ walk, (ofInserts inserted).ClosedWalk walk ∧
            failure = .circularDependency (walk.map fun n => n.module.moduleName) ∧
            ∃ c ∈ parts, isCyclic c = true ∧ walk ⊆ c := by
  have hg := distinct_ofInserts inserted
  generalize ofInserts inserted = g at hg
  refine ⟨?_, g.exists_components, fun parts hparts => ⟨hparts.cyclicGroups_eq hg, ?_⟩⟩
  · rw [cyclicGroups_eq_nil_iff hg]
    constructor
    · intro hacyclic
      cases hsort : g.topologicalSort with
      | ok sorted => exact ⟨sorted, rfl⟩
      | error failure =>
        obtain ⟨walk, hwalk, -⟩ := closedWalk_of_topologicalSort hsort
        exact absurd hacyclic hwalk.not_acyclic
    · rintro ⟨sorted, hsort⟩
      obtain ⟨order, horder, -⟩ := topologicalSort_arranged hg hsort
      exact horder.acyclic
  · intro failure hsort
    obtain ⟨walk, hwalk, hnames⟩ := closedWalk_of_topologicalSort hsort
    obtain ⟨n, hn⟩ := List.exists_mem_of_length_pos (l := walk) (by have := hwalk.two_le_length; omega)
    obtain ⟨c, hc, hnc⟩ := hparts.exists_part (hwalk.nodes n hn)
    refine ⟨walk, hwalk, hnames, c, hc, ?_, fun k hk => ?_⟩
    · exact (hparts.isCyclic_iff hg hc hnc).mpr (hwalk.transGen hn hn)
    · refine (hparts.mem_iff c hc n hnc k (hwalk.nodes k hk)).mpr ⟨?_, ?_⟩
      · exact (hwalk.transGen hn hk).to_reflTransGen
      · exact (hwalk.transGen hk hn).to_reflTransGen

section Sample

def aNode : GraphNode :=
  ⟨⟨"/a.lua"⟩, .resolved ⟨"a", "a", ⟨"/a.lua"⟩, false, false, true⟩,
    [⟨"b", "b", some ⟨"/b.lua"⟩, false, false, false⟩]⟩

def bNode : GraphNode :=
  ⟨⟨"/b.lua"⟩, .resolved ⟨"b", "b", ⟨"/b.lua"⟩, false, false, true⟩,
    [⟨"a", "a", some ⟨"/a.lua"⟩, false, false, false⟩]⟩

/-- Two modules that require each other. -/
def pairGraph : DependencyGraph := ofInserts [aNode, bNode]

theorem topologicalSort_pairGraph :
    pairGraph.topologicalSort = .error (.circularDependency ["a", "b", "a"]) := by
  have hback : pairGraph.visitAll [⟨"/b.lua"⟩, ⟨"/a.lua"⟩] ⟨[], []⟩ [⟨"/a.lua"⟩] =
      .error (.circularDependency ["a", "b", "a"]) := by
    rw [visitAll_cycle (by decide) (by decide +kernel)]
    exact congrArg _ (congrArg _ (by decide +kernel))
  have hb : pairGraph.visitAll [⟨"/a.lua"⟩] ⟨[], []⟩ [⟨"/b.lua"⟩] =
      .error (.circularDependency ["a", "b", "a"]) := by
    have hnode : pairGraph.node? (Path.components ⟨"/b.lua"⟩) = some bNode := by decide +kernel
    have htargets : bNode.targets = [⟨"/a.lua"⟩] := by decide
    rw [visitAll_node (by decide) (by decide +kernel) hnode, htargets, hback]
    rfl
  have hnode : pairGraph.node? (Path.components ⟨"/a.lua"⟩) = some aNode := by decide +kernel
  have htargets : aNode.targets = [⟨"/b.lua"⟩] := by decide
  have hpaths : pairGraph.nodes.map GraphNode.path = [⟨"/a.lua"⟩, ⟨"/b.lua"⟩] := by decide +kernel
  rw [topologicalSort, hpaths, visitAll_node (by decide) (by decide) hnode, htargets, hb]
  rfl

theorem components_pairGraph : pairGraph.Components [[aNode, bNode]] := by
  have hnodes : pairGraph.nodes = [aNode, bNode] := by decide +kernel
  have hab : pairGraph.Leads aNode bNode :=
    ⟨by simp [hnodes], by simp [hnodes], ⟨"/b.lua"⟩, by decide, rfl⟩
  have hba : pairGraph.Leads bNode aNode :=
    ⟨by simp [hnodes], by simp [hnodes], ⟨"/a.lua"⟩, by decide, rfl⟩
  constructor
  case perm => rw [hnodes, List.flatten_singleton]
  case ne_nil => simp
  case mem_iff =>
    intro c hc n hn k hk
    obtain rfl := List.mem_singleton.mp hc
    rw [hnodes] at hk
    refine ⟨fun _ => ?_, fun _ => hk⟩
    simp only [List.mem_cons, List.not_mem_nil, or_false] at hn hk
    rcases hn with rfl | rfl
    · rcases hk with rfl | rfl
      · exact ⟨.refl, .refl⟩
      · exact ⟨.single hab, .single hba⟩
    · rcases hk with rfl | rfl
      · exact ⟨.single hba, .single hab⟩
      · exact ⟨.refl, .refl⟩

end Sample

theorem pair_grouped :
    pairGraph.topologicalSort = .error (.circularDependency ["a", "b", "a"]) ∧
      pairGraph.Components [[aNode, bNode]] ∧ pairGraph.cyclicGroups = [["a", "b"]] := by
  obtain ⟨-, -, hgroups⟩ := cyclicGroups_components [aNode, bNode]
  refine ⟨topologicalSort_pairGraph, components_pairGraph, ?_⟩
  have hnames : sortNames ["a", "b"] = ["a", "b"] := List.mergeSort_of_pairwise (by decide)
  have hcyclic : [[aNode, bNode]].filter isCyclic = [[aNode, bNode]] := by decide
  rw [pairGraph, (hgroups _ components_pairGraph).1, hcyclic]
  exact (congrArg (fun names => sortGroups [names]) hnames).trans (List.mergeSort_singleton _)

end LuaBundle.DependencyGraph
