import LuaBundle.Proofs.Graph.DepthFirst

/-!
# What a walk looks at

A walk looks for files where its resolutions probe, and reads the entry and the files that they lead
to. Nothing else is seen: on two trees that look the same there, the same steps are taken, so the
walks come to the same graph or to the same failure.
-/
namespace LuaBundle

/-! ### Probing -/

/-- Probing ends at the first file, so the paths behind it have no part in the answer. -/
theorem find?_eq_of_agree {α : Type} {p q : α → Bool} {xs : List α}
    (h : ∀ x ∈ xs.take (xs.findIdx p + 1), q x = p x) : xs.find? q = xs.find? p := by
  induction xs with
  | nil => rfl
  | cons x xs ih =>
    have hx : q x = p x := h x (by simp)
    by_cases hp : p x = true
    · rw [List.find?_cons_of_pos hp, List.find?_cons_of_pos (hx.trans hp)]
    · have hq : ¬ q x = true := by rwa [hx]
      rw [List.find?_cons_of_neg hp, List.find?_cons_of_neg hq]
      apply ih
      intro y hy
      apply h
      rw [List.findIdx_cons, Bool.eq_false_iff.mpr hp]
      exact List.mem_cons_of_mem x hy

namespace Resolver

variable {r : Resolver} {t t' : FileTree} {requireId : String} {requesting : Path}

/-- The paths at which a file is looked for, up to the first that has one. -/
def probed (r : Resolver) (t : FileTree) (requireId : String) (requesting : Path) : List Path :=
  let id := normalizeId requireId
  if id ∈ r.ignore then []
  else (r.probes id requesting).take ((r.probes id requesting).findIdx t.isFile + 1)

theorem resolve_probed (h : ∀ p ∈ r.probed t requireId requesting, t'.isFile p = t.isFile p) :
    r.resolve t' requireId requesting = r.resolve t requireId requesting := by
  unfold resolve
  by_cases hid : normalizeId requireId ∈ r.ignore
  · simp only [if_pos hid]
  · simp only [probed, if_neg hid] at h
    simp only [if_neg hid, find?_eq_of_agree h]

end Resolver

namespace Walk

variable {r : Resolver} {t t' : FileTree} {policy : Bool} {entry : Path}

/-! ### The footprint of a walk -/

/-- The walk from an entry comes to a module that requires this identifier, and resolves it from
this directory. -/
inductive Resolves (r : Resolver) (t : FileTree) (policy : Bool) (entry : Path) :
    String → Path → Prop where
  | require {w : Walk} {m : ResolvedModule} {rest : List ModuleRecord} {source : String}
      {id : List Char}
      (run : Relation.ReflTransGen (Step r t policy)
        (.start, [r.entryRecord t.workingPath entry]) (w, .resolved m :: rest))
      (fresh : m.filePath.folding ∉ w.visited) (analyzed : m.analyzeDependencies = true)
      (read : t.readText m.filePath = .ok source) (required : id ∈ Lua.findRequires source.toList) :
      Resolves r t policy entry (String.ofList id) (m.filePath.parent?.getD ⟨""⟩)

/-- The files that a walk may read: the entry, and those that its resolutions lead to. -/
inductive Reaches (r : Resolver) (t : FileTree) (policy : Bool) (entry : Path) : Path → Prop where
  | entry : Reaches r t policy entry (t.workingPath.resolve entry)
  | resolution {id : String} {directory : Path} {m : ResolvedModule}
      (resolves : Resolves r t policy entry id directory)
      (found : r.resolve t id directory = .ok (.resolved m)) : Reaches r t policy entry m.filePath

/-- To the walk on the first tree the second one looks the same. -/
structure SameFootprint (r : Resolver) (t t' : FileTree) (policy : Bool) (entry : Path) :
    Prop where
  start : t'.workingPath.resolve entry = t.workingPath.resolve entry
  probes : ∀ id directory, Resolves r t policy entry id directory →
    ∀ p ∈ r.probed t id directory, t'.isFile p = t.isFile p
  texts : ∀ p, Reaches r t policy entry p → t'.readText p = t.readText p
  sizes : ∀ p, Reaches r t policy entry p → t'.size? p = t.size? p

/-- What a walk has met and what it has still to visit are files that it reaches. -/
structure Traced (r : Resolver) (t : FileTree) (policy : Bool) (entry : Path)
    (s : Walk × List ModuleRecord) : Prop where
  nodes : ∀ n ∈ s.1.graph.nodes, ∀ p, n.module.filePath? = some p → Reaches r t policy entry p
  pending : ∀ record ∈ s.2, ∀ p, record.filePath? = some p → Reaches r t policy entry p

theorem module_of_mem_putNode {new n : GraphNode} {nodes : List GraphNode}
    (h : n ∈ DependencyGraph.putNode new nodes) : n ∈ nodes ∨ n.module = new.module := by
  induction nodes with
  | nil => exact .inr (congrArg GraphNode.module (List.mem_singleton.mp h))
  | cons k nodes ih =>
    rw [DependencyGraph.putNode] at h
    split at h
    · rcases List.mem_cons.mp h with rfl | h
      · exact .inr rfl
      · exact .inl (List.mem_cons_of_mem k h)
    · rcases List.mem_cons.mp h with rfl | h
      · exact .inl (List.mem_cons_self ..)
      · exact (ih h).imp_left (List.mem_cons_of_mem k)

namespace Traced

variable {s s' : Walk × List ModuleRecord} {w : Walk} {m : ResolvedModule}
  {rest : List ModuleRecord}

theorem start : Traced r t policy entry (.start, [r.entryRecord t.workingPath entry]) := by
  obtain ⟨m, hm, hfile, -⟩ := r.entryRecord_resolved t.workingPath entry
  constructor
  · intro n hn
    cases hn
  · intro record hrecord p hp
    rw [List.mem_singleton.mp hrecord, hm] at hp
    cases hp
    rw [hfile]
    exact .entry

theorem head (h : Traced r t policy entry (w, .resolved m :: rest)) :
    Reaches r t policy entry m.filePath :=
  h.pending _ (List.mem_cons_self ..) _ rfl

theorem tail {record : ModuleRecord} (h : Traced r t policy entry (w, record :: rest)) :
    Traced r t policy entry (w, rest) :=
  ⟨h.nodes, fun record hrecord => h.pending record (List.mem_cons_of_mem _ hrecord)⟩

/-- A node for the module in front keeps the walk traced. -/
theorem add {n : GraphNode} {w' : Walk} (h : Traced r t policy entry (w, .resolved m :: rest))
    (hn : n.module = .resolved m) (hw : w'.graph = w.graph.insert n) :
    Traced r t policy entry (w', rest) := by
  constructor
  · intro k hk p hp
    change k ∈ w'.graph.nodes at hk
    rw [hw] at hk
    rcases module_of_mem_putNode hk with hk | hk
    · exact h.nodes k hk p hp
    · rw [hk, hn] at hp
      cases hp
      exact h.head
  · exact h.tail.pending

theorem step
    (hrun : Relation.ReflTransGen (Step r t policy)
      (.start, [r.entryRecord t.workingPath entry]) s)
    (hs : Step r t policy s s') (h : Traced r t policy entry s) : Traced r t policy entry s' := by
  cases hs with
  | pass unresolved => exact h.tail
  | skip visited => exact h.tail
  | @enter w m rest source fresh analyzed read =>
    have hadd : Traced r t policy entry (w.enter r t policy m source, rest) :=
      h.add (n := ⟨m.filePath, .resolved m, _⟩) rfl rfl
    constructor
    · exact hadd.nodes
    · intro record hrecord p hp
      rcases List.mem_append.mp hrecord with hrecord | hrecord
      · cases record with
        | resolved m' =>
          cases hp
          obtain ⟨id, hid, hfound, -⟩ := mem_required_resolved hrecord
          exact .resolution (.require hrun fresh analyzed read hid) hfound
        | ignored id => cases hp
        | missing id message overridden => cases hp
      · exact hadd.pending record hrecord p hp
  | @leaf w m rest fresh left => exact h.add (n := ⟨m.filePath, .resolved m, []⟩) rfl rfl

theorem run
    (hs : Relation.ReflTransGen (Step r t policy)
      (.start, [r.entryRecord t.workingPath entry]) s) : Traced r t policy entry s := by
  induction hs with
  | refl => exact start
  | tail hrun hstep ih => exact ih.step hrun hstep

end Traced

/-! ### Two trees -/

theorem enter_congr (policy : Bool) (w : Walk) {m : ResolvedModule} {source : String}
    (h : ∀ id ∈ Lua.findRequires source.toList,
      r.resolve t' (String.ofList id) (m.filePath.parent?.getD ⟨""⟩) =
        r.resolve t (String.ofList id) (m.filePath.parent?.getD ⟨""⟩)) :
    required r t' policy m source = required r t policy m source ∧
      w.enter r t' policy m source = w.enter r t policy m source := by
  have hanswers : answers r t' policy m source = answers r t policy m source := by
    apply List.map_congr_left
    intro id hid
    rw [answer, answer, h id hid]
  constructor
  · rw [required, required, hanswers]
  · rw [enter, enter, required, required, hanswers]

namespace SameFootprint

variable {s s' : Walk × List ModuleRecord}

theorem record (h : SameFootprint r t t' policy entry) :
    r.entryRecord t'.workingPath entry = r.entryRecord t.workingPath entry := by
  simp only [Resolver.entryRecord, h.start]

/-- A step on the first tree is a step on the second. -/
theorem step (h : SameFootprint r t t' policy entry)
    (hrun : Relation.ReflTransGen (Step r t policy)
      (.start, [r.entryRecord t.workingPath entry]) s)
    (hs : Step r t policy s s') : Step r t' policy s s' := by
  cases hs with
  | pass unresolved => exact .pass unresolved
  | skip visited => exact .skip visited
  | @enter w m rest source fresh analyzed read =>
    have hread : t'.readText m.filePath = .ok source := by
      rw [h.texts _ (Traced.run hrun).head, read]
    obtain ⟨hrequired, henter⟩ := enter_congr policy w fun id hid =>
      Resolver.resolve_probed (h.probes _ _ (.require hrun fresh analyzed read hid))
    have hstep : Step r t' policy (w, .resolved m :: rest) _ := .enter fresh analyzed hread
    rwa [hrequired, henter] at hstep
  | leaf fresh left => exact .leaf fresh left

theorem run (h : SameFootprint r t t' policy entry)
    (hs : Relation.ReflTransGen (Step r t policy)
      (.start, [r.entryRecord t.workingPath entry]) s) :
    Relation.ReflTransGen (Step r t' policy)
      (.start, [r.entryRecord t'.workingPath entry]) s := by
  rw [h.record]
  induction hs with
  | refl => exact .refl
  | tail hrun hstep ih => exact ih.tail (h.step hrun hstep)

theorem stops (h : SameFootprint r t t' policy entry) {failure : Failure}
    (hs : Stops r t policy (.start, [r.entryRecord t.workingPath entry]) failure) :
    Stops r t' policy (.start, [r.entryRecord t'.workingPath entry]) failure := by
  obtain ⟨hrun, fresh, analyzed, unread⟩ := hs
  apply Stops.unreadable (h.run hrun) fresh analyzed
  rw [h.texts _ (Traced.run hrun).head, unread]

/-- The walks come to the same, whether they end or are stopped. -/
theorem buildGraph (h : SameFootprint r t t' policy entry) :
    buildGraph r t' policy entry = buildGraph r t policy entry := by
  cases hb : LuaBundle.buildGraph r t policy entry with
  | error failure => exact buildGraph_eq_error_iff.mpr (h.stops (buildGraph_eq_error_iff.mp hb))
  | ok built =>
    obtain ⟨w, hw, rfl⟩ := buildGraph_eq_ok_iff.mp hb
    apply buildGraph_eq_ok_iff.mpr
    use w
    constructor
    · rw [visitAll_run (h.run (steps_of_visitAll hw))]
      exact visitAll_nil
    · rw [h.record]

end SameFootprint

/-! ### Walks that end -/

/-- The identifiers that the text of a node requires, with the directory that they are resolved
from. -/
def requests (t : FileTree) (n : GraphNode) : List (String × Path) :=
  match t.readText n.path with
  | .ok source =>
    (Lua.findRequires source.toList).map fun id => (String.ofList id, n.path.parent?.getD ⟨""⟩)
  | .error _ => []

section Built

variable {built : BuiltGraph} {id : String} {directory p : Path}

/-- What a walk that ends resolves is what its nodes require. -/
theorem request_of_resolves (hb : LuaBundle.buildGraph r t policy entry = .ok built)
    (h : Resolves r t policy entry id directory) :
    ∃ n ∈ built.graph.nodes, n.module.analyzeDependencies = true ∧
      (id, directory) ∈ requests t n := by
  cases h with
  | @require w m rest source id run fresh analyzed read required =>
  obtain ⟨first, w', rfl, hstart, -⟩ := run_of_buildGraph hb
  obtain ⟨w', hw, heq⟩ := buildGraph_eq_ok_iff.mp hb
  obtain ⟨hentry, hgraph, -, -⟩ := BuiltGraph.mk.inj heq
  rw [hentry] at hstart
  have hgrown := Grown.run run hstart
  have hstep : Step r t policy (w, .resolved m :: rest) _ := .enter fresh analyzed read
  rw [visitAll_run (run.tail hstep)] at hw
  obtain ⟨added, -, hnodes, -⟩ := Grown.depthFirst (steps_of_visitAll hw) rfl (hgrown.step hstep)
  let n : GraphNode := ⟨m.filePath, .resolved m,
    (Walk.required r t policy m source).map ModuleRecord.edge⟩
  have hinsert : (w.enter r t policy m source).graph.nodes = w.graph.nodes ++ [n] :=
    hgrown.nodes_insert (n := n) fresh rfl
  refine ⟨n, ?_, analyzed, ?_⟩
  · rw [hgraph, hnodes, hinsert]
    simp
  · have hread : t.readText n.path = .ok source := read
    simp only [requests, hread]
    exact List.mem_map.mpr ⟨id, required, rfl⟩

/-- What a walk that ends reaches are the files of its nodes. -/
theorem reaches_iff (hb : LuaBundle.buildGraph r t policy entry = .ok built) :
    Reaches r t policy entry p ↔ ∃ n ∈ built.graph.nodes, n.path = p := by
  have hexact := buildGraph_exact hb
  constructor
  · intro h
    cases h with
    | entry =>
      obtain ⟨n, rest, hnodes, -, hpath⟩ := hexact.first
      exact ⟨n, hnodes ▸ List.mem_cons_self .., hpath⟩
    | @resolution id directory m resolves found =>
      obtain ⟨n, hn, hanalyzed, hrequest⟩ := request_of_resolves hb resolves
      obtain ⟨source, hread, hedges⟩ := hexact.scanned n hn hanalyzed
      simp only [requests, hread, List.mem_map, Prod.mk.injEq] at hrequest
      obtain ⟨text, htext, rfl, rfl⟩ := hrequest
      have hrecord : .resolved m ∈ requireRecords r t (n.path.parent?.getD ⟨""⟩) source := by
        apply List.mem_filterMap.mpr
        use text, htext
        rw [requireRecord?, found]
        rfl
      apply hexact.closed n hn (ModuleRecord.resolved m).edge ?_ _ rfl
      rw [hedges]
      exact List.mem_map_of_mem hrecord
  · rintro ⟨n, hn, rfl⟩
    obtain ⟨w, hw, rfl⟩ := buildGraph_eq_ok_iff.mp hb
    exact (Traced.run (steps_of_visitAll hw)).nodes n hn n.path (hexact.file n hn)

/-- Whether a tree looks the same to a walk that ends can be seen at its nodes. -/
theorem SameFootprint.of_nodes (hb : LuaBundle.buildGraph r t policy entry = .ok built)
    (hstart : t'.workingPath.resolve entry = t.workingPath.resolve entry)
    (h : ∀ n ∈ built.graph.nodes, t'.readText n.path = t.readText n.path ∧
      t'.size? n.path = t.size? n.path ∧
      ∀ q ∈ requests t n, ∀ p ∈ r.probed t q.1 q.2, t'.isFile p = t.isFile p) :
    SameFootprint r t t' policy entry := by
  constructor
  case start => exact hstart
  case probes =>
    intro id directory hresolves
    obtain ⟨n, hn, -, hrequest⟩ := request_of_resolves hb hresolves
    exact (h n hn).2.2 (id, directory) hrequest
  case texts =>
    intro p hp
    obtain ⟨n, hn, rfl⟩ := (reaches_iff hb).mp hp
    exact (h n hn).1
  case sizes =>
    intro p hp
    obtain ⟨n, hn, rfl⟩ := (reaches_iff hb).mp hp
    exact (h n hn).2.1

end Built

end Walk

end LuaBundle
