import LuaBundle.Graph.Basic
import LuaBundle.Lua.Require
import LuaBundle.Module.Resolver

/-!
# Walking requires

From the entry on, every module's text is scanned for requires, which are resolved and then walked
in turn, depth first. A file is visited once, under the record by which it is first met. Unresolved
requires are collected; only a file that cannot be read ends the walk early.
-/
namespace LuaBundle

namespace Path

/-- Whether a path starts at the root, and what it folds to, last component first. Two spellings of
a file are visited apart if they differ in this. -/
def folding (p : Path) : Bool × List Component := (p.isAbsolute, p.components.foldl fold [])

end Path

namespace FileTree

/-- What the paths to a location can fold to. A relative path leaves out the names that it starts
below, and a path that climbs above its start keeps an `..` in front. -/
def spelled (l : Location) : List (List Component) :=
  (List.range (l.length + 1)).flatMap fun n =>
    let stack := ((l.drop n).map Component.name).reverse
    [stack, stack ++ [.up]]

theorem mem_spelled {l : Location} {stack : List Component} :
    stack ∈ spelled l ↔ ∃ above names, l = above ++ names ∧
      (stack = (names.map Component.name).reverse ∨
        stack = (names.map Component.name).reverse ++ [.up]) := by
  simp only [spelled, List.mem_flatMap, List.mem_range, List.mem_cons, List.not_mem_nil, or_false]
  constructor
  · rintro ⟨n, -, h⟩
    exact ⟨l.take n, l.drop n, (List.take_append_drop n l).symm, h⟩
  · rintro ⟨above, names, rfl, h⟩
    have hlength : above.length < (above ++ names).length + 1 := by
      rw [List.length_append]
      omega
    exact ⟨above.length, hlength, by simpa using h⟩

theorem fold_spelled {l : Location} {stack : List Component} (c : Component)
    (h : stack ∈ spelled l) : Path.fold stack c ∈ spelled (stepTo l c) := by
  rw [mem_spelled] at h ⊢
  obtain ⟨above, names, rfl, h⟩ := h
  cases c with
  | root => exact ⟨above, names, rfl, h⟩
  | here => exact ⟨above, names, rfl, h⟩
  | name s =>
    refine ⟨above, names ++ [s], by simp [stepTo], ?_⟩
    rcases h with rfl | rfl <;> simp [Path.fold]
  | up =>
    rcases List.eq_nil_or_concat names with rfl | ⟨front, last, rfl⟩
    · refine ⟨above.dropLast, [], by simp [stepTo], ?_⟩
      rcases h with rfl | rfl <;> simp [Path.fold]
    · refine ⟨above, front, by simp [stepTo], ?_⟩
      rcases h with rfl | rfl <;> simp [Path.fold]

theorem follow_spelled {t : FileTree} {l l' : Location} {stack : List Component}
    {cs : List Component} (h : stack ∈ spelled l) (hf : t.follow l cs = .ok l') :
    cs.foldl Path.fold stack ∈ spelled l' := by
  induction cs generalizing l stack with
  | nil => cases hf; exact h
  | cons c cs ih =>
    rw [follow] at hf
    split at hf
    · exact ih (fold_spelled c h) hf
    · cases hf
    · cases hf

theorem folding_spelled {t : FileTree} {p : Path} {l : Location} (h : t.locate p = .ok l) :
    p.folding.2 ∈ spelled l := by
  unfold locate at h
  split at h
  · cases h
  · exact follow_spelled (mem_spelled.mpr ⟨_, [], (List.append_nil _).symm, .inl rfl⟩) h

/-- What the paths to files of the tree can fold to. -/
def fileFoldings (t : FileTree) : List (Bool × List Component) :=
  t.files.flatMap fun l => (spelled l).flatMap fun stack => [(true, stack), (false, stack)]

theorem mem_files {t : FileTree} {l : Location} {c : Content}
    (h : t.get? l = some (.file c)) : l ∈ t.files := by
  unfold get? at h
  split at h
  · cases h
  · obtain ⟨l₁, l₂, he, -⟩ := List.lookup_eq_some_iff.mp h
    unfold files
    rw [List.mem_filterMap]
    exact ⟨(l, .file c), by simp [he], rfl⟩

theorem locate_of_readText {t : FileTree} {p : Path} {s : String} (h : t.readText p = .ok s) :
    ∃ l, t.locate p = .ok l ∧ ∃ c, t.get? l = some (.file c) := by
  unfold readText entry at h
  cases hl : t.locate p with
  | error e => rw [hl] at h; simp [bind, Except.bind] at h
  | ok l =>
    rw [hl] at h
    refine ⟨l, rfl, ?_⟩
    cases hg : t.get? l with
    | none => simp [bind, Except.bind, hg, throw, throwThe, MonadExceptOf.throw] at h
    | some e =>
      cases e with
      | file c => exact ⟨c, rfl⟩
      | directory =>
        simp [bind, Except.bind, hg, throw, throwThe, MonadExceptOf.throw, pure, Except.pure] at h

theorem folding_of_readText {t : FileTree} {p : Path} {s : String} (h : t.readText p = .ok s) :
    p.folding ∈ t.fileFoldings := by
  obtain ⟨l, hl, c, hc⟩ := locate_of_readText h
  refine List.mem_flatMap.mpr ⟨l, mem_files hc, List.mem_flatMap.mpr ⟨_, folding_spelled hl, ?_⟩⟩
  cases hp : p.isAbsolute <;> simp [Path.folding, hp]

def unvisited (t : FileTree) (visited : List (Bool × List Component)) : Nat :=
  (t.fileFoldings.filter (· ∉ visited)).length

theorem filter_visited_cons (t : FileTree) (s : Bool × List Component)
    (visited : List (Bool × List Component)) :
    t.fileFoldings.filter (· ∉ s :: visited) =
      (t.fileFoldings.filter (· ∉ visited)).filter (· ≠ s) := by
  rw [List.filter_filter]; congr 1; funext m; simp

theorem unvisited_cons_le (t : FileTree) (s : Bool × List Component)
    (visited : List (Bool × List Component)) :
    t.unvisited (s :: visited) ≤ t.unvisited visited := by
  rw [unvisited, filter_visited_cons]
  exact List.length_filter_le ..

theorem unvisited_cons_lt {t : FileTree} {s : Bool × List Component}
    {visited : List (Bool × List Component)} (hs : s ∈ t.fileFoldings) (hv : s ∉ visited) :
    t.unvisited (s :: visited) < t.unvisited visited := by
  rw [unvisited, filter_visited_cons]
  exact List.length_filter_lt_length_iff_exists.mpr ⟨s, by simp [hs, hv], by simp⟩

end FileTree

structure Walk where
  graph : DependencyGraph
  visited : List (Bool × List Component)
  missing : List MissingRecord
  errors : List Failure
  deriving DecidableEq, Repr

namespace Walk

def start : Walk := ⟨.empty, [], [], []⟩

/-- One require of a module: its record, if it is not ignored, and what is missing. -/
structure Answer where
  record : Option ModuleRecord
  missing : Option (MissingRecord × Failure)
  deriving DecidableEq, Repr

def answer (r : Resolver) (t : FileTree) (ignoreMissing : Bool) (requiredBy : String)
    (directory : Path) (requireId : String) : Answer :=
  match r.resolve t requireId directory with
  | .ok record => ⟨if record.isIgnored then none else some record, none⟩
  | .error failure =>
    let record := Resolver.missingRecord requireId failure
    ⟨some record, some
      ({ requiredBy
         requireId
         moduleName := record.moduleName
         overrideApplied := record.overrideApplied
         fatal := !ignoreMissing
         message := failure.message
         code := failure.code }, failure)⟩

/-- The answers to all requires in a module's text. -/
def answers (r : Resolver) (t : FileTree) (ignoreMissing : Bool) (m : ResolvedModule)
    (source : String) : List Answer :=
  (Lua.findRequires source.toList).map fun id =>
    answer r t ignoreMissing m.moduleName (m.filePath.parent?.getD ⟨""⟩) (String.ofList id)

def addNode (w : Walk) (m : ResolvedModule) (dependencies : List ModuleRecord) : Walk :=
  { w with graph := w.graph.insert ⟨m.filePath, .resolved m, dependencies.map ModuleRecord.edge⟩ }

def addMissing (w : Walk) (found : List (MissingRecord × Failure)) : Walk :=
  { w with
    missing := w.missing ++ found.map Prod.fst
    errors := w.errors ++ (found.filter (·.1.fatal)).map Prod.snd }

/-- A walk that came upon a file that cannot be read. -/
structure Stopped where
  walk : Walk
  failure : Failure
  deriving DecidableEq, Repr

/-- Walk from the records in order. The records of a module's requires go before the rest. -/
def visitAll (r : Resolver) (t : FileTree) (ignoreMissing : Bool) (w : Walk) :
    List ModuleRecord → Except Stopped Walk
  | [] => .ok w
  | .ignored _ :: rest => visitAll r t ignoreMissing w rest
  | .missing .. :: rest => visitAll r t ignoreMissing w rest
  | .resolved m :: rest =>
    if _hv : m.filePath.folding ∈ w.visited then visitAll r t ignoreMissing w rest
    else
      let visited := m.filePath.folding :: w.visited
      if m.analyzeDependencies then
        match _hr : t.readText m.filePath with
        | .error fault =>
          .error ⟨{ w with visited }, .access m.filePath.text fault.message⟩
        | .ok source =>
          let found := answers r t ignoreMissing m source
          let records := found.filterMap Answer.record
          let w := (w.addMissing (found.filterMap Answer.missing)).addNode m records
          visitAll r t ignoreMissing { w with visited } (records ++ rest)
      else visitAll r t ignoreMissing { w.addNode m [] with visited } rest
termination_by records => (t.unvisited w.visited, records.length)
decreasing_by
  · exact Prod.Lex.right _ (by simp)
  · exact Prod.Lex.right _ (by simp)
  · exact Prod.Lex.right _ (by simp)
  · exact Prod.Lex.left _ _ (FileTree.unvisited_cons_lt (FileTree.folding_of_readText _hr) _hv)
  · rcases Nat.lt_or_eq_of_le (t.unvisited_cons_le m.filePath.folding w.visited) with h | h
    · exact Prod.Lex.left _ _ h
    · simp only [h]
      exact Prod.Lex.right _ (by simp)

end Walk

structure BuiltGraph where
  entry : ModuleRecord
  graph : DependencyGraph
  /-- Every require that could not be resolved. -/
  missing : List MissingRecord
  /-- The failures of those that are fatal. -/
  errors : List Failure
  deriving DecidableEq, Repr

/-- Walks from entries, one after the other. Its lists hold what the last walk left in them. -/
structure Analyzer where
  resolver : Resolver
  ignoreMissing : Bool
  visited : List (Bool × List Component)
  missing : List MissingRecord
  errors : List Failure
  deriving DecidableEq, Repr

namespace Analyzer

def fresh (r : Resolver) (ignoreMissing : Bool) : Analyzer := ⟨r, ignoreMissing, [], [], []⟩

/-- Begin a walk with the analyzer's lists and no nodes. -/
def walk (a : Analyzer) : Walk := ⟨.empty, a.visited, a.missing, a.errors⟩

/-- Walk from an entry, with the lists cleared first. A walk that ends hands out what is missing; one
that stops leaves it behind. -/
def build (a : Analyzer) (t : FileTree) (entry : Path) : Except Failure BuiltGraph × Analyzer :=
  let a := { a with visited := [], missing := [], errors := [] }
  let record := a.resolver.entryRecord t.workingPath entry
  match Walk.visitAll a.resolver t a.ignoreMissing a.walk [record] with
  | .ok w => (.ok ⟨record, w.graph, w.missing, w.errors⟩, { a with visited := w.visited })
  | .error stopped =>
    let w := stopped.walk
    (.error stopped.failure,
      { a with visited := w.visited, missing := w.missing, errors := w.errors })

/-- What is left from the last walk has no part in the result. -/
theorem fst_build (a : Analyzer) (t : FileTree) (entry : Path) :
    (a.build t entry).1 =
      match Walk.visitAll a.resolver t a.ignoreMissing .start
        [a.resolver.entryRecord t.workingPath entry] with
      | .ok w =>
        .ok ⟨a.resolver.entryRecord t.workingPath entry, w.graph, w.missing, w.errors⟩
      | .error stopped => .error stopped.failure := by
  have hwalk : walk { a with visited := [], missing := [], errors := [] } = .start := rfl
  simp only [build, hwalk]
  split <;> rfl

@[simp] theorem resolver_build (a : Analyzer) (t : FileTree) (entry : Path) :
    (a.build t entry).2.resolver = a.resolver := by
  simp only [build]
  split <;> rfl

@[simp] theorem ignoreMissing_build (a : Analyzer) (t : FileTree) (entry : Path) :
    (a.build t entry).2.ignoreMissing = a.ignoreMissing := by
  simp only [build]
  split <;> rfl

/-- The results of walking from entries in turn. The tree may change from walk to walk. -/
def buildAll (a : Analyzer) : List (FileTree × Path) → List (Except Failure BuiltGraph)
  | [] => []
  | (t, entry) :: rest =>
    let (result, a) := a.build t entry
    result :: buildAll a rest

theorem buildAll_cons (a : Analyzer) (walk : FileTree × Path) (walks : List (FileTree × Path)) :
    a.buildAll (walk :: walks) =
      (a.build walk.1 walk.2).1 :: (a.build walk.1 walk.2).2.buildAll walks := rfl

end Analyzer

def buildGraph (r : Resolver) (t : FileTree) (ignoreMissing : Bool) (entry : Path) :
    Except Failure BuiltGraph :=
  ((Analyzer.fresh r ignoreMissing).build t entry).1

end LuaBundle
