import LuaBundle.Failure
import LuaBundle.Graph.Basic

/-!
# Dependencies first

A depth-first search puts every module after the modules that its edges lead to. It fails when it
comes back to a file that it is still busy with.
-/
namespace LuaBundle.DependencyGraph

structure Ordering where
  /-- Files that are done with; some may be no nodes. -/
  done : List FileKey
  /-- Modules, dependencies first. -/
  sorted : List ModuleRecord
  deriving DecidableEq, Repr

/-- The names on the way from a file back to itself, where `trail` is the way to it, last first. -/
def cycleNames (g : DependencyGraph) (trail : List Path) (again : Path) : List String :=
  ((trail.reverse.dropWhile fun p => !p.same again) ++ [again]).map g.displayName

/-- Visit paths in order. `trail` holds the files whose dependencies are being visited, last
first. -/
def visitAll (g : DependencyGraph) (trail : List Path) (o : Ordering) :
    List Path → Except Failure Ordering
  | [] => .ok o
  | p :: ps =>
    if p.components ∈ o.done then visitAll g trail o ps
    else if _h : p.components ∈ trail.map Path.components then
      .error (.circularDependency (g.cycleNames trail p))
    else
      match _hn : g.node? p.components with
      | none => visitAll g trail { o with done := p.components :: o.done } ps
      | some n =>
        match visitAll g (p :: trail) o n.targets with
        | .error e => .error e
        | .ok o =>
          visitAll g trail ⟨p.components :: o.done, o.sorted ++ [n.module]⟩ ps
termination_by ps => (g.outside (trail.map Path.components), ps.length)
decreasing_by
  · exact Prod.Lex.right _ (by simp)
  · exact Prod.Lex.right _ (by simp)
  · exact Prod.Lex.left _ _ (by simpa using outside_cons_lt _hn _h)
  · exact Prod.Lex.right _ (by simp)

/-- Every module after its dependencies, starting from the nodes in the order of insertion. -/
def topologicalSort (g : DependencyGraph) : Except Failure (List ModuleRecord) :=
  (g.visitAll [] ⟨[], []⟩ (g.nodes.map GraphNode.path)).map Ordering.sorted

end LuaBundle.DependencyGraph
