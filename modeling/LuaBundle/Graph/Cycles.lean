import LuaBundle.Graph.Basic

/-!
# Groups of mutually dependent modules
-/
namespace LuaBundle.DependencyGraph

/-- The nodes met from `seen` on, going along edges from the files still to be looked at. -/
def reach (g : DependencyGraph) (seen : List FileKey) : List FileKey → List FileKey
  | [] => seen
  | k :: work =>
    if _h : k ∈ seen then reach g seen work
    else
      match _hn : g.node? k with
      | none => reach g seen work
      | some n => reach g (k :: seen) (n.targets.map Path.components ++ work)
termination_by work => (g.outside seen, work.length)
decreasing_by
  · exact Prod.Lex.right _ (by simp)
  · exact Prod.Lex.right _ (by simp)
  · exact Prod.Lex.left _ _ (outside_cons_lt _hn _h)

/-- The nodes that at least one edge leads to, directly or through others. -/
def reachable (g : DependencyGraph) (n : GraphNode) : List FileKey :=
  g.reach [] (n.targets.map Path.components)

/-- The nodes that lead to `n` and that `n` leads to; `n` is among them if it is on a cycle. -/
def companions (g : DependencyGraph) (n : GraphNode) : List GraphNode :=
  let ahead := g.reachable n
  g.nodes.filter fun m => m.key ∈ ahead ∧ n.key ∈ g.reachable m

/-- The groups of the given nodes, each taken at its first member. -/
def groupsFrom (g : DependencyGraph) (seen : List FileKey) : List GraphNode → List (List GraphNode)
  | [] => []
  | n :: ns =>
    let group := g.companions n
    if n.key ∈ seen ∨ group.isEmpty then groupsFrom g seen ns
    else group :: groupsFrom g (group.map GraphNode.key ++ seen) ns

def sortNames (names : List String) : List String := names.mergeSort fun a b => !(b < a)

def sortGroups (groups : List (List String)) : List (List String) :=
  groups.mergeSort fun a b => !(b < a)

/-- The names of every group of modules that require each other, or of a module that requires
itself. Names and groups are in the order of their code points. -/
def cyclicGroups (g : DependencyGraph) : List (List String) :=
  sortGroups ((g.groupsFrom [] g.nodes).map fun group =>
    sortNames (group.map fun n => n.module.moduleName))

end LuaBundle.DependencyGraph
