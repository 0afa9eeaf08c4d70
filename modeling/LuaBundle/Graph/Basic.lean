import LuaBundle.Module.Record

/-!
# Dependency graphs

Nodes are files, in the order of their insertion, and are found by the components of their paths.
Edges may lead to paths that are no node.
-/
namespace LuaBundle

/-- What tells two files apart. -/
abbrev FileKey := List Component

structure GraphNode where
  path : Path
  module : ModuleRecord
  dependencies : List Edge
  deriving DecidableEq, Repr

def GraphNode.key (n : GraphNode) : FileKey := n.path.components

def GraphNode.targets (n : GraphNode) : List Path := n.dependencies.filterMap Edge.filePath

structure DependencyGraph where
  nodes : List GraphNode
  deriving DecidableEq, Repr

namespace DependencyGraph

def empty : DependencyGraph := ⟨[]⟩

def putNode (new : GraphNode) : List GraphNode → List GraphNode
  | [] => [new]
  | n :: ns => if n.key = new.key then { new with path := n.path } :: ns else n :: putNode new ns

/-- A node replaces the one for the same file, in its place. -/
def insert (g : DependencyGraph) (n : GraphNode) : DependencyGraph := ⟨putNode n g.nodes⟩

def node? (g : DependencyGraph) (key : FileKey) : Option GraphNode :=
  g.nodes.find? (·.key = key)

def contains (g : DependencyGraph) (key : FileKey) : Bool := (g.node? key).isSome

/-- The logical name of a file, or its path if it is no node. -/
def displayName (g : DependencyGraph) (p : Path) : String :=
  match g.node? p.components with
  | some n => n.module.moduleName
  | none => p.text

def outside (g : DependencyGraph) (keys : List FileKey) : Nat :=
  (g.nodes.filter (·.key ∉ keys)).length

theorem mem_of_node? {g : DependencyGraph} {key : FileKey} {n : GraphNode}
    (h : g.node? key = some n) : n ∈ g.nodes ∧ n.key = key :=
  ⟨List.mem_of_find?_eq_some h, by simpa using List.find?_some h⟩

/-- Passing to a node that is not among the given files leaves fewer outside them. -/
theorem outside_cons_lt {g : DependencyGraph} {key : FileKey} {keys : List FileKey}
    {n : GraphNode} (hn : g.node? key = some n) (hk : key ∉ keys) :
    g.outside (key :: keys) < g.outside keys := by
  obtain ⟨hmem, rfl⟩ := mem_of_node? hn
  unfold outside
  have hsub : (g.nodes.filter (·.key ∉ n.key :: keys)) =
      (g.nodes.filter (·.key ∉ keys)).filter (·.key ≠ n.key) := by
    rw [List.filter_filter]
    congr 1
    funext m
    simp
  rw [hsub]
  exact List.length_filter_lt_length_iff_exists.mpr ⟨n, by simp [hmem, hk], by simp⟩

end DependencyGraph

end LuaBundle
