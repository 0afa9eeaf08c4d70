import LuaBundle.Config.Loader
import LuaBundle.Proofs.OrderedMap

/-!
# Layers on top of each other

A layer is read through its settings and its overrides. Merging decides each setting on its own, by
the topmost layer that makes it, so layers can be merged in any grouping; and it collects the
overrides in the order in which they come up.
-/
namespace LuaBundle.Config

open Obfuscation (Tool)

/-! ### Laws of merging

Level by level, from the innermost sections to the layer as a whole. -/

instance : Std.Associative ExternalLayer.merge where
  assoc a b c := by simp only [ExternalLayer.merge, Option.or_assoc]

instance : Std.Associative ModuleLayer.merge where
  assoc a b c := by simp only [ModuleLayer.merge, Std.Associative.assoc]

instance : Std.Associative StageLayer.merge where
  assoc a b c := by simp only [StageLayer.merge, Option.or_assoc]

instance : Std.Associative ObfuscationLayer.merge where
  assoc a b c := by simp only [ObfuscationLayer.merge, Std.Associative.assoc]

namespace Layer

instance : Std.Associative Layer.merge where
  assoc a b c := by simp only [Layer.merge, Std.Associative.assoc]

theorem empty_merge (a : Layer) : Layer.empty.merge a = a := by simp [Layer.merge, Layer.empty]

theorem merge_empty (a : Layer) : a.merge .empty = a := by simp [Layer.merge, Layer.empty]

end Layer

/-! ### Settings -/

/-- What a layer can set, besides overrides. A list is one setting, and so is how variables are
renamed. -/
inductive Setting : Type → Type where
  | schema : Setting String
  | entry : Setting Path
  | output : Setting Path
  | sourceRoot : Setting Path
  | ignore : Setting (List String)
  | ignoreMissing : Setting Bool
  | externalEnabled : Setting Bool
  | externalRecursive : Setting Bool
  | externalPaths : Setting (List Path)
  | externalEnv : Setting (List String)
  | tool : Setting Tool
  | minify : Setting Bool
  | rename : Setting RenameChoice
  | ascii : Setting Bool

namespace Layer

def external (l : Layer) : Option ExternalLayer := l.modules.bind (·.external)

def stages (l : Layer) : Option StageLayer := l.obfuscation.bind (·.stages)

def overrides (l : Layer) : OrderedMap String OverrideRule :=
  (l.modules.bind (·.overrides)).getD .empty

end Layer

/-- The value that a layer gives to a setting. -/
def Setting.get? {α : Type} : Setting α → Layer → Option α
  | schema, l => l.schema
  | entry, l => l.entry
  | output, l => l.output
  | sourceRoot, l => l.sourceRoot
  | ignore, l => l.modules.bind (·.ignore)
  | ignoreMissing, l => l.modules.bind (·.ignoreMissing)
  | externalEnabled, l => l.external.bind (·.enabled)
  | externalRecursive, l => l.external.bind (·.recursive)
  | externalPaths, l => l.external.bind (·.paths)
  | externalEnv, l => l.external.bind (·.env)
  | tool, l => l.obfuscation.bind (·.tool)
  | minify, l => l.stages.bind (·.minify)
  | rename, l => l.stages.bind (·.rename)
  | ascii, l => l.stages.bind (·.ascii)

/-! ### One merge -/

theorem bind_merge {α β : Type} {f : α → α → α} {g : α → Option β}
    (h : ∀ base top, g (f base top) = (g top).or (g base)) (base top : Option α) :
    (base.merge f top).bind g = (top.bind g).or (base.bind g) := by
  cases base with
  | none => simp
  | some b =>
    cases top with
    | none => simp
    | some t => exact h b t

namespace Layer

theorem external_merge (base top : Layer) :
    (base.merge top).external = base.external.merge ExternalLayer.merge top.external := by
  show (base.modules.merge ModuleLayer.merge top.modules).bind (·.external) = _
  rw [external, external]
  cases base.modules <;> cases top.modules <;> simp [ModuleLayer.merge]

theorem stages_merge (base top : Layer) :
    (base.merge top).stages = base.stages.merge StageLayer.merge top.stages := by
  show (base.obfuscation.merge ObfuscationLayer.merge top.obfuscation).bind (·.stages) = _
  rw [stages, stages]
  cases base.obfuscation <;> cases top.obfuscation <;> simp [ObfuscationLayer.merge]

theorem overrides_merge (base top : Layer) :
    (base.merge top).overrides = base.overrides.extend top.overrides := by
  have hmodules : (base.merge top).modules = base.modules.merge ModuleLayer.merge top.modules := rfl
  rw [overrides, overrides, overrides, hmodules]
  -- A layer without the section overrides as little as one with no overrides in it.
  rcases base.modules with _ | ⟨_, _, _ | rules, _⟩ <;>
    rcases top.modules with _ | ⟨_, _, _ | more, _⟩ <;>
    simp [ModuleLayer.merge, OrderedMap.empty_extend, OrderedMap.extend_empty]

end Layer

/-- The layer on top decides a setting that it makes, and leaves the others as they are. -/
theorem Setting.get?_merge {α : Type} (s : Setting α) (base top : Layer) :
    s.get? (base.merge top) = (s.get? top).or (s.get? base) := by
  cases s with
  | schema | entry | output | sourceRoot => rfl
  | ignore | ignoreMissing => exact bind_merge (fun _ _ => rfl) base.modules top.modules
  | tool => exact bind_merge (fun _ _ => rfl) base.obfuscation top.obfuscation
  | externalEnabled | externalRecursive | externalPaths | externalEnv =>
    simp only [get?, Layer.external_merge]
    exact bind_merge (fun _ _ => rfl) base.external top.external
  | minify | rename | ascii =>
    simp only [get?, Layer.stages_merge]
    exact bind_merge (fun _ _ => rfl) base.stages top.stages

theorem Setting.get?_empty {α : Type} (s : Setting α) : s.get? .empty = none := by
  cases s <;> rfl

/-! ### Many layers -/

theorem mergeAll_append (lower upper : List Layer) :
    mergeAll (lower ++ upper) = (mergeAll lower).merge (mergeAll upper) := by
  have hfold : upper.foldl Layer.merge ((mergeAll lower).merge .empty) =
    (mergeAll lower).merge (mergeAll upper) := List.foldl_assoc
  rw [Layer.merge_empty] at hfold
  rw [mergeAll, List.foldl_append]
  exact hfold

theorem mergeAll_singleton (l : Layer) : mergeAll [l] = l := l.empty_merge

theorem mergeAll_cons (l : Layer) (all : List Layer) :
    mergeAll (l :: all) = l.merge (mergeAll all) := by
  have happend := mergeAll_append [l] all
  rwa [mergeAll_singleton] at happend

/-- What each merge takes from the layer on top, if it is there, comes from the topmost layer that
has it. -/
theorem mergeAll_topmost {α : Type} {f : Layer → Option α} (hempty : f .empty = none)
    (hmerge : ∀ base top, f (base.merge top) = (f top).or (f base)) (all : List Layer) :
    f (mergeAll all) = all.reverse.findSome? f := by
  induction all with
  | nil => exact hempty
  | cons l all ih =>
    rw [mergeAll_cons, hmerge, ih, List.reverse_cons, List.findSome?_append,
      List.findSome?_singleton]

theorem overrides_mergeAll (all : List Layer) :
    (mergeAll all).overrides = .ofList (all.flatMap fun l => l.overrides.entries) := by
  induction all with
  | nil => rfl
  | cons l all ih =>
    rw [mergeAll_cons, Layer.overrides_merge, ih, OrderedMap.ofList, OrderedMap.extend_insertAll,
      OrderedMap.extend_empty, List.flatMap_cons, OrderedMap.ofList, OrderedMap.insertAll_append,
      ← OrderedMap.extend, OrderedMap.empty_extend]

/-- Layers that are merged two by two, in some grouping. -/
inductive Grouping where
  | nothing
  | one (l : Layer)
  | both (lower upper : Grouping)

namespace Grouping

def merged : Grouping → Layer
  | nothing => .empty
  | one l => l
  | both lower upper => lower.merged.merge upper.merged

/-- The lowest first. -/
def layers : Grouping → List Layer
  | nothing => []
  | one l => [l]
  | both lower upper => lower.layers ++ upper.layers

theorem merged_eq (g : Grouping) : g.merged = mergeAll g.layers := by
  induction g with
  | nothing => rfl
  | one l => exact (mergeAll_singleton l).symm
  | both lower upper hlower hupper => rw [merged, layers, mergeAll_append, hlower, hupper]

end Grouping

/-- Layers are a monoid. In any grouping, each setting has the value of the topmost layer that makes
it; an identifier is overridden if it is in some layer, at the place where it first comes up and by
the entry of the topmost layer that has one. -/
theorem merge_layers :
    (∀ a b c : Layer, (a.merge b).merge c = a.merge (b.merge c)) ∧
    (∀ a : Layer, Layer.empty.merge a = a ∧ a.merge .empty = a) ∧
    ∀ g : Grouping, g.merged = mergeAll g.layers ∧
      (∀ (α : Type) (s : Setting α), s.get? g.merged = g.layers.reverse.findSome? s.get?) ∧
      g.merged.overrides.keys = (g.layers.flatMap fun l => l.overrides.keys).eraseDups ∧
      ∀ id, g.merged.overrides.get? id =
        g.layers.reverse.findSome? fun l => l.overrides.get? id := by
  refine ⟨Std.Associative.assoc, fun a => ⟨a.empty_merge, a.merge_empty⟩,
    fun g => ⟨g.merged_eq, ?_, ?_, ?_⟩⟩
  · intro α s
    rw [g.merged_eq, mergeAll_topmost s.get?_empty s.get?_merge]
  · rw [g.merged_eq, overrides_mergeAll, OrderedMap.keys_ofList, List.map_flatMap]
    rfl
  · intro id
    rw [g.merged_eq, mergeAll_topmost (f := fun l => l.overrides.get? id) rfl]
    intro base top
    rw [Layer.overrides_merge, OrderedMap.get?_extend]

end LuaBundle.Config
