import LuaBundle.Config.Settings

/-!
# Layers of a configuration

A layer leaves open what it does not set, be it a field or a section as a whole. Layers are put on
top of each other, and the topmost that sets something decides it; only overrides are collected from
all of them. What is still open at the end takes its default.
-/
namespace LuaBundle.Config

open Obfuscation (RenameSettings Tool)

/-- Renaming is switched, or set in detail. -/
inductive RenameChoice where
  | toggle (enabled : Bool)
  | detailed (enabled : Option Bool) (min max : Option Int)
  deriving DecidableEq, Repr

structure ExternalLayer where
  enabled : Option Bool
  recursive : Option Bool
  paths : Option (List Path)
  env : Option (List String)
  deriving DecidableEq, Repr

structure ModuleLayer where
  ignore : Option (List String)
  ignoreMissing : Option Bool
  overrides : Option (OrderedMap String OverrideRule)
  external : Option ExternalLayer
  deriving DecidableEq, Repr

structure StageLayer where
  minify : Option Bool
  rename : Option RenameChoice
  ascii : Option Bool
  deriving DecidableEq, Repr

structure ObfuscationLayer where
  tool : Option Tool
  stages : Option StageLayer
  deriving DecidableEq, Repr

structure Layer where
  schema : Option String
  entry : Option Path
  output : Option Path
  sourceRoot : Option Path
  modules : Option ModuleLayer
  obfuscation : Option ObfuscationLayer
  deriving DecidableEq, Repr

def ExternalLayer.empty : ExternalLayer := ⟨none, none, none, none⟩

def ModuleLayer.empty : ModuleLayer := ⟨none, none, none, none⟩

def StageLayer.empty : StageLayer := ⟨none, none, none⟩

def ObfuscationLayer.empty : ObfuscationLayer := ⟨none, none⟩

def Layer.empty : Layer := ⟨none, none, none, none, none, none⟩

/-! A section that only one of two layers has is taken as it is; a section that both have is merged
field by field. -/

def ExternalLayer.merge (base top : ExternalLayer) : ExternalLayer :=
  { enabled := top.enabled.or base.enabled
    recursive := top.recursive.or base.recursive
    paths := top.paths.or base.paths
    env := top.env.or base.env }

/-- An override of the layer on top replaces one for the same identifier, in its place. -/
def ModuleLayer.merge (base top : ModuleLayer) : ModuleLayer :=
  { ignore := top.ignore.or base.ignore
    ignoreMissing := top.ignoreMissing.or base.ignoreMissing
    overrides := base.overrides.merge OrderedMap.extend top.overrides
    external := base.external.merge ExternalLayer.merge top.external }

/-- How variables are renamed is one setting: a choice on top replaces the whole choice below. -/
def StageLayer.merge (base top : StageLayer) : StageLayer :=
  { minify := top.minify.or base.minify
    rename := top.rename.or base.rename
    ascii := top.ascii.or base.ascii }

def ObfuscationLayer.merge (base top : ObfuscationLayer) : ObfuscationLayer :=
  { tool := top.tool.or base.tool
    stages := base.stages.merge StageLayer.merge top.stages }

def ExternalLayer.resolvePaths (directory : Path) (l : ExternalLayer) : ExternalLayer :=
  { l with paths := l.paths.map (·.map directory.resolve) }

/-- The paths of overrides stay: they start from the source root, which all layers decide
together. -/
def ModuleLayer.resolvePaths (directory : Path) (l : ModuleLayer) : ModuleLayer :=
  { l with external := l.external.map (·.resolvePaths directory) }

namespace Layer

def merge (base top : Layer) : Layer :=
  { schema := top.schema.or base.schema
    entry := top.entry.or base.entry
    output := top.output.or base.output
    sourceRoot := top.sourceRoot.or base.sourceRoot
    modules := base.modules.merge ModuleLayer.merge top.modules
    obfuscation := base.obfuscation.merge ObfuscationLayer.merge top.obfuscation }

/-- Take the paths of a layer from the directory it belongs to. -/
def resolvePaths (directory : Path) (l : Layer) : Layer :=
  { l with
    entry := l.entry.map directory.resolve
    output := l.output.map directory.resolve
    sourceRoot := l.sourceRoot.map directory.resolve
    modules := l.modules.map (·.resolvePaths directory) }

end Layer

/-- A length that is too small becomes the smallest allowed one. -/
def clampLength (value : Int) (floor : Nat) : Nat := Nat.max value.toNat floor

/-- Lengths are at least one, and the greatest is no less than the least. -/
def renameSettings : Option RenameChoice → RenameSettings
  | none => defaultRename
  | some (.toggle enabled) => { defaultRename with enabled }
  | some (.detailed enabled min max) =>
    let least := (min.map fun m => clampLength m 1).getD defaultRename.min
    { enabled := enabled.getD defaultRename.enabled
      min := least
      max := (max.map fun m => clampLength m least).getD (Nat.max least defaultRename.max) }

theorem one_le_renameSettings_min (choice : Option RenameChoice) :
    1 ≤ (renameSettings choice).min := by
  unfold renameSettings
  split
  · decide
  · show 1 ≤ defaultRename.min; decide
  · next _ min _ =>
    cases min with
    | none => show 1 ≤ defaultRename.min; decide
    | some m => exact Nat.le_max_right ..

theorem renameSettings_min_le_max (choice : Option RenameChoice) :
    (renameSettings choice).min ≤ (renameSettings choice).max := by
  unfold renameSettings
  split
  · decide
  · exact Nat.le_refl _
  · next _ _ max =>
    cases max with
    | none => exact Nat.le_max_left ..
    | some m => exact Nat.le_max_right ..

namespace Layer

def externalSettings (sourceRoot : Path) (l : ExternalLayer) : ExternalSettings :=
  { enabled := l.enabled.getD false
    recursive := l.recursive.getD true
    paths := (l.paths.getD []).map sourceRoot.resolve
    env := l.env.map normalizeEnvNames }

def moduleSettings (sourceRoot : Path) (l : ModuleLayer) : ModuleSettings :=
  { ignore := l.ignore.getD []
    ignoreMissing := l.ignoreMissing.getD false
    overrides :=
      .ofList ((l.overrides.getD .empty).entries.map fun (id, rule) => (normalizeId id, rule))
    external := externalSettings sourceRoot (l.external.getD .empty) }

def obfuscationSettings (l : ObfuscationLayer) : Obfuscation.Settings :=
  let stages := l.stages.getD .empty
  { tool := l.tool.getD .none
    minify := stages.minify.getD false
    rename := renameSettings stages.rename
    ascii := stages.ascii.getD false }

/-- The configuration that a layer amounts to, if it names an entry. -/
def settle (working : Path) (l : Layer) : Option Config :=
  l.entry.map fun entry =>
    let entry := working.resolve entry
    let sourceRoot := (l.sourceRoot.map working.resolve).getD (entry.parent?.getD ⟨""⟩)
    { entry
      output := (l.output.map working.resolve).getD entry.packed
      sourceRoot
      modules := moduleSettings sourceRoot (l.modules.getD .empty)
      obfuscation := obfuscationSettings (l.obfuscation.getD .empty)
      analyzeOnly := false }

end Layer

def noEntry : Failure := .configuration "configuration must specify an entry file"

end LuaBundle.Config
