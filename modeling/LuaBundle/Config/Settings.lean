import LuaBundle.Obfuscation.Pipeline
import LuaBundle.OrderedMap
import LuaBundle.Path

/-!
# Configuration

The settings of a run, with every default filled in and every path resolved.
-/
namespace LuaBundle

structure OverrideRule where
  /-- Absolute, or relative to the source root. -/
  path : Option Path
  /-- Goes before every other rule on whether the module's own requires are followed. -/
  recursive : Option Bool
  deriving DecidableEq, Repr

structure ExternalSettings where
  enabled : Bool
  recursive : Bool
  paths : List Path
  /-- The variables that hold search paths; without a list, the default variable. -/
  env : Option (List String)
  deriving DecidableEq, Repr

structure ModuleSettings where
  ignore : List String
  ignoreMissing : Bool
  overrides : OrderedMap String OverrideRule
  external : ExternalSettings
  deriving DecidableEq, Repr

structure Config where
  entry : Path
  output : Path
  sourceRoot : Path
  modules : ModuleSettings
  obfuscation : Obfuscation.Settings
  analyzeOnly : Bool
  deriving DecidableEq, Repr

def defaultEnvVar : String := "LUA_PATH"

def defaultRenameLength : Nat := 5

def defaultRename : Obfuscation.RenameSettings :=
  ⟨false, defaultRenameLength, defaultRenameLength⟩

def ExternalSettings.standard : ExternalSettings := ⟨false, true, [], none⟩

/-- Everything at its default for an entry file. -/
def Config.forEntry (working entry : Path) : Config :=
  let entry := working.resolve entry
  { entry
    output := entry.packed
    sourceRoot := entry.parent?.getD ⟨""⟩
    modules := ⟨[], false, .empty, .standard⟩
    obfuscation := ⟨.none, false, defaultRename, false⟩
    analyzeOnly := false }

/-- Variable names are trimmed, and empty ones dropped. -/
def normalizeEnvNames (names : List String) : List String :=
  (names.map fun n => String.ofList (Text.trim n.toList)).filter (· ≠ "")

end LuaBundle
