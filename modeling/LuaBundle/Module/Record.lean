import LuaBundle.Path

/-!
# Module records

What became of one required identifier. A resolved module has a file; an ignored one is left to the
native `require`; a missing one carries the reason.
-/
namespace LuaBundle

structure ResolvedModule where
  id : String
  moduleName : String
  filePath : Path
  isExternal : Bool
  overrideApplied : Bool
  analyzeDependencies : Bool
  deriving DecidableEq, Repr

inductive ModuleRecord where
  | resolved (m : ResolvedModule)
  | ignored (id : String)
  | missing (id message : String) (overrideApplied : Bool)
  deriving DecidableEq, Repr

/-- An edge of the dependency graph, with the target as the requiring module saw it. -/
structure Edge where
  id : String
  moduleName : String
  filePath : Option Path
  isExternal : Bool
  isMissing : Bool
  overrideApplied : Bool
  deriving DecidableEq, Repr

structure MissingRecord where
  requiredBy : String
  requireId : String
  moduleName : String
  overrideApplied : Bool
  fatal : Bool
  message : String
  code : String
  deriving DecidableEq, Repr

namespace ModuleRecord

def id : ModuleRecord → String
  | resolved m => m.id
  | ignored id | missing id .. => id

/-- The logical name; without a file, a module is addressed by its identifier. -/
def moduleName : ModuleRecord → String
  | resolved m => m.moduleName
  | ignored id | missing id .. => id

def asResolved? : ModuleRecord → Option ResolvedModule
  | resolved m => some m
  | _ => none

def filePath? (r : ModuleRecord) : Option Path := r.asResolved?.map ResolvedModule.filePath

def isExternal (r : ModuleRecord) : Bool := r.asResolved?.any ResolvedModule.isExternal

def isIgnored : ModuleRecord → Bool
  | ignored _ => true
  | _ => false

def isMissing : ModuleRecord → Bool
  | missing .. => true
  | _ => false

def overrideApplied : ModuleRecord → Bool
  | resolved m => m.overrideApplied
  | missing _ _ o => o
  | ignored _ => false

def analyzeDependencies (r : ModuleRecord) : Bool :=
  r.asResolved?.any ResolvedModule.analyzeDependencies

def edge (r : ModuleRecord) : Edge :=
  ⟨r.id, r.moduleName, r.filePath?, r.isExternal, r.isMissing, r.overrideApplied⟩

end ModuleRecord

end LuaBundle
