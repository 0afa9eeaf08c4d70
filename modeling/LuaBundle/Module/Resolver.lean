import LuaBundle.Failure
import LuaBundle.FileTree
import LuaBundle.Module.Record
import LuaBundle.Module.SearchRoots

/-!
# Resolving identifiers

An ignored identifier is resolved no further; an override with a path decides alone; otherwise the
search roots are probed in order. A probe looks for a file with the extension `.lua`, then for the
`init.lua` of a directory.
-/
namespace LuaBundle

structure Resolver where
  sourceRoot : Path
  ignore : List String
  overrides : OrderedMap String OverrideRule
  external : ExternalSettings
  roots : ExternalRoots
  deriving DecidableEq, Repr

namespace Resolver

def ofConfig (config : Config) (lookup : String → Option String) : Resolver :=
  { sourceRoot := config.sourceRoot
    ignore := config.modules.ignore.map normalizeId
    overrides := config.modules.overrides
    external := config.modules.external
    roots := externalRoots config.modules.external.env config.sourceRoot lookup }

def candidates (base : Path) : List Path := [⟨base.text ++ ".lua"⟩, base.join ⟨"init.lua"⟩]

def searchRoots (r : Resolver) (requesting : Path) : List Path :=
  requesting :: r.sourceRoot :: r.external.paths.map r.sourceRoot.resolve ++ r.roots.all

/-- Dots in an identifier separate directories. -/
def relativePath (id : String) : Path := ⟨String.ofList (Text.replace '.' '/' id.toList)⟩

/-- What `root` leaves of a path, if the path lies inside it. -/
def within? (root p : Path) : Option (List Component) :=
  if root.isWithin p then some (p.normalize.components.drop root.normalize.components.length)
  else none

/-- Slashes become dots, and a trailing `init` is left out unless it is all there is. -/
def dotted (name : String) : String :=
  let stem := (Path.stripLua name).toList
  let folded := (Text.dropSuffix? ['/', 'i', 'n', 'i', 't'] stem).getD stem
  String.ofList (Text.replace '/' '.' folded)

/-- The logical name of a file: its place below the source root, or, outside it, the identifier by
which it was required. -/
def deriveName (r : Resolver) (file : Path) (fallback : Option String) : String :=
  match within? r.sourceRoot file with
  | some inside => dotted (Path.toSlash inside)
  | none =>
    match fallback.filter (· ≠ "") with
    | some id => id
    | none =>
      String.ofList (Text.replace '/' '.' (Path.stripLua (Path.toSlash file.components)).toList)

def record (r : Resolver) (id : String) (file : Path) (overrideApplied : Bool)
    (rule : Option OverrideRule) : ModuleRecord :=
  let name := r.deriveName file (some id)
  let isExternal := !r.sourceRoot.isWithin file
  .resolved
    { id := if id = "" then name else id
      moduleName := name
      filePath := file
      isExternal
      overrideApplied
      analyzeDependencies :=
        (rule.bind OverrideRule.recursive).getD (!isExternal || r.external.recursive) }

/-- Where an override leads to; its extension is left out for the probe to put back. -/
def overrideBase (r : Resolver) (p : Path) : Path := r.sourceRoot.resolve ⟨Path.stripLua p.text⟩

/-- The files that an identifier may lead to, in the order in which they are looked for. -/
def probes (r : Resolver) (id : String) (requesting : Path) : List Path :=
  match (r.overrides.get? id).bind OverrideRule.path with
  | some p => candidates (r.overrideBase p)
  | none =>
    (r.searchRoots requesting).flatMap fun root => candidates (root.resolve (relativePath id))

def resolve (r : Resolver) (t : FileTree) (requireId : String) (requesting : Path) :
    Except Failure ModuleRecord :=
  let id := normalizeId requireId
  if id ∈ r.ignore then .ok (.ignored id)
  else
    let rule := r.overrides.get? id
    let target := rule.bind OverrideRule.path
    match (r.probes id requesting).find? t.isFile, target with
    | some file, _ => .ok (r.record id file target.isSome rule)
    | none, some p => .error (.overrideNotFound id p.text)
    | none, none => .error (.moduleNotFound id)

/-- The entry file is named by its place. -/
def entryRecord (r : Resolver) (working entry : Path) : ModuleRecord :=
  let file := working.resolve entry
  r.record (r.deriveName file none) file false none

def missingRecord (requireId : String) (failure : Failure) : ModuleRecord :=
  .missing (normalizeId requireId) failure.message (failure matches .overrideNotFound ..)

end Resolver

end LuaBundle
