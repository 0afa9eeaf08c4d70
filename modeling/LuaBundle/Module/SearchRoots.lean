import LuaBundle.Config.Settings

/-!
# Search roots from the environment

A variable such as `LUA_PATH` holds templates between semicolons. Each template stands for the
directory before its first question mark.
-/
namespace LuaBundle

structure ExternalRoots where
  /-- The variables were named by the configuration. -/
  explicit : Bool
  names : List String
  byName : OrderedMap String (List Path)
  /-- The roots of all variables, in the order in which they are first met. -/
  all : List Path
  deriving DecidableEq, Repr

def addPath (paths : List Path) (p : Path) : List Path :=
  if paths.any (·.same p) then paths else paths ++ [p]

def isSlash (c : Char) : Bool := c == '/' || c == '\\'

def templateRoot? (sourceRoot : Path) (template : List Char) : Option Path :=
  let directory := (Text.trim template).takeWhile (· != '?')
  let directory := (directory.reverse.dropWhile isSlash).reverse
  if directory = [] then none else some (sourceRoot.resolve ⟨String.ofList directory⟩)

def variableRoots (sourceRoot : Path) (value : Option String) : List Path :=
  ((Text.split ';' (value.getD "").toList).filterMap (templateRoot? sourceRoot)).foldl addPath []

def externalRoots (names : Option (List String)) (sourceRoot : Path)
    (lookup : String → Option String) : ExternalRoots :=
  let found := (names.map normalizeEnvNames).getD [defaultEnvVar]
  let roots := found.map fun n => (n, variableRoots sourceRoot (lookup n))
  { explicit := names.isSome
    names := found
    byName := .ofList roots
    all := (roots.flatMap Prod.snd).foldl addPath [] }

end LuaBundle
