import LuaBundle.Analysis
import LuaBundle.Lua.Quoted

/-!
# Assembling a bundle

A bundle is a table of loader functions under logical names, a table of aliases for identifiers that
mean a module of another name to the module that requires them, a fixed runtime on top of the two,
and the call of the entry.
-/
namespace LuaBundle.Bundle

/-- For each requiring module, the modules that its identifiers stand for. -/
abbrev Aliases := OrderedMap String (OrderedMap String String)

def quotedName (name : String) : List Char := Lua.quoted name.toList

/-- A first line that begins with `#` is no code inside a function; its line break is kept. -/
def dropHashLine (source : List Char) : List Char :=
  if source.head? = some '#' then source.dropWhile (· != '\n') else source

/-- What the runtime of a bundle looks names up in. -/
structure Tables where
  /-- The bodies of the loaders under their logical names. -/
  modules : List (String × List Char)
  /-- For each requiring module, the logical names that its identifiers stand for. -/
  aliases : List (String × List (String × String))
  deriving DecidableEq, Repr

/-- A row keeps only identifiers that lead from one name to another of the bundle. -/
def keptAliases (sources : OrderedMap String (List Char)) (targets : OrderedMap String String) :
    List (String × String) :=
  targets.entries.filter fun (id, name) => id ≠ name ∧ sources.contains name

def tables (aliases : Aliases) (sources : OrderedMap String (List Char)) : Tables :=
  { modules := sources.entries.map fun (name, source) => (name, dropHashLine source)
    aliases := (aliases.entries.map fun (requester, targets) =>
      (requester, keptAliases sources targets)).filter fun (_, row) => !row.isEmpty }

/-- A loader's body is closed by a line break unless it is empty. -/
def closeBody (body : List Char) : List Char :=
  if body = [] ∨ body.getLast? = some '\n' then body else body ++ ['\n']

def loader (name : String) (body : List Char) : List Char :=
  '[' :: quotedName name ++ "] = function(...)\n".toList ++ closeBody body ++ "end,\n".toList

def aliasLine (id name : String) : List Char :=
  '[' :: quotedName id ++ "] = ".toList ++ quotedName name ++ [',', '\n']

def aliasRow (requester : String) (row : List (String × String)) : List Char :=
  '[' :: quotedName requester ++ "] = \x7b\n".toList ++
    row.flatMap (fun (id, name) => aliasLine id name) ++ "\x7d,\n".toList

def runtime : List Char :=
  (String.intercalate "\n" [
    "local __lp_cache = \x7b\x7d",
    "local __lp_native_require = require",
    "",
    "local function __lp_resolve(name, requester)",
    "    local scoped = __lp_aliases[requester]",
    "    if scoped ~= nil and scoped[name] ~= nil then",
    "        return scoped[name]",
    "    end",
    "    if __lp_modules[name] ~= nil then",
    "        return name",
    "    end",
    "    local alias",
    "    if name:sub(-5) == \".init\" then",
    "        alias = name:sub(1, -6)",
    "    else",
    "        alias = name .. \".init\"",
    "    end",
    "    if __lp_modules[alias] ~= nil then",
    "        return alias",
    "    end",
    "    return nil",
    "end",
    "",
    "local __lp_require",
    "",
    "local function __lp_call(name, ...)",
    "    local previous = require",
    "    require = function(id)",
    "        return __lp_require(id, name)",
    "    end",
    "    local results = table.pack(pcall(__lp_modules[name], ...))",
    "    require = previous",
    "    if not results[1] then",
    "        error(results[2], 0)",
    "    end",
    "    return table.unpack(results, 2, results.n)",
    "end",
    "",
    "__lp_require = function(name, requester)",
    "    local key = __lp_resolve(name, requester)",
    "    if key == nil then",
    "        return __lp_native_require(name)",
    "    end",
    "    local cached = __lp_cache[key]",
    "    if cached ~= nil then",
    "        return cached",
    "    end",
    "    local result = __lp_call(key, key)",
    "    if result == nil then",
    "        result = true",
    "    end",
    "    __lp_cache[key] = result",
    "    return result",
    "end",
    ""]).toList

def entryCall (entryName : String) : List Char :=
  let entry := quotedName entryName
  "\nlocal function run_entry(...)\n    local results = table.pack(__lp_call(".toList ++ entry ++
    ", ...))\n    local first = results[1]\n    if first == nil then\n        first = true\n".toList ++
    "    end\n    if __lp_cache[".toList ++ entry ++
    "] == nil then\n        __lp_cache[".toList ++ entry ++
    "] = first\n    end\n    return table.unpack(results, 1, results.n)\nend\n\n".toList ++
    "return run_entry(...)\n".toList

def Tables.render (b : Tables) (entryName : String) : List Char :=
  "local __lp_modules = \x7b\n".toList ++
    b.modules.flatMap (fun (name, body) => loader name body) ++
    "\x7d\n\nlocal __lp_aliases = \x7b\n".toList ++
    b.aliases.flatMap (fun (requester, row) => aliasRow requester row) ++
    "\x7d\n\n".toList ++ runtime ++ entryCall entryName

/-- The bundle of sources under their names, in the order given. -/
def assembleSources (aliases : Aliases) (entryName : String)
    (sources : OrderedMap String (List Char)) : List Char :=
  (tables aliases sources).render entryName

/-- Read the sources of modules. A record without a file is left out, and so is a second file of a
name that has been read already. -/
def readSources (t : FileTree) (sources : OrderedMap String (List Char)) :
    List ModuleRecord → Except Failure (OrderedMap String (List Char))
  | [] => .ok sources
  | m :: ms =>
    match m.filePath? with
    | none => readSources t sources ms
    | some p =>
      if sources.contains m.moduleName then readSources t sources ms
      else
        match t.readText p with
        | .ok source => readSources t (sources.insert m.moduleName source.toList) ms
        | .error fault => .error (.access p.text fault.message)

def assemble (t : FileTree) (aliases : Aliases) (entry : ModuleRecord)
    (ordered : List ModuleRecord) : Except Failure (List Char) :=
  (readSources t .empty ordered).map (assembleSources aliases entry.moduleName)

/-- The aliases of a row of edges: identifiers of files that are registered under another name. -/
def edgeAliases (edges : List Edge) : OrderedMap String String :=
  .ofList ((edges.filter fun e => !e.isMissing && e.id != e.moduleName).map fun e =>
    (e.id, e.moduleName))

def requireAliases (rows : OrderedMap String (List Edge)) : Aliases :=
  .ofList ((rows.entries.map fun (requester, edges) => (requester, edgeAliases edges)).filter
    fun (_, row) => !row.entries.isEmpty)

def tablesOf (t : FileTree) (a : Analysis) : Except Failure Tables :=
  (readSources t .empty a.sortedModules).map (tables (requireAliases a.dependencyGraph))

/-- The bundle of an analysis before obfuscation. -/
def ofAnalysis (t : FileTree) (a : Analysis) : Except Failure (List Char) :=
  match a.entryModule with
  | some entry => assemble t (requireAliases a.dependencyGraph) entry a.sortedModules
  | none => .error (.configuration "analysis produced no entry module")

end LuaBundle.Bundle
