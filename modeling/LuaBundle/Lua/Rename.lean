import LuaBundle.Lua.Scope

/-!
# Tags for renamed variables

A local declaration is renamed to `L_n_name`, with `n` counting the declarations of the chunk, and a
global that the chunk assigns to `G_n_name`, with `n` counting those globals.
-/
namespace LuaBundle.Lua

structure RenameOptions where
  locals : Bool
  globals : Bool
  deriving DecidableEq, Repr

def standardGlobals : List (List Char) :=
  ["_G", "_ENV", "_VERSION", "arg", "assert", "bit32", "collectgarbage", "coroutine", "debug",
    "dofile", "error", "getfenv", "getmetatable", "io", "ipairs", "jit", "load", "loadfile",
    "loadstring", "math", "module", "next", "os", "package", "pairs", "pcall", "print", "rawequal",
    "rawget", "rawlen", "rawset", "require", "select", "setfenv", "setmetatable", "string", "table",
    "tonumber", "tostring", "type", "unpack", "utf8", "xpcall"].map String.toList

def tag (letter : Char) (number : Nat) (name : List Char) : List Char :=
  letter :: '_' :: Nat.toDigits 10 number ++ '_' :: name

def localTag (d : Decl) (name : List Char) : List Char := tag 'L' (d.id + 1) name

def taggedGlobals (s : ScopeState) : List (List Char) :=
  s.assigned.filter (!standardGlobals.contains ·)

def globalTag? (tagged : List (List Char)) (name : List Char) : Option (List Char) :=
  (tagged.idxOf? name).map fun k => tag 'G' (k + 1) name

def replacement? (options : RenameOptions) (tagged : List (List Char)) (t : Token) :
    Binding → Option (List Char)
  | .declared d => if options.locals ∧ ¬ d.implicit then some (localTag d t.text) else none
  | .global => if options.globals then globalTag? tagged t.text else none
  | .unbound => none

/-- For each token the text that replaces it, if any. -/
def plan (options : RenameOptions) (tokens : List Token) :
    Except ScopeFault (List (Option (List Char))) :=
  if options.locals ∨ options.globals then
    match walk .initial (sites tokens) with
    | .ok (bindings, s) =>
      .ok (List.zipWith (replacement? options (taggedGlobals s)) tokens bindings)
    | .error e => .error e
  else .ok (tokens.map fun _ => none)

end LuaBundle.Lua
