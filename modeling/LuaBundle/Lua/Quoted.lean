/-!
# String literals

A text as a Lua literal in double quotes. Only quotes, backslashes and line breaks are escaped.
-/
namespace LuaBundle.Lua

def escapeChar : Char → List Char
  | '"' => ['\\', '"']
  | '\\' => ['\\', '\\']
  | '\n' => ['\\', 'n']
  | '\r' => ['\\', 'r']
  | c => [c]

def quoted (text : List Char) : List Char := '"' :: text.flatMap escapeChar ++ ['"']

end LuaBundle.Lua
