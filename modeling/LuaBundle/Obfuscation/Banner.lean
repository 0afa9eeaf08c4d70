import LuaBundle.Lua.Lexer
import LuaBundle.Text.Blank

/-!
# Leading banners
-/
namespace LuaBundle.Obfuscation

/-- Drop a long comment that begins the text, and the white space after it. -/
def stripBanner (text : List Char) : List Char :=
  match text with
  | '-' :: '-' :: '[' :: '[' :: body =>
    match Lua.throughFirst? [']', ']'] body with
    | some (_, rest) => rest.dropWhile Text.isBlank
    | none => text
  | _ => text

end LuaBundle.Obfuscation
