import LuaBundle.Lua.Quoted
import LuaBundle.Proofs.Lua.Breaks

/-!
# Quoted texts are single strings

Whatever a text holds, its literal is one string for the lexer, and it goes on with nothing that is
written behind it.
-/
namespace LuaBundle.Lua

theorem shortRest?_escapeChar (c : Char) (rest : List Char) :
    shortRest? '"' (escapeChar c ++ rest) =
      (shortRest? '"' rest).map fun split => (escapeChar c ++ split.1, split.2) := by
  unfold escapeChar
  split
  · rfl
  · rfl
  · rfl
  · rfl
  · rename_i hquote hslash hline _
    rw [List.singleton_append, shortRest?, if_neg hline, if_neg hquote]
    · rfl
    · intro d r hcontra
      exact absurd hcontra hslash

theorem shortRest?_quoted (text rest : List Char) :
    shortRest? '"' (text.flatMap escapeChar ++ ['"'] ++ rest) =
      some (text.flatMap escapeChar ++ ['"'], rest) := by
  induction text with
  | nil => rfl
  | cons c text ih =>
    rw [List.flatMap_cons, List.append_assoc, List.append_assoc, shortRest?_escapeChar,
      ← List.append_assoc, ih]
    simp

theorem nextToken_quoted (text rest : List Char) :
    nextToken '"' (text.flatMap escapeChar ++ ['"'] ++ rest) = .ok (.string (quoted text), rest) :=
  nextToken_quote (.inl rfl) (shortRest?_quoted text rest)

namespace Scans

variable {a rest : List Char} {tokens more : List Token}

theorem quoted (text : List Char) (h : Scans rest more) :
    Scans (quoted text ++ rest) (.string (Lua.quoted text) :: more) :=
  token rfl (nextToken_quoted text rest) h

/-- A literal between two texts that are read on their own. -/
theorem append_quoted (ha : Scans a tokens) (hcomment : ∀ t ∈ tokens, t.isComment = false)
    (text : List Char) (h : Scans rest more) :
    Scans (a ++ (Lua.quoted text ++ rest)) (tokens ++ .string (Lua.quoted text) :: more) := by
  apply ha.append (h.quoted text)
  intro t ht
  apply Token.apart_of_breaks (hcomment t ht)
  intro d hd
  obtain rfl := Option.mem_some.mp hd
  rfl

end Scans

end LuaBundle.Lua
