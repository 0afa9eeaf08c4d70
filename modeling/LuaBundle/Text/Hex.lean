/-!
# Hexadecimal digits

Characters are named by their code points in hexadecimal digits, of either case.
-/
namespace LuaBundle.Text

def hexDigit? (c : Char) : Option Nat :=
  if c.isDigit then some (c.toNat - '0'.toNat)
  else if 'a' ≤ c ∧ c ≤ 'f' then some (c.toNat - 'a'.toNat + 10)
  else if 'A' ≤ c ∧ c ≤ 'F' then some (c.toNat - 'A'.toNat + 10)
  else none

def ofHex? (digits : List Char) : Option Char := do
  let values ← digits.mapM hexDigit?
  let code := values.foldl (fun n d => 16 * n + d) 0
  if values ≠ [] ∧ code.isValidChar then some (Char.ofNat code) else none

end LuaBundle.Text
