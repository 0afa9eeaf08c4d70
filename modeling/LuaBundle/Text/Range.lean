/-!
# Ranges of characters

A property of characters given by a standard is a list of ranges of code points, in order and
without overlap.
-/
namespace LuaBundle.Text

/-- The code points from the first to the second, both included. -/
abbrev Range := Nat × Nat

def Range.holds (r : Range) (c : Char) : Bool := r.1 ≤ c.toNat && c.toNat ≤ r.2

end LuaBundle.Text
