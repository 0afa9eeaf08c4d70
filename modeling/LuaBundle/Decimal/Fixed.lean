/-!
# Fixed decimals

A nonnegative fraction of natural numbers, rounded to a number of decimal places from its exact
value; a tie goes to the even neighbour.
-/
namespace LuaBundle.Decimal

/-- The nearest natural number to `num / den`. -/
def roundDiv (num den : Nat) : Nat :=
  let q := num / den
  let twice := 2 * (num % den)
  if twice < den ∨ twice = den ∧ q % 2 = 0 then q else q + 1

def fixed (places num den : Nat) : List Char :=
  let digits := Nat.toDigits 10 (roundDiv (num * Nat.pow 10 places) den)
  let padded := List.replicate (places + 1 - digits.length) '0' ++ digits
  let whole := padded.length - places
  if places = 0 then digits else padded.take whole ++ '.' :: padded.drop whole

end LuaBundle.Decimal
