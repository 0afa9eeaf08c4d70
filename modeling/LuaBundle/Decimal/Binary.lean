import LuaBundle.Decimal.Fixed

/-!
# Binary fractions

The exact value of a finite floating point number, its rounding to fixed decimals, and the shortest
decimal that reads back as it.
-/
namespace LuaBundle.Decimal

structure Fraction where
  negative : Bool
  num : Nat
  den : Nat
  deriving DecidableEq, Repr

/-- Fifty-two bits hold the fraction of a number in the 64-bit binary format, eleven its exponent. -/
def fractionRange : Nat := Nat.pow 2 52

def exponentRange : Nat := Nat.pow 2 11

/-- The value of a finite number in the 64-bit binary format. -/
def Fraction.ofFloat (x : Float) : Fraction :=
  let bits := x.toBits.toNat
  let exponent := bits / fractionRange % exponentRange
  let fraction := bits % fractionRange
  let mantissa := if exponent = 0 then fraction else fraction + fractionRange
  let power : Int := (if exponent = 0 then 1 else exponent : Nat) - 1075
  { negative := bits / (fractionRange * exponentRange) = 1
    num := mantissa * Nat.pow 2 power.toNat
    den := Nat.pow 2 (-power).toNat }

def Fraction.fixed (places : Nat) (f : Fraction) : List Char :=
  (if f.negative then ['-'] else []) ++ Decimal.fixed places f.num f.den

/-- The power of ten of the first digit of a nonzero fraction. -/
def leadingPower (num den : Nat) : Int :=
  let guess : Int := (Nat.toDigits 10 num).length - (Nat.toDigits 10 den).length
  let reaches := if guess < 0 then num * Nat.pow 10 guess.natAbs ≥ den
    else num ≥ den * Nat.pow 10 guess.natAbs
  if reaches then guess else guess - 1

/-- The nearest multiple of `10 ^ power` to a fraction, as that multiple. -/
def nearest (num den : Nat) (power : Int) : Nat :=
  if power < 0 then roundDiv (num * Nat.pow 10 power.natAbs) den
  else roundDiv num (den * Nat.pow 10 power.natAbs)

def readsBack (x : Float) (mantissa : Nat) (power : Int) : Bool :=
  (Float.ofScientific mantissa (power < 0) power.natAbs).toBits == x.abs.toBits

/-- The mantissa and power of ten of the shortest decimal that reads back as `x`. -/
def shortest (x : Float) : Int × Int :=
  let f := Fraction.ofFloat x
  if f.num = 0 then (0, 0)
  else
    let top := leadingPower f.num f.den
    let powers := (List.range 17).map fun (k : Nat) => top - k
    let power := (powers.find? fun p => readsBack x (nearest f.num f.den p) p).getD (top - 16)
    let m : Int := nearest f.num f.den power
    (if f.negative then -m else m, power)

end LuaBundle.Decimal
