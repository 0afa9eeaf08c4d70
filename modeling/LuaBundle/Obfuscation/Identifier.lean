import LuaBundle.Lua.Token
import LuaBundle.Obfuscation.Draws
import LuaBundle.Obfuscation.Tag

/-!
# Fresh identifiers

Candidates are drawn from a stream of 16-bit numbers: their length, their first character, and each
further one take one draw apiece. A candidate is rejected if it is a keyword, has the shape of a tag
or is already in use.
-/
namespace LuaBundle.Obfuscation

def maxAttempts : Nat := 10000

def firstChars : List Char := "abcdefghijklmnopqrstuvwxyzABCDEFGHIJKLMNOPQRSTUVWXYZ_".toList

def restChars : List Char :=
  "abcdefghijklmnopqrstuvwxyzABCDEFGHIJKLMNOPQRSTUVWXYZ0123456789_".toList

/-- A draw scaled to `count` values from `low` on. -/
def scale (h : UInt16) (low count : Nat) : Nat := low + h.toNat * count / UInt16.size

theorem scale_lt (h : UInt16) {low count : Nat} (hc : 0 < count) :
    scale h low count < low + count := by
  have hlt : h.toNat < UInt16.size := h.toNat_lt
  have : h.toNat * count / UInt16.size < count :=
    Nat.div_lt_of_lt_mul (Nat.mul_lt_mul_of_pos_right hlt hc)
  unfold scale
  omega

structure Generator where
  draws : Draws
  drawn : Nat
  min : Nat
  max : Nat
  used : List (List Char)
  /-- A name has a first character. -/
  min_pos : 0 < min
  min_le_max : min ≤ max

namespace Generator

def new (draws : Draws) (min max : Nat) : Generator where
  draws := draws
  drawn := 0
  min := Nat.max min 1
  max := Nat.max max (Nat.max min 1)
  used := []
  min_pos := Nat.le_max_right min 1
  min_le_max := Nat.le_max_right max (Nat.max min 1)

def reserve (g : Generator) (names : List (List Char)) : Generator :=
  { g with used := names ++ g.used }

def candidate (g : Generator) : List Char × Generator :=
  let length := scale (g.draws g.drawn) g.min (g.max - g.min + 1)
  let first := firstChars.getD (scale (g.draws (g.drawn + 1)) 0 firstChars.length) '_'
  let rest := (List.range (length - 1)).map fun i =>
    restChars.getD (scale (g.draws (g.drawn + 2 + i)) 0 restChars.length) '_'
  (first :: rest, { g with drawn := g.drawn + 1 + length })

def rejects (g : Generator) (name : List Char) : Bool :=
  Lua.isKeyword name || hasTags name || g.used.contains name

def generateWithin (g : Generator) : Nat → Option (List Char) × Generator
  | 0 => (none, g)
  | attempts + 1 =>
    let (name, g) := g.candidate
    if g.rejects name then g.generateWithin attempts
    else (some name, { g with used := name :: g.used })

/-- A name in use from now on, or none if every attempt is rejected. -/
def generate (g : Generator) : Option (List Char) × Generator := g.generateWithin maxAttempts

end Generator

end LuaBundle.Obfuscation
