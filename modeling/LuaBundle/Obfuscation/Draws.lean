/-!
# Streams of random draws

Draws are numbers of 16 bits, addressed by their place in the stream.
-/
namespace LuaBundle.Obfuscation

abbrev Draws := Nat → UInt16

namespace Draws

def repeated (draws : Array UInt16) : Draws := fun n => draws[n % draws.size]?.getD 0

/-- A step of a linear congruential sequence, or several in one. -/
structure Stride where
  factor : UInt32
  offset : UInt32
  deriving DecidableEq, Repr

def Stride.apply (s : Stride) (state : UInt32) : UInt32 := s.factor * state + s.offset

def Stride.follow (s t : Stride) : Stride := ⟨t.factor * s.factor, t.factor * s.offset + t.offset⟩

theorem Stride.apply_follow (s t : Stride) (state : UInt32) :
    (s.follow t).apply state = t.apply (s.apply state) := by
  simp only [follow, apply, UInt32.mul_add, UInt32.mul_assoc, UInt32.add_assoc]

def step : Stride := ⟨1664525, 1013904223⟩

/-- As many steps as given in one, by repeated doubling. -/
def steps (n : Nat) : Stride :=
  if n = 0 then ⟨1, 0⟩
  else
    let half := steps (n / 2)
    let even := half.follow half
    if n % 2 = 0 then even else even.follow step

/-- The upper halves of the states after a seed. -/
def seeded (seed : UInt32) : Draws := fun n => ((steps (n + 1)).apply seed >>> 16).toUInt16

end Draws

end LuaBundle.Obfuscation
