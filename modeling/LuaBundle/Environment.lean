/-!
# Environment variables

A guard sets or unsets one variable and remembers what it was; dropping the guard restores it.
-/
namespace LuaBundle

structure Environment where
  vars : List (String × String)
  deriving DecidableEq, Repr

namespace Environment

def get? (e : Environment) (name : String) : Option String := e.vars.lookup name

def unset (e : Environment) (name : String) : Environment :=
  ⟨e.vars.filter (·.1 ≠ name)⟩

def set (e : Environment) (name value : String) : Environment :=
  ⟨(name, value) :: (e.unset name).vars⟩

def put (e : Environment) (name : String) : Option String → Environment
  | some value => e.set name value
  | none => e.unset name

theorem get?_unset (e : Environment) (name other : String) :
    (e.unset name).get? other = if other = name then none else e.get? other := by
  obtain ⟨vars⟩ := e
  simp only [unset, get?]
  induction vars with
  | nil => simp
  | cons v vs ih =>
    obtain ⟨n, x⟩ := v
    by_cases hn : n = name <;> grind

@[simp] theorem get?_put (e : Environment) (name other : String) (value : Option String) :
    (e.put name value).get? other = if other = name then value else e.get? other := by
  cases value with
  | none => simpa [put] using get?_unset e name other
  | some v =>
    have h := get?_unset e name other
    simp only [get?] at h
    simp only [put, set, get?]
    grind

end Environment

structure Guard where
  name : String
  saved : Option String
  deriving DecidableEq, Repr

namespace Guard

/-- Give a variable a value, or none, for as long as the guard is held. -/
def hold (e : Environment) (name : String) (value : Option String) : Guard × Environment :=
  (⟨name, e.get? name⟩, e.put name value)

def drop (g : Guard) (e : Environment) : Environment := e.put g.name g.saved

/-- Dropping a guard undoes what holding it did. -/
theorem get?_drop_hold (e : Environment) (name other : String) (value : Option String) :
    ((hold e name value).1.drop (hold e name value).2).get? other = e.get? other := by
  by_cases h : other = name <;> simp [hold, drop, h]

end Guard

end LuaBundle
