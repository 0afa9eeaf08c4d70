import LuaBundle.Failure
import LuaBundle.Proofs.Lua.Minified
import LuaBundle.Proofs.Obfuscation.Identifier

/-!
# Names stay fresh over whole runs

A generator answers one call after another. Whatever is drawn, and in whatever order names are
reserved and generated, a generated name is none that an earlier call reserved or generated. A call
fails only when every candidate was rejected, and leaves the names in use as they were.
-/
namespace LuaBundle.Obfuscation

open Lua (isNameStart isWordChar)

namespace Generator

inductive Call where
  | reserve (names : List (List Char))
  | generate

/-- What a call comes to. -/
inductive Event where
  | reserved (names : List (List Char))
  | generated (name : List Char)
  | failed (cause : Failure)

/-- The names that an event takes out of use for others. -/
def Event.names : Event → List (List Char)
  | reserved names => names
  | generated name => [name]
  | failed _ => []

/-- An event, with the generator before and after it. -/
structure Step where
  before : Generator
  event : Event
  after : Generator

/-- What a generated name, or none after a number of attempts, is as an event. -/
def Event.ofOutcome (attempts : Nat) : Option (List Char) → Event
  | some name => .generated name
  | none => .failed (.generationExhausted attempts)

def answer (g : Generator) : Call → Event × Generator
  | .reserve names => (.reserved names, g.reserve names)
  | .generate => (.ofOutcome maxAttempts g.generate.1, g.generate.2)

/-- The calls are answered in their order, each by the generator that the one before left behind. -/
def trace (g : Generator) : List Call → List Step
  | [] => []
  | call :: calls => ⟨g, (g.answer call).1, (g.answer call).2⟩ :: (g.answer call).2.trace calls

/-! ### What the earlier steps ask of a step -/

/-- A keyword, a tag, or a name that an earlier step reserved or generated. -/
def Unavailable (earlier : List Step) (name : List Char) : Prop :=
  Lua.isKeyword name = true ∨ hasTags name = true ∨ ∃ s ∈ earlier, name ∈ s.event.names

/-- What is asked of a generated name, for a generator that is made with the bounds `low` and
`high`. -/
structure NewName (low high : Nat) (earlier : List Step) (name : List Char) : Prop where
  spelled : ∃ c r, name = c :: r ∧ isNameStart c = true ∧ ∀ d ∈ r, isWordChar d = true
  min_le : Nat.max 1 low ≤ name.length
  le_max : name.length ≤ Nat.max high (Nat.max 1 low)
  available : ¬ Unavailable earlier name

/-- A step goes on with the earlier ones: a generated name is new, and the first candidate that was
available. Without one among all attempts the call fails, and the names in use stay. -/
inductive Step.Sound (low high attempts : Nat) (earlier : List Step) : Step → Prop
  | reserved {g : Generator} {names : List (List Char)} :
      Sound low high attempts earlier ⟨g, .reserved names, g.reserve names⟩
  | generated {g g' : Generator} {n : Nat} (hn : n < attempts)
      (hrejected : ∀ k < n, Unavailable earlier (g.nth k))
      (hnew : NewName low high earlier (g.nth n)) :
      Sound low high attempts earlier ⟨g, .generated (g.nth n), g'⟩
  | failed {g : Generator} (hrejected : ∀ k < attempts, Unavailable earlier (g.nth k))
      (hused : (g.discard attempts).used = g.used) :
      Sound low high attempts earlier
        ⟨g, .failed (.generationExhausted attempts), g.discard attempts⟩

/-! ### Steps and runs -/

/-- The generator has the bounds it was made with, and the names in use are those of the steps. -/
structure Follows (low high : Nat) (earlier : List Step) (g : Generator) : Prop where
  min_eq : g.min = Nat.max 1 low
  max_eq : g.max = Nat.max high (Nat.max 1 low)
  used_iff : ∀ n, n ∈ g.used ↔ ∃ s ∈ earlier, n ∈ s.event.names

variable {low high : Nat} {earlier : List Step} {g : Generator}

theorem follows_new (draws : Draws) (low high : Nat) : Follows low high [] (new draws low high) where
  min_eq := Nat.max_comm low 1
  max_eq := congrArg (Nat.max high) (Nat.max_comm low 1)
  used_iff n := by simp [new]

namespace Follows

theorem rejects_iff (h : Follows low high earlier g) {name : List Char} :
    g.rejects name = true ↔ Unavailable earlier name := by
  simp only [rejects, Unavailable, Bool.or_eq_true, List.contains_iff_mem, h.used_iff, or_assoc]

theorem newName (h : Follows low high earlier g) {name : List Char} (hfresh : Fresh g name)
    (havailable : g.rejects name = false) : NewName low high earlier name where
  spelled := hfresh.lexed.word
  min_le := h.min_eq ▸ hfresh.min_le
  le_max := h.max_eq ▸ hfresh.le_max
  available hname := by
    rw [h.rejects_iff.mpr hname] at havailable
    cases havailable

theorem snoc (h : Follows low high earlier g) {e : Event} {g' : Generator} (hmin : g'.min = g.min)
    (hmax : g'.max = g.max) (hused : ∀ n, n ∈ g'.used ↔ n ∈ e.names ∨ n ∈ g.used) :
    Follows low high (earlier ++ [⟨g, e, g'⟩]) g' where
  min_eq := hmin.trans h.min_eq
  max_eq := hmax.trans h.max_eq
  used_iff n := by
    simp only [hused, h.used_iff, List.mem_append, List.mem_singleton, or_and_right, exists_or,
      exists_eq_left]
    exact or_comm

/-- A number of attempts: the step is sound, and the generator goes on with it. -/
theorem attempted (h : Follows low high earlier g) {attempts : Nat}
    {outcome : Option (List Char) × Generator} (hattempted : Attempted g attempts outcome) :
    Step.Sound low high attempts earlier ⟨g, .ofOutcome attempts outcome.1, outcome.2⟩ ∧
      Follows low high (earlier ++ [⟨g, .ofOutcome attempts outcome.1, outcome.2⟩]) outcome.2 := by
  cases hattempted with
  | @accepted n hn hrejected haccepted =>
    obtain ⟨hmin, hmax, -⟩ := g.discard_fields (n + 1)
    have hearlier : ∀ k < n, Unavailable earlier (g.nth k) := fun k hk =>
      h.rejects_iff.mp (hrejected k hk)
    have hnew := h.newName (fresh_nth haccepted) haccepted
    refine ⟨.generated hn hearlier hnew, h.snoc hmin hmax fun m => ?_⟩
    simp [Event.ofOutcome, Event.names]
  | exhausted hrejected =>
    obtain ⟨hmin, hmax, hused⟩ := g.discard_fields attempts
    have hearlier : ∀ k < attempts, Unavailable earlier (g.nth k) := fun k hk =>
      h.rejects_iff.mp (hrejected k hk)
    refine ⟨.failed hearlier hused, h.snoc hmin hmax fun m => ?_⟩
    simp [Event.ofOutcome, Event.names, hused]

/-- One call of either kind. -/
theorem answer (h : Follows low high earlier g) (call : Call) :
    Step.Sound low high maxAttempts earlier ⟨g, (g.answer call).1, (g.answer call).2⟩ ∧
      Follows low high (earlier ++ [⟨g, (g.answer call).1, (g.answer call).2⟩])
        (g.answer call).2 := by
  cases call with
  | reserve names =>
    have hused : ∀ n, n ∈ (g.reserve names).used ↔ n ∈ names ∨ n ∈ g.used := fun n =>
      List.mem_append
    exact ⟨.reserved, h.snoc rfl rfl hused⟩
  | generate => exact h.attempted (g.attempted_generateWithin maxAttempts)

end Follows

/-- Every step of a run is sound with regard to the steps before it. -/
theorem sound_of_trace (h : Follows low high earlier g) {calls : List Call} {done later : List Step}
    {s : Step} (htrace : g.trace calls = done ++ s :: later) :
    s.Sound low high maxAttempts (earlier ++ done) := by
  induction calls generalizing g earlier done with
  | nil => cases done <;> cases htrace
  | cons call calls ih =>
    obtain ⟨hsound, hfollows⟩ := h.answer call
    cases done with
    | nil =>
      obtain ⟨rfl, -⟩ := List.cons.inj htrace
      rwa [List.append_nil]
    | cons first done =>
      obtain ⟨rfl, hrest⟩ := List.cons.inj htrace
      rw [List.append_cons]
      exact ih hfollows hrest

/-- The second candidate of one character is the last of all that there are, the others the first. -/
def scarceDraws : Draws := fun n => if n = 3 then 0xFFFF else 0

end Generator

end LuaBundle.Obfuscation
