import LuaBundle.Environment
import Mathlib.Data.List.Basic
import Mathlib.Data.List.Induction

/-!
# Guards held one inside the other

Any number of guards may be held, on any variables, and the newest is dropped first. Each guard only
knows what its own variable was, but the environment as a whole always is what it was just after the
newest of the guards was pushed, and once all of them are dropped it is the first environment again.
-/
namespace LuaBundle

namespace Environment

variable {e f g : Environment}

/-- Each variable has the same value in both environments, or is unset in both. -/
def Same (e f : Environment) : Prop := ∀ name, e.get? name = f.get? name

theorem Same.refl (e : Environment) : e.Same e := fun _ => rfl

theorem Same.trans (h : e.Same f) (k : f.Same g) : e.Same g := fun name => (h name).trans (k name)

/-- A variable is put to a value whatever it was before. -/
theorem Same.put (h : e.Same f) (name : String) (value : Option String) :
    (e.put name value).Same (f.put name value) := by
  intro other
  rw [get?_put, get?_put, h other]

end Environment

/-- A guard with the environment just after it was pushed. -/
structure Held where
  guard : Guard
  pushed : Environment
  deriving DecidableEq, Repr

/-- An environment, and the guards held on it, newest first. -/
structure Holding where
  environment : Environment
  held : List Held
  deriving DecidableEq, Repr

inductive Move where
  | new (name value : String)
  | unset (name : String)
  | drop
  deriving DecidableEq, Repr

namespace Holding

variable {start : Environment} {s : Holding}

def push (s : Holding) (name : String) (value : Option String) : Holding :=
  let (guard, environment) := Guard.hold s.environment name value
  ⟨environment, ⟨guard, environment⟩ :: s.held⟩

/-- Nothing can be dropped where no guard is held. -/
def next : Holding → Move → Holding
  | s, .new name value => s.push name (some value)
  | s, .unset name => s.push name none
  | ⟨e, []⟩, .drop => ⟨e, []⟩
  | ⟨e, h :: older⟩, .drop => ⟨h.guard.drop e, older⟩

def run (s : Holding) (moves : List Move) : Holding := moves.foldl next s

theorem run_concat (s : Holding) (moves : List Move) (m : Move) :
    s.run (moves ++ [m]) = (s.run moves).next m := by
  rw [run, List.foldl_concat]
  rfl

/-- The environment just after the push of the newest guard; the first one if no guard is held. -/
def baseline (start : Environment) : List Held → Environment
  | [] => start
  | h :: _ => h.pushed

/-! ### What each guard leads back to -/

/-- Dropped right after its push, each guard leads back to the environment below it. -/
def Nested (start : Environment) : List Held → Prop
  | [] => True
  | h :: older => (h.guard.drop h.pushed).Same (baseline start older) ∧ Nested start older

structure Restoring (start : Environment) (s : Holding) : Prop where
  settled : s.environment.Same (baseline start s.held)
  nested : Nested start s.held

theorem Restoring.push (h : Restoring start s) (name : String) (value : Option String) :
    Restoring start (s.push name value) where
  settled := .refl _
  nested := ⟨.trans (Guard.get?_drop_hold s.environment name · value) h.settled, h.nested⟩

theorem Restoring.next (h : Restoring start s) (m : Move) : Restoring start (s.next m) := by
  cases m with
  | new name value => exact h.push name (some value)
  | unset name => exact h.push name none
  | drop =>
    obtain ⟨e, held⟩ := s
    cases held with
    | nil => exact h
    | cons g older =>
      obtain ⟨hback, hnested⟩ := h.nested
      -- Only the variable of the guard is put back; of the others, `settled` says what they are.
      have hdrop : (g.guard.drop e).Same (g.guard.drop g.pushed) := h.settled.put _ _
      exact ⟨hdrop.trans hback, hnested⟩

theorem Restoring.run (h : Restoring start s) (moves : List Move) :
    Restoring start (s.run moves) := by
  induction moves generalizing s with
  | nil => exact h
  | cons m moves ih => exact ih (h.next m)

/-! ### Pushes and drops -/

theorem run_drop (s : Holding) : (s.run (.replicate s.held.length .drop)).held = [] := by
  obtain ⟨e, held⟩ := s
  induction held generalizing e with
  | nil => rfl
  | cons h older ih => exact ih (h.guard.drop e)

/-- Each guard comes from a move of the run, and those below it were there before. -/
theorem exists_push {moves : List Move} {h : Held} {older : List Held}
    (hsuffix : h :: older <:+ (run ⟨start, []⟩ moves).held) :
    ∃ earlier m, earlier ++ [m] <+: moves ∧ (run ⟨start, []⟩ earlier).held = older ∧
      run ⟨start, []⟩ (earlier ++ [m]) = ⟨h.pushed, h :: older⟩ := by
  induction moves using List.reverseRecOn with
  | nil => cases List.eq_nil_of_suffix_nil hsuffix
  | append_singleton moves m ih =>
    have hpush : ∀ name value, run ⟨start, []⟩ (moves ++ [m]) =
        (run ⟨start, []⟩ moves).push name value → ∃ earlier m',
          earlier ++ [m'] <+: moves ++ [m] ∧ (run ⟨start, []⟩ earlier).held = older ∧
            run ⟨start, []⟩ (earlier ++ [m']) = ⟨h.pushed, h :: older⟩ := by
      intro name value hrun
      rw [hrun] at hsuffix
      rcases List.suffix_cons_iff.mp hsuffix with hnew | hold
      · obtain ⟨rfl, rfl⟩ := List.cons.inj hnew
        exact ⟨moves, m, List.prefix_refl _, rfl, hrun⟩
      · obtain ⟨earlier, m', hfront, hrest⟩ := ih hold
        exact ⟨earlier, m', hfront.trans (List.prefix_append ..), hrest⟩
    cases m with
    | new name value => exact hpush name (some value) (run_concat ..)
    | unset name => exact hpush name none (run_concat ..)
    | drop =>
      have hbefore : h :: older <:+ (run ⟨start, []⟩ moves).held := by
        rw [run_concat] at hsuffix
        generalize run ⟨start, []⟩ moves = s at hsuffix
        obtain ⟨e, _ | ⟨g, held⟩⟩ := s
        · exact hsuffix
        · exact hsuffix.trans (List.suffix_cons ..)
      obtain ⟨earlier, m', hfront, hrest⟩ := ih hbefore
      exact ⟨earlier, m', hfront.trans (List.prefix_append ..), hrest⟩

/-- After any moves the environment is as it was just after the push of the newest guard, and as it
was at first if no guard is held. So dropping what is held, newest first, restores everything. -/
theorem run_restores (start : Environment) (moves : List Move) :
    let s := run ⟨start, []⟩ moves
    s.environment.Same (baseline start s.held) ∧
      (∀ h older, s.held = h :: older → ∃ earlier m, earlier ++ [m] <+: moves ∧
        (run ⟨start, []⟩ earlier).held = older ∧
        run ⟨start, []⟩ (earlier ++ [m]) = ⟨h.pushed, h :: older⟩) ∧
      ∃ restored, s.run (.replicate s.held.length .drop) = ⟨restored, []⟩ ∧
        restored.Same start := by
  intro s
  have hfirst : Restoring start ⟨start, []⟩ := ⟨.refl start, trivial⟩
  have hs : Restoring start s := hfirst.run moves
  refine ⟨hs.settled, fun h older hheld => exists_push (hheld ▸ List.suffix_refl _), ?_⟩
  have hall := hs.run (.replicate s.held.length .drop)
  have hnone := run_drop s
  generalize s.run (.replicate s.held.length .drop) = last at hall hnone
  obtain ⟨restored, held⟩ := last
  obtain rfl : held = [] := hnone
  exact ⟨restored, rfl, hall.settled⟩

/-- Two guards on one variable, the newer of which unsets it: the value comes back after both. -/
example : let e : Environment := ⟨[("A", "1")]⟩
    ((run ⟨e, []⟩ [.new "A" "", .unset "A"]).environment.get? "A",
      (run ⟨e, []⟩ [.new "A" "", .unset "A", .drop]).environment.get? "A",
      (run ⟨e, []⟩ [.new "A" "", .unset "A", .drop, .drop]).environment.get? "A") =
    (none, some "", some "1") := by
  decide +kernel

end Holding

end LuaBundle
