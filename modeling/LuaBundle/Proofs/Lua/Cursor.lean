import LuaBundle.Lua.Scope
import Mathlib.Data.List.Basic

/-!
# Reading a chunk piece by piece

A cursor is a place between two tokens, with everything the layout carries over it. The walk over a
piece of the tokens depends on what follows only by looking ahead, so its runs can be put together.
-/
namespace LuaBundle.Lua

structure Cursor where
  nesting : Nesting
  before : Option Token
  index : Nat
  deriving DecidableEq, Repr

namespace Cursor

def start : Cursor := ⟨.outermost, none, 0⟩

def site (c : Cursor) (t : Token) : Site := ⟨c.index, c.before, t, c.nesting.mark c.before t⟩

def next (c : Cursor) (t : Token) : Cursor :=
  ⟨c.nesting.after (c.nesting.starts c.before t) t, some t, c.index + 1⟩

def sites (c : Cursor) : List Token → List Site
  | [] => []
  | t :: ts => c.site t :: (c.next t).sites ts

def after (c : Cursor) (ts : List Token) : Cursor := ts.foldl next c

variable {c : Cursor} {t : Token} {ts us : List Token}

@[simp] theorem site_token : (c.site t).token = t := rfl

@[simp] theorem site_before : (c.site t).before = c.before := rfl

@[simp] theorem site_index : (c.site t).index = c.index := rfl

@[simp] theorem after_nil : c.after [] = c := rfl

@[simp] theorem after_cons : c.after (t :: ts) = (c.next t).after ts := rfl

@[simp] theorem after_append : c.after (ts ++ us) = (c.after ts).after us := List.foldl_append

@[simp] theorem next_index : (c.next t).index = c.index + 1 := rfl

@[simp] theorem next_before : (c.next t).before = some t := rfl

@[simp] theorem index_after : (c.after ts).index = c.index + ts.length := by
  induction ts generalizing c with
  | nil => rfl
  | cons t ts ih =>
    rw [after_cons, ih, next_index, List.length_cons]
    omega

theorem before_after : (c.after ts).before = ts.getLast?.or c.before := by
  induction ts generalizing c with
  | nil => rfl
  | cons t ts ih =>
    rw [after_cons, ih, List.getLast?_cons]
    cases ts.getLast? <;> rfl

@[simp] theorem sites_length : (c.sites ts).length = ts.length := by
  induction ts generalizing c with
  | nil => rfl
  | cons t ts ih => rw [sites, List.length_cons, List.length_cons, ih]

theorem sites_append : c.sites (ts ++ us) = c.sites ts ++ (c.after ts).sites us := by
  induction ts generalizing c with
  | nil => rfl
  | cons t ts ih => rw [List.cons_append, sites, sites, ih, after_cons, List.cons_append]

theorem drop_sites : (c.sites (ts ++ us)).drop ts.length = (c.after ts).sites us := by
  rw [sites_append, List.drop_append_of_le_length (by simp), List.drop_of_length_le (by simp),
    List.nil_append]

theorem sitesFrom_eq (c : Cursor) (ts : List Token) :
    sitesFrom c.index c.before ts (c.nesting.marks c.before ts) = c.sites ts := by
  induction ts generalizing c with
  | nil => rfl
  | cons t ts ih =>
    rw [Nesting.marks, sitesFrom, sites]
    exact congrArg _ (ih (c.next t))

theorem sites_start (ts : List Token) : Lua.sites ts = start.sites ts := sitesFrom_eq start ts

theorem marks_eq (c : Cursor) (ts : List Token) :
    c.nesting.marks c.before ts = (c.sites ts).map (·.mark) := by
  induction ts generalizing c with
  | nil => rfl
  | cons t ts ih =>
    rw [Nesting.marks, sites, List.map_cons]
    exact congrArg _ (ih (c.next t))

theorem layout_eq (ts : List Token) : layout ts = (start.sites ts).map (·.mark) := marks_eq start ts

end Cursor

namespace ScopeState

/-- The state but for what is known about assignments, which decides about globals only. -/
def core (s : ScopeState) : ScopeState := { s with targets := [], assigned := [] }

theorem core_eq_iff {s s' : ScopeState} : s'.core = s.core ↔
    s'.frames = s.frames ∧ s'.declared = s.declared ∧ s'.brackets = s.brackets ∧
      s'.loops = s.loops ∧ s'.waiting = s.waiting := by
  simp [core]

/-- Nothing waits for a token. -/
def Idle (s : ScopeState) (index : Nat) : Prop := ∀ w ∈ s.waiting, w.1 ≠ index

theorem settle_of_idle {s : ScopeState} {index : Nat} (h : s.Idle index) : s.settle index = s := by
  have hdue : s.waiting.filter (·.1 == index) = [] :=
    List.filter_eq_nil_iff.mpr fun w hw => by simpa using h w hw
  have hkept : s.waiting.filter (·.1 != index) = s.waiting :=
    List.filter_eq_self.mpr fun w hw => by simpa using h w hw
  simp only [settle, hdue, hkept, List.map_nil, List.foldl_nil]

theorem waiting_foldl {f : ScopeState → Waiting → ScopeState}
    (hf : ∀ s action, (f s action).waiting = s.waiting) (due : List Waiting) (s : ScopeState) :
    (due.foldl f s).waiting = s.waiting := by
  induction due generalizing s with
  | nil => rfl
  | cons action due ih => rw [List.foldl_cons, ih, hf]

@[simp] theorem waiting_activateAt (s : ScopeState) (level : Nat) (names : Frame) :
    (s.activateAt level names).waiting = s.waiting := by
  unfold activateAt
  split <;> rfl

@[simp] theorem waiting_leave (s : ScopeState) : s.leave.waiting = s.waiting := by
  unfold leave
  split <;> rfl

theorem waiting_settle (s : ScopeState) (index : Nat) :
    (s.settle index).waiting = s.waiting.filter (·.1 != index) := by
  simp only [settle]
  rw [waiting_foldl, waiting_foldl]
  · intro s action
    cases action <;> simp
  · intro s action
    cases action <;> simp

theorem idle_settle (s : ScopeState) (index : Nat) : (s.settle index).Idle index := by
  intro w hw
  rw [waiting_settle, List.mem_filter] at hw
  simpa using hw.2

end ScopeState

/-- The walk from `s` passes `ts` with these bindings and goes on from `s'`; `us` is what follows. -/
structure Runs (us : List Token) (c : Cursor) (s : ScopeState) (ts : List Token)
    (bs : List Binding) (s' : ScopeState) : Prop where
  length : bs.length = ts.length
  walk : walk s (c.sites (ts ++ us)) =
    (Lua.walk s' ((c.after ts).sites us)).map fun passed => (bs ++ passed.1, passed.2)

namespace Runs

variable {us ts ts' : List Token} {c : Cursor} {s s₁ s' : ScopeState} {bs bs' : List Binding}
  {t : Token}

theorem nil : Runs us c s [] [] s where
  length := rfl
  walk := by
    rw [List.nil_append, Cursor.after_nil]
    cases Lua.walk s (c.sites us) <;> rfl

theorem append (h : Runs (ts' ++ us) c s ts bs s₁) (h' : Runs us (c.after ts) s₁ ts' bs' s') :
    Runs us c s (ts ++ ts') (bs ++ bs') s' where
  length := by rw [List.length_append, List.length_append, h.length, h'.length]
  walk := by
    rw [List.append_assoc, h.walk, h'.walk, Cursor.after_append]
    cases Lua.walk s' (((c.after ts).after ts').sites us) with
    | error e => rfl
    | ok passed => simp [Except.map]

/-- One step of the walk, which may pass several tokens. -/
theorem of_step (h : step (s.settle c.index) (c.site t) ((c.next t).sites (ts ++ us)) =
      .ok (bs, s'))
    (hl : bs.length = ts.length + 1) : Runs us c s (t :: ts) bs s' where
  length := hl
  walk := by
    rw [List.cons_append, Cursor.sites, Lua.walk, Cursor.site_index, h]
    simp only [hl, Nat.add_sub_cancel, Cursor.drop_sites, Cursor.after_cons]
    cases Lua.walk s' (((c.next t).after ts).sites us) <;> rfl

theorem of_idle_step (hidle : s.Idle c.index)
    (h : step s (c.site t) ((c.next t).sites (ts ++ us)) = .ok (bs, s'))
    (hl : bs.length = ts.length + 1) : Runs us c s (t :: ts) bs s' :=
  of_step (by rw [ScopeState.settle_of_idle hidle]; exact h) hl

theorem cons {b : Binding} (h : Runs (ts ++ us) c s [t] [b] s₁)
    (h' : Runs us (c.next t) s₁ ts bs s') : Runs us c s (t :: ts) (b :: bs) s' :=
  h.append h'

/-- What is due may take effect at once, as long as a token follows. -/
theorem of_settle (h : Runs us c (s.settle c.index) ts bs s') (hne : ts ++ us ≠ []) :
    Runs us c s ts bs s' where
  length := h.length
  walk := by
    rw [← h.walk]
    obtain ⟨t, rest, he⟩ := List.exists_cons_of_ne_nil hne
    rw [he, Cursor.sites, Lua.walk, Lua.walk, Cursor.site_index,
      ScopeState.settle_of_idle (s.idle_settle c.index)]

end Runs

end LuaBundle.Lua
