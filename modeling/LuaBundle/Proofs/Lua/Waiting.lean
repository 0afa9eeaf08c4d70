import LuaBundle.Proofs.Lua.Scoping

/-!
# What waits for the end of a statement

The walk waits for the index of the first token that seems to end the statement. Which token that is
depends on the layout ahead only, so what waits can be told from the tokens that are left: it changes
where such a token is passed, and there it takes effect.
-/
namespace LuaBundle.Lua

/-- What waits at the depths of statements, under the first token of `sites` that ends each. -/
def due (sites : List Site) (waits : List (Nat × Waiting)) : List (Nat × Waiting) :=
  waits.filterMap fun w => (sites.find? (·.mark.endsAt w.1)).map fun site => (site.index, w.2)

section Due

variable {sites : List Site} {site : Site} {waits waits' : List (Nat × Waiting)}

theorem due_append : due sites (waits ++ waits') = due sites waits ++ due sites waits' :=
  List.filterMap_append

/-- Tokens that end nothing are passed. -/
theorem due_skip (passed : List Site)
    (h : ∀ w ∈ waits, ∀ site ∈ passed, site.mark.endsAt w.1 = false) :
    due (passed ++ sites) waits = due sites waits := by
  refine List.filterMap_congr fun w hw => ?_
  have hnone : passed.find? (·.mark.endsAt w.1) = none := by
    refine List.find?_eq_none.mpr fun site hsite => ?_
    simp [h w hw site hsite]
  rw [List.find?_append, hnone, Option.none_or]

theorem due_here (h : ∀ w ∈ waits, site.mark.endsAt w.1 = true) :
    due (site :: sites) waits = waits.map fun w => (site.index, w.2) := by
  induction waits with
  | nil => rfl
  | cons w waits ih =>
    obtain ⟨hw, hwaits⟩ := List.forall_mem_cons.mp h
    have hfind : (site :: sites).find? (·.mark.endsAt w.1) = some site := List.find?_cons_of_pos hw
    rw [List.map_cons, ← ih hwaits, due, List.filterMap_cons_some (by rw [hfind]; rfl)]
    rfl

theorem Cursor.index_le {c : Cursor} {ts : List Token} (h : site ∈ c.sites ts) :
    c.index ≤ site.index := by
  induction ts generalizing c with
  | nil => cases h
  | cons t ts ih =>
    rcases List.mem_cons.mp h with rfl | h
    · exact Nat.le_refl _
    · have := ih h
      rw [Cursor.next_index] at this
      omega

theorem index_le_of_mem_due {c : Cursor} {ts : List Token} {w : Nat × Waiting}
    (h : w ∈ due (c.sites ts) waits) : c.index ≤ w.1 := by
  obtain ⟨v, -, hv⟩ := List.mem_filterMap.mp h
  obtain ⟨site, hsite, rfl⟩ := Option.map_eq_some_iff.mp hv
  exact Cursor.index_le (List.mem_of_find?_eq_some hsite)

end Due

/-! ### Taking effect -/

namespace ScopeState

variable {s : ScopeState} {c : Cursor} {t : Token} {us : List Token}


/-- Declarations take effect first, then scopes are left. -/
def performAll (s : ScopeState) (actions : List Waiting) : ScopeState :=
  let s := actions.foldl (fun s action =>
    match action with
    | .activate level names => s.activateAt level names
    | .leave => s) s
  actions.foldl (fun s action =>
    match action with
    | .activate .. => s
    | .leave => s.leave) s

/-- At a token, what it ends takes effect, and the rest waits on. -/
theorem settle_due (waits ended : List (Nat × Waiting))
    (hwaiting : s.waiting = due (c.sites (t :: us)) (waits ++ ended))
    (hwaits : ∀ w ∈ waits, (c.site t).mark.endsAt w.1 = false)
    (hended : ∀ w ∈ ended, (c.site t).mark.endsAt w.1 = true) :
    s.settle c.index =
      { s with waiting := due ((c.next t).sites us) waits }.performAll (ended.map Prod.snd) := by
  have hskip : due (c.sites (t :: us)) waits = due ((c.next t).sites us) waits :=
    due_skip [c.site t] fun w hw site hsite => by
      rw [List.mem_singleton.mp hsite]
      exact hwaits w hw
  have hlater : ∀ w ∈ due ((c.next t).sites us) waits, w.1 ≠ c.index := by
    intro w hw
    have := index_le_of_mem_due hw
    rw [Cursor.next_index] at this
    omega
  have hnow : due (c.sites (t :: us)) ended = ended.map fun w => (c.index, w.2) := due_here hended
  rw [due_append, hskip, hnow] at hwaiting
  have hkept : s.waiting.filter (·.1 != c.index) = due ((c.next t).sites us) waits := by
    rw [hwaiting, List.filter_append, List.filter_eq_self.mpr, List.filter_eq_nil_iff.mpr,
      List.append_nil]
    · intro w hw
      obtain ⟨v, -, rfl⟩ := List.mem_map.mp hw
      simp
    · intro w hw
      simpa using hlater w hw
  have hdue : (s.waiting.filter (·.1 == c.index)).map Prod.snd = ended.map Prod.snd := by
    rw [hwaiting, List.filter_append, List.filter_eq_nil_iff.mpr, List.nil_append,
      List.filter_eq_self.mpr, List.map_map]
    · rfl
    · intro w hw
      obtain ⟨v, -, rfl⟩ := List.mem_map.mp hw
      simp
    · intro w hw
      simpa using hlater w hw
  have hsettle : s.settle c.index = performAll { s with waiting := s.waiting.filter (·.1 != c.index) }
      ((s.waiting.filter (·.1 == c.index)).map Prod.snd) := rfl
  rw [hsettle, hdue, hkept]

end ScopeState

/-! ### Frames -/

/-- The frames inside `F`, while a statement is open for which something may wait: the scope that
they hold, and the scope that they will hold. -/
inductive Frames (F : List Frame) : Option Waiting → Env → Env → List Frame → Prop where
  | settled {f : Frame} {Γ : Env} (h : (f :: F).flatten = Γ.entries) : Frames F none Γ Γ (f :: F)
  | declaring {f : Frame} {Γ : Env} (vs : List Variable) (h : (f :: F).flatten = Γ.entries) :
      Frames F (some (.activate F.length (Env.entries vs))) Γ (Γ.declare vs) (f :: F)
  | leaving {f g : Frame} {Γ Δ : Env} (h : (f :: g :: F).flatten = Γ.entries)
      (h' : (g :: F).flatten = Δ.entries) : Frames F (some .leave) Γ Δ (f :: g :: F)

namespace Frames

variable {F G frames : List Frame} {own : Option Waiting} {Γ Δ Γ' Δ' : Env} {s : ScopeState}

theorem flatten_eq (h : Frames F own Γ Δ frames) : frames.flatten = Γ.entries := by
  cases h with
  | settled h | declaring vs h | leaving h h' => exact h

theorem eq_of_none (h : Frames F none Γ Δ frames) : Γ = Δ := by
  cases h
  rfl

theorem exists_of_none (h : Frames F none Γ Δ frames) :
    ∃ f, frames = f :: F ∧ (f :: F).flatten = Γ.entries := by
  cases h with
  | settled h => exact ⟨_, rfl, h⟩

theorem enter (h : Frames F own Γ Δ frames) : Frames frames none Γ Γ ([] :: frames) :=
  .settled (by rw [List.flatten_cons, List.nil_append]; exact h.flatten_eq)

theorem activate (h : Frames F none Γ Δ s.frames) (vs : List Variable) :
    Frames F none (Γ.declare vs) (Γ.declare vs) (s.activate (Env.entries vs)).frames := by
  cases hs : s.frames with
  | nil => rw [hs] at h; cases h
  | cons f frames =>
    rw [hs] at h
    cases h with
    | settled h =>
      rw [ScopeState.activate, hs]
      exact .settled (Env.flatten_declare h vs)

/-- The end of a statement. -/
theorem perform_own (h : Frames F own Γ Δ s.frames) :
    ∃ frames, s.performAll own.toList = { s with frames := frames } ∧ Frames F none Δ Δ frames := by
  generalize hs : s.frames = frames at h
  cases h with
  | settled h => exact ⟨_, by rw [← hs]; rfl, .settled h⟩
  | declaring vs h =>
    refine ⟨_, ?_, .settled (Env.flatten_declare h vs)⟩
    simp [ScopeState.performAll, ScopeState.activateAt, hs]
  | leaving h h' =>
    refine ⟨_, ?_, .settled h'⟩
    simp [ScopeState.performAll, ScopeState.leave, hs]

/-- The end of a block, which ends the statement around it for the walk. -/
theorem perform_leave (h : Frames G own Γ Δ s.frames) {outer : Option Waiting}
    (hG : Frames F outer Γ' Δ' G) :
    ∃ frames, (s.performAll (outer.toList ++ own.toList)).leave = { s with frames := frames } ∧
      Frames F none Δ' Δ' frames := by
  generalize hs : s.frames = frames at h
  cases hG with
  | settled h' =>
    refine ⟨_, ?_, .settled h'⟩
    cases h <;> simp [ScopeState.performAll, ScopeState.leave, ScopeState.activateAt, hs]
  | declaring vs h' =>
    refine ⟨_, ?_, .settled (Env.flatten_declare h' vs)⟩
    have hlevel : F.length < F.length + 1 + 1 := by omega
    have hlevel' : F.length < F.length + 1 + 1 + 1 := by omega
    have hframe : F.length + 1 + 1 - F.length = 2 := by omega
    cases h <;>
      simp [ScopeState.performAll, ScopeState.leave, ScopeState.activateAt, hs, hlevel, hlevel', hframe]
  | leaving h' h'' =>
    refine ⟨_, ?_, .settled h''⟩
    cases h <;> simp [ScopeState.performAll, ScopeState.leave, ScopeState.activateAt, hs]

end Frames

end LuaBundle.Lua
