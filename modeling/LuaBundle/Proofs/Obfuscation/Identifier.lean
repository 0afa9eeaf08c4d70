import LuaBundle.Obfuscation.Identifier
import LuaBundle.Proofs.Lua.Spelling
import Mathlib.Data.List.GetD

/-!
# Fresh identifiers are names

Whatever is drawn, a generated identifier is read as a name, it keeps to the bounds on its length,
and it was not in use before.
-/
namespace LuaBundle.Obfuscation

open Lua (Token isNameStart isWordChar)

theorem isNameStart_of_mem_firstChars {c : Char} (h : c ∈ firstChars) : isNameStart c = true := by
  have hall : firstChars.all isNameStart = true := by decide
  exact List.all_eq_true.mp hall c h

theorem isWordChar_of_mem_restChars {c : Char} (h : c ∈ restChars) : isWordChar c = true := by
  have hall : restChars.all isWordChar = true := by decide
  exact List.all_eq_true.mp hall c h

/-- A draw picks one of the characters. -/
theorem getD_scale_mem (h : UInt16) {chars : List Char} (hne : chars ≠ []) (c : Char) :
    chars.getD (scale h 0 chars.length) c ∈ chars := by
  have hlt := @scale_lt h 0 _ (List.length_pos_iff.mpr hne)
  rw [Nat.zero_add] at hlt
  rw [List.getD_eq_getElem _ _ hlt]
  exact List.getElem_mem hlt

theorem le_scale (h : UInt16) (low count : Nat) : low ≤ scale h low count :=
  Nat.le_add_right _ _

/-- What a name is that the generator may give out. -/
structure Fresh (g : Generator) (name : List Char) : Prop where
  lexed : (Token.name name).Lexed
  not_keyword : Lua.isKeyword name = false
  no_tags : hasTags name = false
  unused : name ∉ g.used
  min_le : g.min ≤ name.length
  le_max : name.length ≤ g.max

variable {g g' : Generator} {name : List Char}

/-- What is fresh stays so with the same bounds and as long as it is not in use. -/
theorem Fresh.congr (h : Fresh g name) (hmin : g'.min = g.min) (hmax : g'.max = g.max)
    (hused : name ∉ g'.used) : Fresh g' name where
  lexed := h.lexed
  not_keyword := h.not_keyword
  no_tags := h.no_tags
  unused := hused
  min_le := hmin ▸ h.min_le
  le_max := hmax ▸ h.le_max

theorem Fresh.isTag_eq_false (h : Fresh g name) : isTag name = false := by
  by_contra htag
  rw [Bool.not_eq_false] at htag
  have hhas : hasTags name = true := hasTags_of_isTag htag
  rw [h.no_tags] at hhas
  cases hhas

namespace Generator

theorem candidate_word (g : Generator) :
    ∃ c r, g.candidate.1 = c :: r ∧ isNameStart c = true ∧ ∀ d ∈ r, isWordChar d = true := by
  refine ⟨_, _, rfl, isNameStart_of_mem_firstChars (getD_scale_mem _ (by decide) _), ?_⟩
  intro d hd
  obtain ⟨i, -, rfl⟩ := List.mem_map.mp hd
  exact isWordChar_of_mem_restChars (getD_scale_mem _ (by decide) _)

theorem length_candidate (g : Generator) :
    g.min ≤ g.candidate.1.length ∧ g.candidate.1.length ≤ g.max := by
  have hpos := g.min_pos
  have hle := g.min_le_max
  have hlow := le_scale (g.draws g.drawn) g.min (g.max - g.min + 1)
  have hhigh := @scale_lt (g.draws g.drawn) g.min (g.max - g.min + 1) (by omega)
  simp only [candidate, List.length_cons, List.length_map, List.length_range]
  omega

/-- A candidate that is not rejected is fresh. -/
theorem fresh_candidate (h : g.rejects g.candidate.1 = false) : Fresh g g.candidate.1 := by
  obtain ⟨⟨hkeyword, htags⟩, hused⟩ : (Lua.isKeyword g.candidate.1 = false ∧
      hasTags g.candidate.1 = false) ∧ g.candidate.1 ∉ g.used := by
    simpa [rejects] using h
  obtain ⟨hmin, hmax⟩ := g.length_candidate
  refine ⟨?_, hkeyword, htags, hused, hmin, hmax⟩
  obtain ⟨c, r, hword, hc, hr⟩ := g.candidate_word
  have hname : Lua.ofWord g.candidate.1 = .name g.candidate.1 := by
    have hnone : Lua.Keyword.ofText? g.candidate.1 = none := by simpa [Lua.isKeyword] using hkeyword
    rw [Lua.ofWord, hnone]
  rw [hword] at hname ⊢
  have hread := @Lua.nextToken_word _ _ [] hc hr nofun
  exact ⟨_, _, _, hread.trans (congrArg (fun t => Except.ok (t, _)) hname)⟩

/-- The generator after a number of candidates that it does not give out. -/
def discard (g : Generator) : Nat → Generator
  | 0 => g
  | n + 1 => g.candidate.2.discard n

/-- The candidate that is drawn behind `n` others. -/
def nth (g : Generator) (n : Nat) : List Char := (g.discard n).candidate.1

theorem discard_fields (g : Generator) (n : Nat) :
    (g.discard n).min = g.min ∧ (g.discard n).max = g.max ∧ (g.discard n).used = g.used := by
  induction n generalizing g with
  | zero => exact ⟨rfl, rfl, rfl⟩
  | succ n ih => exact ih g.candidate.2

/-- What a number of attempts come to: the first candidate that is not rejected, or no name once all
of them are rejected. -/
inductive Attempted (g : Generator) (attempts : Nat) : Option (List Char) × Generator → Prop
  | accepted {n : Nat} (hn : n < attempts) (hrejected : ∀ k < n, g.rejects (g.nth k) = true)
      (haccepted : g.rejects (g.nth n) = false) :
      Attempted g attempts (some (g.nth n), { g.discard (n + 1) with used := g.nth n :: g.used })
  | exhausted (hrejected : ∀ k < attempts, g.rejects (g.nth k) = true) :
      Attempted g attempts (none, g.discard attempts)

theorem attempted_generateWithin (g : Generator) (attempts : Nat) :
    Attempted g attempts (g.generateWithin attempts) := by
  induction attempts generalizing g with
  | zero => exact .exhausted nofun
  | succ attempts ih =>
    by_cases hfirst : g.rejects g.candidate.1 = true
    · have hstep : g.generateWithin (attempts + 1) = g.candidate.2.generateWithin attempts :=
        if_pos hfirst
      have hrest := ih g.candidate.2
      rw [hstep]
      generalize g.candidate.2.generateWithin attempts = outcome at hrest
      -- rejecting looks only at the names in use, and a candidate leaves these alone
      have hbehind : ∀ {m : Nat}, (∀ k < m, g.rejects (g.candidate.2.nth k) = true) →
          ∀ k < m + 1, g.rejects (g.nth k) = true := by
        intro m h k hk
        cases k with
        | zero => exact hfirst
        | succ k => exact h k (Nat.lt_of_succ_lt_succ hk)
      cases hrest with
      | @accepted n hn hrejected haccepted =>
        exact .accepted (n := n + 1) (Nat.succ_lt_succ hn) (hbehind hrejected) haccepted
      | exhausted hrejected => exact .exhausted (hbehind hrejected)
    · have hstep : g.generateWithin (attempts + 1) =
          (some g.candidate.1, { g.candidate.2 with used := g.candidate.1 :: g.used }) :=
        if_neg hfirst
      rw [hstep]
      exact .accepted (n := 0) (Nat.succ_pos attempts) nofun (eq_false_of_ne_true hfirst)

/-- A candidate that is not rejected is fresh, whatever was drawn before it. -/
theorem fresh_nth {n : Nat} (h : g.rejects (g.nth n) = false) : Fresh g (g.nth n) := by
  obtain ⟨hmin, hmax, hused⟩ := g.discard_fields n
  have hrejects : (g.discard n).rejects (g.nth n) = false := by
    rwa [rejects, hused]
  have hfresh := fresh_candidate hrejects
  exact hfresh.congr hmin.symm hmax.symm (hused ▸ hfresh.unused)

/-- A generated name is fresh, and all that changes but the draws is that it is in use now. -/
theorem generateWithin_some {attempts : Nat} (h : g.generateWithin attempts = (some name, g')) :
    Fresh g name ∧ g'.min = g.min ∧ g'.max = g.max ∧ g'.used = name :: g.used := by
  have hattempted := h ▸ g.attempted_generateWithin attempts
  cases hattempted with
  | @accepted n _ _ haccepted =>
    obtain ⟨hmin, hmax, -⟩ := g.discard_fields (n + 1)
    exact ⟨fresh_nth haccepted, hmin, hmax, rfl⟩

end Generator

end LuaBundle.Obfuscation
