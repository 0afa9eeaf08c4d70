import LuaBundle.Lua.Spacing
import Mathlib

/-!
# Reading a spelling back

A token that the lexer has read is read again from its spelling, whatever follows it now, as long as
what follows does not go on with the token.
-/
namespace LuaBundle.Lua

/-! ### Strings -/

theorem shortRest?_swap {quote : Char} (hquote : quote ≠ '\\') {input a b : List Char}
    (h : shortRest? quote input = some (a, b)) (rest : List Char) :
    shortRest? quote (a ++ rest) = some (a, rest) := by
  fun_induction shortRest? quote input generalizing a b with
  | case1 => cases h
  | case2 d r ih =>
    obtain ⟨⟨a, b⟩, hr, hsplit⟩ := Option.map_eq_some_iff.mp h
    cases hsplit
    show shortRest? quote ('\\' :: d :: (a ++ rest)) = _
    rw [shortRest?, ih hr]
    rfl
  | case3 => cases h
  | case4 r =>
    cases h
    rw [List.singleton_append, shortRest?, if_neg, if_pos rfl]
    all_goals simp_all
  | case5 c r hslash hline hne ih =>
    obtain ⟨⟨a, b⟩, hr, hsplit⟩ := Option.map_eq_some_iff.mp h
    cases hsplit
    have hc : c ≠ '\\' := by
      rintro rfl
      cases r with
      | nil => cases hr
      | cons d r => exact hslash d r rfl rfl
    rw [List.cons_append, shortRest?, if_neg hline, if_neg hne, ih hr]
    · rfl
    · intro d r hcontra
      exact absurd hcontra hc

theorem getLast?_shortRest? {quote : Char} {input a b : List Char}
    (h : shortRest? quote input = some (a, b)) : a.getLast? = some quote := by
  fun_induction shortRest? quote input generalizing a b with
  | case1 => cases h
  | case2 d r ih =>
    obtain ⟨⟨a, b⟩, hr, hsplit⟩ := Option.map_eq_some_iff.mp h
    cases hsplit
    simp [onto, List.getLast?_cons, ih hr]
  | case3 => cases h
  | case4 => cases h; rfl
  | case5 c r _ _ _ ih =>
    obtain ⟨⟨a, b⟩, hr, hsplit⟩ := Option.map_eq_some_iff.mp h
    cases hsplit
    simp [List.getLast?_cons, ih hr]

theorem suffix_of_throughFirst? {mark input a b : List Char}
    (h : throughFirst? mark input = some (a, b)) : mark <:+ a := by
  fun_induction throughFirst? mark input generalizing a b with
  | case1 => cases h
  | case2 => cases h; exact List.suffix_refl _
  | case3 c r _ ih =>
    obtain ⟨⟨a, b⟩, hr, hsplit⟩ := Option.map_eq_some_iff.mp h
    cases hsplit
    exact (ih hr).trans (List.suffix_cons c a)

/-- The mark ends what is read, so it cannot begin earlier with another rest. -/
theorem throughFirst?_swap {mark input a b : List Char} (hmark : mark ≠ [])
    (h : throughFirst? mark input = some (a, b)) (rest : List Char) :
    throughFirst? mark (a ++ rest) = some (a, rest) := by
  fun_induction throughFirst? mark input generalizing a b with
  | case1 => cases h
  | case2 c r hp =>
    cases h
    obtain ⟨d, mark, rfl⟩ := List.exists_cons_of_ne_nil hmark
    have hprefix : (d :: mark).isPrefixOf (d :: (mark ++ rest)) = true := by simp
    rw [List.cons_append, throughFirst?, if_pos hprefix, ← List.cons_append, List.drop_left]
  | case3 c r hp ih =>
    obtain ⟨⟨a, b⟩, hr, hsplit⟩ := Option.map_eq_some_iff.mp h
    cases hsplit
    have hnot : ¬ mark.isPrefixOf (c :: (a ++ rest)) = true := by
      intro hprefix
      rw [List.isPrefixOf_iff_prefix] at hp hprefix
      have hlength : mark.length ≤ (c :: a).length :=
        (suffix_of_throughFirst? hr).length_le.trans (Nat.le_succ _)
      have hin : mark <+: c :: a :=
        List.prefix_of_prefix_length_le hprefix (List.prefix_append (c :: a) rest) hlength
      refine hp (hin.trans ?_)
      rw [← throughFirst?_append hr]
      exact List.prefix_append (c :: a) b
    rw [List.cons_append, throughFirst?, if_neg hnot, ih hr]
    rfl

def longOpen (level : Nat) : List Char := '[' :: List.replicate level '=' ++ ['[']

theorem length_longOpen (level : Nat) : (longOpen level).length = level + 2 := by
  simp [longOpen]

theorem longLevel?_open (level : Nat) (rest : List Char) :
    longLevel? (longOpen level ++ rest) = some level := by
  have hrun : ∀ c ∈ List.replicate level '=', (c == '=') = true := by
    intro c hc
    rw [List.eq_of_mem_replicate hc]
    rfl
  simp only [longOpen, List.cons_append, List.append_assoc, longLevel?]
  rw [List.dropWhile_append_of_pos hrun, List.takeWhile_append_of_pos hrun]
  simp

theorem longLevel?_of_ne {c : Char} {r : List Char} (hc : c ≠ '[') : longLevel? (c :: r) = none := by
  unfold longLevel?
  split
  · rename_i heq
    exact absurd (List.cons.inj heq).1 hc
  · rfl

theorem open_of_longLevel? {input : List Char} {level : Nat} (h : longLevel? input = some level) :
    ∃ rest, input = longOpen level ++ rest := by
  unfold longLevel? at h
  split at h
  · rename_i r
    split at h
    · rename_i rest hdrop
      cases h
      have hrun : r.takeWhile (· == '=') = List.replicate (r.takeWhile (· == '=')).length '=' := by
        refine List.eq_replicate_iff.mpr ⟨rfl, fun c hc => ?_⟩
        have := List.all_takeWhile (p := (· == '=')) (l := r)
        simpa using List.all_eq_true.mp this c hc
      refine ⟨rest, ?_⟩
      rw [longOpen, ← hrun, List.append_assoc, List.cons_append, List.singleton_append, ← hdrop,
        List.takeWhile_append_dropWhile]
    · cases h
  · cases h

theorem longBracket?_open (level : Nat) (rest : List Char) :
    longBracket? level (longOpen level ++ rest) =
      (throughFirst? (longClose level) rest).map fun split => (longOpen level ++ split.1, split.2) := by
  rw [longBracket?, ← length_longOpen level, List.drop_left, List.take_left]

theorem longBracket?_swap {level : Nat} {input a b : List Char} (hlevel : longLevel? input = some level)
    (h : longBracket? level input = some (a, b)) (rest : List Char) :
    longLevel? (a ++ rest) = some level ∧ longBracket? level (a ++ rest) = some (a, rest) := by
  obtain ⟨body, rfl⟩ := open_of_longLevel? hlevel
  rw [longBracket?_open] at h
  obtain ⟨⟨a, b⟩, hbody, hsplit⟩ := Option.map_eq_some_iff.mp h
  cases hsplit
  have hclose : longClose level ≠ [] := by simp [longClose]
  rw [List.append_assoc]
  refine ⟨longLevel?_open level _, ?_⟩
  rw [longBracket?_open, throughFirst?_swap hclose hbody rest]
  rfl

theorem getLast?_longBracket? {level : Nat} {input a b : List Char}
    (h : longBracket? level input = some (a, b)) : a.getLast? = some ']' := by
  obtain ⟨⟨a, b⟩, hbody, hsplit⟩ := Option.map_eq_some_iff.mp h
  cases hsplit
  obtain ⟨front, rfl⟩ := suffix_of_throughFirst? hbody
  simp [longClose, List.getLast?_cons]

/-! ### Numerals -/

def isHexNumeral : List Char → Bool
  | '0' :: d :: _ => d == 'x' || d == 'X'
  | _ => false

/-- A numeral that a sign behind it would go on with. -/
def endsInExponent (text : List Char) : Bool :=
  text.getLast?.any (if isHexNumeral text then isHexExponent else isDecimalExponent)

/-- No character of a numeral, and no sign behind an exponent letter. -/
def NumeralStops (awaitsSign : Prop) (rest : List Char) : Prop :=
  ∀ d ∈ rest.head?, isWordChar d = false ∧ d ≠ '.' ∧ (awaitsSign → d ≠ '+' ∧ d ≠ '-')

theorem NumeralStops.mono {p q : Prop} {rest : List Char} (h : NumeralStops p rest) (hpq : q → p) :
    NumeralStops q rest :=
  fun d hd => ⟨(h d hd).1, (h d hd).2.1, fun hq => (h d hd).2.2 (hpq hq)⟩

section Numerals

variable {isExponent : Char → Bool} {input rest : List Char} {p : Prop}

theorem numeralRun_stop (hletter : ∀ c, isExponent c = true → isWordChar c = true)
    (h : NumeralStops p rest) : numeralRun isExponent rest = ([], rest) := by
  have hexp : ∀ c, isWordChar c = false → isExponent c = false := by
    intro c hc
    by_contra hne
    rw [hletter c (by simpa using hne)] at hc
    cases hc
  cases rest with
  | nil => rfl
  | cons c r =>
    obtain ⟨hword, hdot, -⟩ := h c rfl
    cases r with
    | nil => simp [numeralRun, hword, hdot]
    | cons d r => simp [numeralRun, hexp c hword, hword, hdot]

theorem numeralRun_last {c : Char} (hletter : ∀ c, isExponent c = true → isWordChar c = true)
    (hc : (isWordChar c || c == '.') = true) (h : NumeralStops (isExponent c = true) rest) :
    numeralRun isExponent (c :: rest) = ([c], rest) := by
  have hstop := numeralRun_stop hletter h
  cases rest with
  | nil => simp [numeralRun, hc]
  | cons d r =>
    obtain ⟨-, hdot, hsign⟩ := h d rfl
    have hno : (isExponent c && (d == '+' || d == '-')) = false := by
      cases he : isExponent c with
      | false => rfl
      | true =>
        obtain ⟨hplus, hminus⟩ := hsign he
        simp [hplus, hminus]
    have hgo : ((isWordChar c || c == '.') && !(c == '.' && d == '.')) = true := by
      simp [hc, hdot]
    rw [numeralRun, hno, hgo, hstop]
    rfl

theorem numeralRun_swap (hletter : ∀ c, isExponent c = true → isWordChar c = true)
    (h : NumeralStops (∃ c ∈ (numeralRun isExponent input).1.getLast?, isExponent c = true) rest) :
    numeralRun isExponent ((numeralRun isExponent input).1 ++ rest) =
      ((numeralRun isExponent input).1, rest) := by
  fun_induction numeralRun isExponent input with
  | case1 => exact numeralRun_stop hletter h
  | case2 c hc => exact numeralRun_last hletter hc (h.mono fun he => ⟨c, rfl, he⟩)
  | case3 => exact numeralRun_stop hletter h
  | case4 c d r hsign ih =>
    have hin : NumeralStops (∃ l ∈ (numeralRun isExponent r).1.getLast?, isExponent l = true) rest := by
      refine h.mono ?_
      rintro ⟨l, hl, he⟩
      refine ⟨l, ?_, he⟩
      rw [Option.mem_def] at hl
      simp [onto, List.getLast?_cons, hl]
    show numeralRun isExponent (c :: d :: ((numeralRun isExponent r).1 ++ rest)) = _
    rw [numeralRun, if_pos hsign, ih hin]
    rfl
  | case5 c d r hsign hgo ih =>
    have happend := numeralRun_append isExponent (d :: r)
    show numeralRun isExponent (c :: ((numeralRun isExponent (d :: r)).1 ++ rest)) =
      (c :: (numeralRun isExponent (d :: r)).1, rest)
    -- the run goes on with `d`, or `c` is its last character
    cases hrun : (numeralRun isExponent (d :: r)).1 with
    | nil =>
      refine numeralRun_last hletter (Bool.and_eq_true_iff.mp hgo).1 (h.mono fun he => ⟨c, ?_, he⟩)
      simp [onto, hrun]
    | cons e a =>
      rw [hrun, List.cons_append] at happend
      obtain rfl : e = d := (List.cons.inj happend).1
      have hin : NumeralStops
          (∃ l ∈ (numeralRun isExponent (e :: r)).1.getLast?, isExponent l = true) rest := by
        refine h.mono ?_
        rintro ⟨l, hl, he⟩
        refine ⟨l, ?_, he⟩
        rw [Option.mem_def] at hl
        simp [onto, List.getLast?_cons, hl]
      have htail := ih hin
      rw [hrun, List.cons_append] at htail
      rw [List.cons_append, numeralRun, if_neg hsign, if_pos hgo, htail]
      rfl
  | case6 => exact numeralRun_stop hletter h

theorem isWordChar_of_decimal {c : Char} (h : isDecimalExponent c = true) : isWordChar c = true := by
  simp only [isDecimalExponent, Bool.or_eq_true, beq_iff_eq] at h
  rcases h with rfl | rfl <;> decide

theorem isWordChar_of_hex {c : Char} (h : isHexExponent c = true) : isWordChar c = true := by
  simp only [isHexExponent, Bool.or_eq_true, beq_iff_eq] at h
  rcases h with rfl | rfl <;> decide

theorem isHexNumeral_iff {c d : Char} {r : List Char} :
    isHexNumeral (c :: d :: r) = true ↔ c = '0' ∧ (d = 'x' ∨ d = 'X') := by
  unfold isHexNumeral
  split <;> simp_all

theorem numeralRest_stop {c : Char} (h : NumeralStops p rest) : numeralRest c rest = ([], rest) := by
  have hstop := numeralRun_stop (fun _ => isWordChar_of_decimal) h
  cases rest with
  | nil => rfl
  | cons d r =>
    have hnot : ¬ (c = '0' ∧ (d = 'x' ∨ d = 'X')) := by
      have hword := (h d rfl).1
      rintro ⟨-, rfl | rfl⟩ <;> revert hword <;> decide
    rw [numeralRest, if_neg hnot, hstop]

theorem numeralRest_swap {c : Char}
    (h : NumeralStops (endsInExponent (c :: (numeralRest c input).1) = true) rest) :
    numeralRest c ((numeralRest c input).1 ++ rest) = ((numeralRest c input).1, rest) := by
  cases input with
  | nil => exact numeralRest_stop h
  | cons d r =>
    by_cases hhex : c = '0' ∧ (d = 'x' ∨ d = 'X')
    · have hread : numeralRest c (d :: r) = onto d (numeralRun isHexExponent r) := if_pos hhex
      rw [hread] at h ⊢
      have hin : NumeralStops
          (∃ l ∈ (numeralRun isHexExponent r).1.getLast?, isHexExponent l = true) rest := by
        refine h.mono ?_
        rintro ⟨l, hl, he⟩
        rw [Option.mem_def] at hl
        simp [endsInExponent, onto, isHexNumeral_iff.mpr hhex, List.getLast?_cons, hl, he]
      show numeralRest c (d :: ((numeralRun isHexExponent r).1 ++ rest)) = _
      rw [numeralRest, if_pos hhex, numeralRun_swap (fun _ => isWordChar_of_hex) hin]
      rfl
    · have hread : numeralRest c (d :: r) = numeralRun isDecimalExponent (d :: r) := if_neg hhex
      have happend := numeralRun_append isDecimalExponent (d :: r)
      rw [hread] at h ⊢
      cases hrun : (numeralRun isDecimalExponent (d :: r)).1 with
      | nil => exact numeralRest_stop h
      | cons e a =>
        rw [hrun, List.cons_append] at happend
        obtain rfl : e = d := (List.cons.inj happend).1
        have hdecimal : isHexNumeral (c :: e :: a) = false := by
          simpa using mt isHexNumeral_iff.mp hhex
        have hin : NumeralStops
            (∃ l ∈ (numeralRun isDecimalExponent (e :: r)).1.getLast?, isDecimalExponent l = true)
            rest := by
          refine h.mono ?_
          rintro ⟨l, hl, he⟩
          rw [Option.mem_def, hrun] at hl
          rw [hrun, endsInExponent, hdecimal, List.getLast?_cons, hl]
          exact he
        have htail := numeralRun_swap (fun _ => isWordChar_of_decimal) hin
        rw [hrun, List.cons_append] at htail
        rw [List.cons_append, numeralRest, if_neg hhex, htail]

end Numerals

/-! ### Symbols -/

namespace Symbol

/-- What follows does not make the symbol a longer one, a comment, a string or a numeral. -/
def Stops (s : Symbol) (rest : List Char) : Prop :=
  ∀ d ∈ rest.head?, (∀ l ∈ s.text.getLast?, fuses l d = false) ∧ (s = dot → d.isDigit = false)

theorem Stops.ne {s : Symbol} {d : Char} {r : List Char} (h : s.Stops (d :: r)) {l e : Char}
    (hl : s.text.getLast? = some l) (he : fuses l e = true) : d ≠ e := by
  rintro rfl
  rw [(h d rfl).1 l hl] at he
  cases he

theorem leading?_text {s : Symbol} {rest : List Char} (h : s.Stops rest) :
    leading? (s.text ++ rest) = some s := by
  cases rest with
  | nil => cases s <;> decide
  | cons d r =>
    cases s with
    | concat | dot =>
      have hdot : d ≠ '.' := h.ne rfl rfl
      simp [text, leading?, all, List.isPrefixOf, hdot.symm]
    | slash =>
      have hslash : d ≠ '/' := h.ne rfl rfl
      simp [text, leading?, all, List.isPrefixOf, hslash.symm]
    | colon =>
      have hcolon : d ≠ ':' := h.ne rfl rfl
      simp [text, leading?, all, List.isPrefixOf, hcolon.symm]
    | tilde | assign =>
      have hequal : d ≠ '=' := h.ne rfl rfl
      simp [text, leading?, all, List.isPrefixOf, hequal.symm]
    | less =>
      have hequal : d ≠ '=' := h.ne rfl rfl
      have hless : d ≠ '<' := h.ne rfl rfl
      simp [text, leading?, all, List.isPrefixOf, hequal.symm, hless.symm]
    | greater =>
      have hequal : d ≠ '=' := h.ne rfl rfl
      have hgreater : d ≠ '>' := h.ne rfl rfl
      simp [text, leading?, all, List.isPrefixOf, hequal.symm, hgreater.symm]
    | _ => rfl

/-- The first character of a symbol and what follows begin nothing else. -/
structure Plain (c : Char) (r : List Char) : Prop where
  noComment : ¬ (c = '-' ∧ r.head? = some '-')
  noLevel : longLevel? (c :: r) = none
  noQuote : ¬ (c = '"' ∨ c = '\'')
  noNumeral : ¬ (c.isDigit = true ∨ c = '.' ∧ r.head?.any Char.isDigit = true)
  noName : isNameStart c = false

theorem Plain.nextToken {c : Char} {r : List Char} {s : Symbol} (h : Plain c r)
    (hs : leading? (c :: r) = some s) :
    Lua.nextToken c r = .ok (.symbol s, (c :: r).drop s.text.length) := by
  rw [Lua.nextToken, if_neg h.noComment, h.noLevel]
  simp only
  rw [if_neg h.noQuote, if_neg h.noNumeral, h.noName, hs]
  rfl

theorem plain_text {s : Symbol} {rest : List Char} (h : s.Stops rest) :
    ∃ c r, s.text = c :: r ∧ Plain c (r ++ rest) := by
  have hne : ∀ {l e : Char}, s.text.getLast? = some l → fuses l e = true → rest.head? ≠ some e := by
    intro l e hl he hhead
    obtain ⟨r, rfl⟩ := List.head?_eq_some_iff.mp hhead
    exact h.ne hl he rfl
  cases s with
  | minus =>
    have hminus : rest.head? ≠ some '-' := hne rfl rfl
    exact ⟨_, _, rfl, by simpa using hminus, rfl, by decide, by simp, rfl⟩
  | bracketOpen =>
    have hbracket : rest.head? ≠ some '[' := hne rfl rfl
    have hequal : rest.head? ≠ some '=' := hne rfl rfl
    have hlevel : longLevel? ('[' :: rest) = none := by
      cases rest with
      | nil => rfl
      | cons d r => simp_all [longLevel?]
    exact ⟨_, _, rfl, by simp, hlevel, by decide, by simp, rfl⟩
  | dot =>
    have hdigit : rest.head?.any Char.isDigit = false := by
      cases rest with
      | nil => rfl
      | cons d r => exact (h d rfl).2 rfl
    exact ⟨_, _, rfl, by simp, rfl, by decide, by simp [hdigit], rfl⟩
  | _ => exact ⟨_, _, rfl, by simp, rfl, by decide, by simp, rfl⟩

theorem nextToken_text {s : Symbol} {rest : List Char} (h : s.Stops rest) :
    ∃ c r, s.text = c :: r ∧ nextToken c (r ++ rest) = .ok (.symbol s, rest) := by
  obtain ⟨c, r, htext, hplain⟩ := plain_text h
  have hread := hplain.nextToken (s := s) (by
    rw [← List.cons_append, ← htext]
    exact leading?_text h)
  refine ⟨c, r, htext, ?_⟩
  rw [hread, ← List.cons_append, ← htext, List.drop_left]

end Symbol

/-! ### Tokens -/

theorem eq_of_isBlank {c : Char} (h : isBlank c = true) :
    c = ' ' ∨ c = '\t' ∨ c = '\r' ∨ c = '\n' ∨ c = '\x0b' ∨ c = '\x0c' := by
  simpa [isBlank, or_assoc] using h

theorem utf8Size_of_isBlank {c : Char} (hc : isBlank c = true) : c.utf8Size = 1 := by
  rcases eq_of_isBlank hc with rfl | rfl | rfl | rfl | rfl | rfl <;> rfl

theorem not_isBlank_of_nextToken {c : Char} {r rest : List Char} {t : Token}
    (h : nextToken c r = .ok (t, rest)) : isBlank c = false := by
  by_contra hblank
  rcases eq_of_isBlank (by simpa using hblank) with rfl | rfl | rfl | rfl | rfl | rfl <;>
    simp [nextToken, longLevel?, isNameStart, Symbol.leading?, Symbol.all, Symbol.text,
      List.isPrefixOf] at h

theorem not_isNameStart_of_isDigit {c : Char} (h : c.isDigit = true) : isNameStart c = false := by
  have halpha : c.isAlpha = false := by
    simp only [Char.isAlpha, Char.isUpper, Char.isLower, Char.isDigit] at *
    grind
  have hline : c ≠ '_' := by
    rintro rfl
    cases h
  simp [isNameStart, halpha, hline]

theorem not_isDigit_of_isNameStart {c : Char} (h : isNameStart c = true) : c.isDigit = false := by
  by_contra hdigit
  rw [not_isNameStart_of_isDigit (by simpa using hdigit)] at h
  cases h

theorem isWordChar_of_isDigit {c : Char} (h : c.isDigit = true) : isWordChar c = true := by
  simp [isWordChar, Char.isAlphanum, h]

theorem isWordChar_of_isNameStart {c : Char} (h : isNameStart c = true) : isWordChar c = true := by
  simp only [isNameStart, isWordChar, Char.isAlphanum, Bool.or_eq_true] at h ⊢
  exact h.imp_left .inl

theorem bounds_of_isWordChar {c : Char} (h : isWordChar c = true) :
    0x30 ≤ c.toNat ∧ c.toNat ≤ 0x7A := by
  simp only [isWordChar, Char.isAlphanum, Char.isAlpha, Char.isUpper, Char.isLower, Char.isDigit,
    Bool.or_eq_true, Bool.and_eq_true, decide_eq_true_eq, beq_iff_eq, ge_iff_le,
    UInt32.le_iff_toNat_le, Char.toNat_val] at h
  rcases h with ((⟨hlow, hhigh⟩ | ⟨hlow, hhigh⟩) | ⟨hlow, hhigh⟩) | rfl
  · exact ⟨Nat.le_trans (by decide) hlow, Nat.le_trans hhigh (by decide)⟩
  · exact ⟨Nat.le_trans (by decide) hlow, Nat.le_trans hhigh (by decide)⟩
  · exact ⟨Nat.le_trans (by decide) hlow, Nat.le_trans hhigh (by decide)⟩
  · decide

theorem nextToken_word {c : Char} {r rest : List Char} (hc : isNameStart c = true)
    (hr : ∀ d ∈ r, isWordChar d = true) (hrest : ∀ d ∈ rest.head?, isWordChar d = false) :
    nextToken c (r ++ rest) = .ok (ofWord (c :: r), rest) := by
  have hdash : ¬ (c = '-' ∧ (r ++ rest).head? = some '-') := by
    rintro ⟨rfl, -⟩
    cases hc
  have hlevel : longLevel? (c :: (r ++ rest)) = none := by
    refine longLevel?_of_ne ?_
    rintro rfl
    cases hc
  have hquote : ¬ (c = '"' ∨ c = '\'') := by
    rintro (rfl | rfl) <;> cases hc
  have hdigit : ¬ (c.isDigit = true ∨ c = '.' ∧ (r ++ rest).head?.any Char.isDigit = true) := by
    rintro (hdigit | ⟨rfl, -⟩)
    · rw [not_isNameStart_of_isDigit hdigit] at hc
      cases hc
    · cases hc
  have hstop : rest.takeWhile isWordChar = [] ∧ rest.dropWhile isWordChar = rest := by
    cases rest with
    | nil => exact ⟨rfl, rfl⟩
    | cons d rest => simp [hrest d rfl]
  rw [nextToken, if_neg hdash, hlevel]
  simp only
  rw [if_neg hquote, if_neg hdigit, if_pos hc, List.takeWhile_append_of_pos hr,
    List.dropWhile_append_of_pos hr, hstop.1, hstop.2, List.append_nil]

theorem nextToken_long {c : Char} {r : List Char} {level : Nat} {split : List Char × List Char}
    (hlevel : longLevel? (c :: r) = some level) (h : longBracket? level (c :: r) = some split) :
    nextToken c r = .ok (.string split.1, split.2) := by
  have hopen : c = '[' := by
    obtain ⟨rest, hinput⟩ := open_of_longLevel? hlevel
    exact (List.cons.inj hinput).1
  rw [nextToken, if_neg (by rintro ⟨rfl, -⟩; cases hopen), hlevel]
  simp only
  rw [h]

theorem nextToken_quote {c : Char} {r : List Char} {split : List Char × List Char}
    (hc : c = '"' ∨ c = '\'') (h : shortRest? c r = some split) :
    nextToken c r = .ok (.string (c :: split.1), split.2) := by
  have hlevel : longLevel? (c :: r) = none := by
    rcases hc with rfl | rfl <;> rfl
  rw [nextToken, if_neg (by rintro ⟨rfl, -⟩; simp at hc), hlevel]
  simp only
  rw [if_pos hc, h]

/-- The digit behind a leading point belongs to the numeral. -/
theorem head?_numeralRest {d : Char} {r : List Char} (hd : d.isDigit = true) :
    (numeralRest '.' (d :: r)).1.head? = some d := by
  have hword := isWordChar_of_isDigit hd
  have hdot : d ≠ '.' := by
    rintro rfl
    cases hd
  have hexp : isDecimalExponent d = false := by
    simp only [isDecimalExponent, Bool.or_eq_false_iff, beq_eq_false_iff_ne]
    constructor <;> rintro rfl <;> cases hd
  have hhex : ¬ ('.' = '0' ∧ (d = 'x' ∨ d = 'X')) := nofun
  rw [numeralRest, if_neg hhex]
  cases r with
  | nil => simp [numeralRun, hword]
  | cons e r => simp [numeralRun, hword, hdot, hexp, onto]

theorem nextToken_numeral {c : Char} {r : List Char}
    (hc : c.isDigit = true ∨ c = '.' ∧ r.head?.any Char.isDigit = true) :
    nextToken c r = .ok (.number (c :: (numeralRest c r).1), (numeralRest c r).2) := by
  have hlevel : longLevel? (c :: r) = none := by
    refine longLevel?_of_ne ?_
    rintro rfl
    simp at hc
  have hquote : ¬ (c = '"' ∨ c = '\'') := by
    rintro (rfl | rfl) <;> simp at hc
  rw [nextToken, if_neg (by rintro ⟨rfl, -⟩; simp at hc), hlevel]
  simp only
  rw [if_neg hquote, if_pos hc]

theorem nextToken_number {c : Char} {r rest : List Char}
    (hc : c.isDigit = true ∨ c = '.' ∧ r.head?.any Char.isDigit = true)
    (hrest : NumeralStops (endsInExponent (c :: (numeralRest c r).1) = true) rest) :
    nextToken c ((numeralRest c r).1 ++ rest) = .ok (.number (c :: (numeralRest c r).1), rest) := by
  have hnumeral : c.isDigit = true ∨
      c = '.' ∧ ((numeralRest c r).1 ++ rest).head?.any Char.isDigit = true := by
    rcases hc with hc | ⟨rfl, hr⟩
    · exact .inl hc
    · cases r with
      | nil => cases hr
      | cons d r => exact .inr ⟨rfl, by rw [List.head?_append, head?_numeralRest hr]; exact hr⟩
  rw [nextToken_numeral hnumeral, numeralRest_swap hrest]

/-- The ways in which a token is read at the front of `c :: r`, and what is left behind it. -/
inductive Lexes (c : Char) (r : List Char) : Token → List Char → Prop
  | comment {s body rest : List Char} (hc : c = '-') (hr : r = '-' :: s)
      (hbody : commentRest s = .ok (body, rest)) : Lexes c r (.comment ('-' :: '-' :: body)) rest
  | long {level : Nat} {body rest : List Char} (hlevel : longLevel? (c :: r) = some level)
      (hbody : longBracket? level (c :: r) = some (body, rest)) : Lexes c r (.string body) rest
  | quote {body rest : List Char} (hquote : c = '"' ∨ c = '\'')
      (hbody : shortRest? c r = some (body, rest)) : Lexes c r (.string (c :: body)) rest
  | numeral {body rest : List Char}
      (hnumeral : c.isDigit = true ∨ c = '.' ∧ r.head?.any Char.isDigit = true)
      (hbody : numeralRest c r = (body, rest)) : Lexes c r (.number (c :: body)) rest
  | word {t : Token} {rest : List Char} (hname : isNameStart c = true)
      (ht : ofWord (c :: r.takeWhile isWordChar) = t) (hrest : r.dropWhile isWordChar = rest) :
      Lexes c r t rest
  | symbol {mark : Symbol} {rest : List Char} (hplain : Symbol.Plain c r)
      (hmark : Symbol.leading? (c :: r) = some mark)
      (hrest : (c :: r).drop mark.text.length = rest) : Lexes c r (.symbol mark) rest

theorem lexes_of_nextToken {c : Char} {r rest : List Char} {t : Token}
    (h : nextToken c r = .ok (t, rest)) : Lexes c r t rest := by
  unfold nextToken at h
  split at h
  · rename_i hdashes
    split at h
    · rename_i split hsplit
      cases h
      obtain ⟨s, rfl⟩ := List.head?_eq_some_iff.mp hdashes.2
      exact .comment hdashes.1 rfl hsplit
    · cases h
  split at h
  · rename_i hlevel
    split at h
    · rename_i hsplit
      cases h
      exact .long hlevel hsplit
    · cases h
  split at h
  · rename_i hquote
    split at h
    · rename_i hsplit
      cases h
      exact .quote hquote hsplit
    · cases h
  split at h
  · rename_i hnumeral
    cases h
    exact .numeral hnumeral rfl
  split at h
  · rename_i hname
    cases h
    exact .word hname rfl rfl
  rename_i hdashes _ hlevel hquote hnumeral hname
  split at h
  · rename_i hmark
    cases h
    have hplain : Symbol.Plain c r := by
      constructor
      case noComment => exact hdashes
      case noLevel => exact Option.eq_none_iff_forall_ne_some.mpr hlevel
      case noQuote => exact hquote
      case noNumeral => exact hnumeral
      case noName => simpa using hname
    exact .symbol hplain hmark rfl
  · cases h

namespace Token

/-- The lexer reads this token from some text. -/
def Lexed (t : Token) : Prop := ∃ c r rest, nextToken c r = .ok (t, rest)

/-- What follows does not go on with the token. -/
def Stops : Token → List Char → Prop
  | name _, rest | keyword _, rest => ∀ d ∈ rest.head?, isWordChar d = false
  | number text, rest => NumeralStops (endsInExponent text = true) rest
  | string _, _ => True
  | comment _, _ => False
  | symbol s, rest => s.Stops rest

theorem stops_ofWord {word rest : List Char} :
    (ofWord word).Stops rest ↔ ∀ d ∈ rest.head?, isWordChar d = false := by
  unfold ofWord
  split <;> rfl

/-- The token is read again from its spelling and whatever stands behind it. -/
theorem Lexed.nextToken_text {t : Token} (h : t.Lexed) {rest : List Char} (hrest : t.Stops rest) :
    ∃ c r, t.text = c :: r ∧ isBlank c = false ∧ nextToken c (r ++ rest) = .ok (t, rest) := by
  suffices ∃ c r, t.text = c :: r ∧ nextToken c (r ++ rest) = .ok (t, rest) by
    obtain ⟨c, r, htext, hread⟩ := this
    exact ⟨c, r, htext, not_isBlank_of_nextToken hread, hread⟩
  obtain ⟨c, r, old, h⟩ := h
  cases lexes_of_nextToken h with
  | comment => exact hrest.elim
  | long hlevel hbody =>
    obtain ⟨hlevel', hread⟩ := longBracket?_swap hlevel hbody rest
    obtain ⟨d, body, rfl⟩ := List.exists_cons_of_ne_nil (longBracket?_ne_nil hbody)
    exact ⟨d, body, rfl, nextToken_long hlevel' hread⟩
  | @quote body _ hquote hbody =>
    have hslash : c ≠ '\\' := by
      rcases hquote with rfl | rfl <;> decide
    exact ⟨c, body, rfl, nextToken_quote hquote (shortRest?_swap hslash hbody rest)⟩
  | @numeral body _ hnumeral hbody =>
    obtain rfl : (numeralRest c r).1 = body := congrArg Prod.fst hbody
    exact ⟨c, _, rfl, nextToken_number hnumeral hrest⟩
  | word hname ht _ =>
    subst ht
    refine ⟨c, r.takeWhile isWordChar, ofWord_text _, ?_⟩
    refine nextToken_word hname (fun d hd => ?_) (stops_ofWord.mp hrest)
    exact List.all_eq_true.mp List.all_takeWhile d hd
  | symbol _ _ _ => exact Symbol.nextToken_text hrest

end Token

end LuaBundle.Lua
