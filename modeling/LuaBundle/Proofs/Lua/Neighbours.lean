import LuaBundle.Proofs.Lua.Lossless

/-!
# Neighbours without a space

Two tokens between which no space is put are read back from their joined spellings, unless they
merge: a numeral goes on over whatever word follows it and, behind an exponent letter, over a sign,
and a point goes on with a numeral.
-/
namespace LuaBundle.Lua

/-! ### Where a numeral ends -/

section Numerals

variable {isExponent : Char → Bool} {c : Char} {input a b : List Char}

/-- A numeral that ends in an exponent letter was not followed by a sign. -/
theorem not_sign_of_numeralRun (hletter : ∀ c, isExponent c = true → isWordChar c = true)
    (hread : numeralRun isExponent input = (a, b)) {l : Char} (hl : a.getLast? = some l)
    (hexp : isExponent l = true) : b.head? ≠ some '+' ∧ b.head? ≠ some '-' := by
  fun_induction numeralRun isExponent input generalizing a with
  | case1 =>
    cases hread
    cases hl
  | case2 =>
    cases hread
    simp
  | case3 =>
    cases hread
    cases hl
  | case4 c d r hsign ih =>
    obtain ⟨rfl, hrest⟩ := Prod.mk.inj hread
    cases hrun : (numeralRun isExponent r).1 with
    | nil =>
      -- the run ends in the sign itself, which is no exponent letter
      have hlast : d = l := by simpa [onto, hrun] using hl
      have hd : isWordChar d = true := hletter d (hlast ▸ hexp)
      rcases Bool.or_eq_true_iff.mp (Bool.and_eq_true_iff.mp hsign).2 with hplus | hminus
      · rw [beq_iff_eq.mp hplus] at hd
        cases hd
      · rw [beq_iff_eq.mp hminus] at hd
        cases hd
    | cons e s =>
      apply ih (a := e :: s) (Prod.ext hrun hrest)
      simpa [onto, hrun, List.getLast?_cons] using hl
  | case5 c d r hsign hgo ih =>
    obtain ⟨rfl, hrest⟩ := Prod.mk.inj hread
    have happend := numeralRun_append isExponent (d :: r)
    cases hrun : (numeralRun isExponent (d :: r)).1 with
    | nil =>
      have hlast : c = l := by simpa [onto, hrun] using hl
      have hb : b = d :: r := by
        rw [hrun, List.nil_append] at happend
        exact hrest.symm.trans happend
      simp only [hlast, hexp, Bool.true_and, Bool.or_eq_true, beq_iff_eq, not_or] at hsign
      simpa [hb] using hsign
    | cons e s =>
      apply ih (a := e :: s) (Prod.ext hrun hrest)
      simpa [onto, hrun, List.getLast?_cons] using hl
  | case6 =>
    cases hread
    cases hl

theorem not_sign_of_numeralRest (hc : isDecimalExponent c = false)
    (hread : numeralRest c input = (a, b)) (hend : endsInExponent (c :: a) = true) :
    b.head? ≠ some '+' ∧ b.head? ≠ some '-' := by
  obtain ⟨l, hl, hexp⟩ := (Option.any_eq_true _ _).mp hend
  cases input with
  | nil =>
    cases hread
    simp
  | cons d r =>
    by_cases hhex : c = '0' ∧ (d = 'x' ∨ d = 'X')
    · rw [numeralRest, if_pos hhex] at hread
      obtain ⟨rfl, rfl⟩ := Prod.mk.inj hread
      simp only [isHexNumeral_iff.mpr hhex, if_true] at hl hexp
      cases hrun : (numeralRun isHexExponent r).1 with
      | nil =>
        have hlast : d = l := by simpa [hrun] using hl
        rcases hhex.2 with rfl | rfl <;> rw [← hlast] at hexp <;> cases hexp
      | cons e s =>
        have hlast : (numeralRun isHexExponent r).1.getLast? = some l := by
          simpa [hrun, List.getLast?_cons] using hl
        exact not_sign_of_numeralRun (fun _ => isWordChar_of_hex) rfl hlast hexp
    · rw [numeralRest, if_neg hhex] at hread
      cases a with
      | nil =>
        have hlast : c = l := by simpa using hl
        rw [← hlast, isHexNumeral, if_neg (by decide), hc] at hexp
        · cases hexp
        · simp
      | cons e s =>
        have happend := numeralRun_append isDecimalExponent (d :: r)
        rw [hread, List.cons_append] at happend
        obtain rfl : e = d := (List.cons.inj happend).1
        have hdecimal : isHexNumeral (c :: e :: s) = false := by
          simpa using mt isHexNumeral_iff.mp hhex
        rw [hdecimal] at hexp
        have hlast : (e :: s).getLast? = some l := by simpa [List.getLast?_cons] using hl
        exact not_sign_of_numeralRun (fun _ => isWordChar_of_decimal) hread hlast hexp

theorem not_isDecimalExponent_of_numeral
    (hc : c.isDigit = true ∨ c = '.' ∧ input.head?.any Char.isDigit = true) :
    isDecimalExponent c = false := by
  by_contra hexp
  simp only [isDecimalExponent, Bool.not_eq_false, Bool.or_eq_true, beq_iff_eq] at hexp
  rcases hexp with rfl | rfl <;> simp at hc

end Numerals

namespace Token

variable {t u : Token} {c : Char} {r rest : List Char}

/-- The lexer finds the token in some text. -/
def Produced (t : Token) : Prop :=
  ∃ source found, tokenize source = .ok found ∧ ∃ x ∈ found, x.token = t

theorem Produced.lexed (h : t.Produced) : t.Lexed := by
  obtain ⟨source, found, hfound, x, hx, rfl⟩ := h
  exact lexed_of_tokenize hfound x hx

/-- A number is read by the numeral scanner. -/
theorem numeralRest_of_number {text : List Char} (hread : nextToken c r = .ok (number text, rest)) :
    (c.isDigit = true ∨ c = '.' ∧ r.head?.any Char.isDigit = true) ∧
      text = c :: (numeralRest c r).1 ∧ rest = (numeralRest c r).2 := by
  cases lexes_of_nextToken hread with
  | numeral hnumeral hbody => exact ⟨hnumeral, by rw [hbody], by rw [hbody]⟩
  | word _ ht _ =>
    unfold ofWord at ht
    split at ht <;> cases ht

/-- What is read in front of a token does not merge with it. -/
theorem merges_eq_false (hread : nextToken c r = .ok (t, u.text)) : t.merges u = false := by
  cases t with
  | number text =>
    obtain ⟨hnumeral, rfl, hrest⟩ := numeralRest_of_number hread
    have hsplit : numeralRest c r = ((numeralRest c r).1, u.text) := Prod.ext rfl hrest.symm
    have hword : u.text.head?.any isWordChar = false := by
      cases hhead : u.text.head? with
      | none => rfl
      | some d => exact not_isWordChar_of_numeralRest hsplit d hhead
    have hsign : (endsInExponent (c :: (numeralRest c r).1) &&
        (u == symbol .plus || u == symbol .minus)) = false := by
      by_contra hmerge
      simp only [Bool.not_eq_false, Bool.and_eq_true, Bool.or_eq_true, beq_iff_eq] at hmerge
      obtain ⟨hend, hu⟩ := hmerge
      have hno := not_sign_of_numeralRest (not_isDecimalExponent_of_numeral hnumeral) hsplit hend
      rcases hu with rfl | rfl
      · exact hno.1 rfl
      · exact hno.2 rfl
    rw [merges, hword, hsign, Bool.and_false]
    rfl
  | symbol mark =>
    cases mark with
    | dot =>
      cases u with
      | number text =>
        obtain ⟨-, happend⟩ := nextToken_spec hread
        obtain ⟨rfl, rfl⟩ := List.cons.inj happend
        by_contra hdigit
        have hdigit : text.head?.any Char.isDigit = true := by simpa [merges] using hdigit
        change nextToken '.' text = _ at hread
        rw [nextToken_numeral (.inr ⟨rfl, hdigit⟩)] at hread
        cases hread
      | _ => rfl
    | _ => rfl
  | _ => rfl

/-- Joined spellings are read apart exactly if the first is read in front of the second. -/
theorem tokenize_append_iff (htext : t.text = c :: r) (hc : isBlank c = false) (hhash : c ≠ '#')
    (hu : u.Lexed) : tokenize (t.text ++ u.text) = .ok [⟨t, 0⟩, ⟨u, utf8Size t.text⟩] ↔
      nextToken c (r ++ u.text) = .ok (t, u.text) := by
  have hhead : (c :: (r ++ u.text)).head? ≠ some '#' := fun hhead => hhash (Option.some.inj hhead)
  rw [htext, List.cons_append, tokenize, if_neg hhead, ← htext]
  constructor
  · intro hscan
    cases hread : nextToken c (r ++ u.text) with
    | error fault =>
      rw [scan, if_neg (by simp [hc])] at hscan
      split at hscan
      · cases hscan
      · rename_i hok
        rw [hread] at hok
        cases hok
    | ok split =>
      obtain ⟨t', rest⟩ := split
      rw [scan_token hc hread] at hscan
      cases hmore : scan (0 + utf8Size t'.text) (1 + t'.text.count '\n') rest with
      | error e =>
        rw [hmore] at hscan
        cases hscan
      | ok more =>
        rw [hmore] at hscan
        cases hscan
        have happend := (nextToken_spec hread).2
        rw [← List.cons_append, ← htext] at happend
        rw [List.append_cancel_left happend]
  · intro hread
    obtain ⟨d, s, hutext, hd, hread'⟩ := hu.nextToken_alone
    rw [scan_token hc hread, hutext, scan_token hd hread', scan, Nat.zero_add]
    rfl

theorem tokenize_pair_iff (ht : t.Produced) (hu : u.Produced) (htc : t.isComment = false)
    (huc : u.isComment = false) (hhash : t ≠ symbol .hash)
    (hspace : needsSpace t.text u.text = false) :
    tokenize (t.text ++ u.text) = .ok [⟨t, 0⟩, ⟨u, utf8Size t.text⟩] ↔ t.merges u = false := by
  obtain ⟨c, r, htext, hc, -⟩ := ht.lexed.nextToken_alone
  have hne : c ≠ '#' := by
    rintro rfl
    exact hhash (ht.lexed.eq_hash htext)
  rw [tokenize_append_iff htext hc hne hu.lexed]
  constructor
  · exact merges_eq_false
  · intro hmerges
    have hstops := ht.lexed.stops hu.lexed htc huc hmerges hspace
    obtain ⟨d, s, htext', -, hread⟩ := ht.lexed.nextToken_text hstops
    rw [htext] at htext'
    cases htext'
    exact hread

/-- A numeral that ends in its point goes on with the word behind it, though no space is put there;
a closing parenthesis does not. -/
theorem point_goes_on :
    ((number ['1', '.']).Produced ∧ (keyword .orKw).Produced ∧
        needsSpace (number ['1', '.']).text (keyword .orKw).text = false ∧
        tokenize ['1', '.', 'o', 'r'] ≠ .ok [⟨number ['1', '.'], 0⟩, ⟨keyword .orKw, 2⟩]) ∧
      (symbol .parenClose).Produced ∧
        needsSpace (symbol .parenClose).text (keyword .orKw).text = false ∧
        tokenize [')', 'o', 'r'] = .ok [⟨symbol .parenClose, 0⟩, ⟨keyword .orKw, 1⟩] := by
  have hnumber : (number ['1', '.']).Produced :=
    ⟨"1. or".toList, [⟨number ['1', '.'], 0⟩, ⟨keyword .orKw, 3⟩], by cbv, _, List.mem_cons_self,
      rfl⟩
  have hor : (keyword .orKw).Produced :=
    ⟨"or".toList, [⟨keyword .orKw, 0⟩], by cbv, _, List.mem_cons_self, rfl⟩
  have hparen : (symbol .parenClose).Produced :=
    ⟨")".toList, [⟨symbol .parenClose, 0⟩], by cbv, _, List.mem_cons_self, rfl⟩
  refine ⟨⟨hnumber, hor, by decide, ?_⟩, hparen, by decide, ?_⟩
  · intro hread
    cases (tokenize_pair_iff hnumber hor rfl rfl (by decide) (by decide)).mp hread
  · exact (tokenize_pair_iff hparen hor rfl rfl (by decide) (by decide)).mpr rfl

end Token

end LuaBundle.Lua
