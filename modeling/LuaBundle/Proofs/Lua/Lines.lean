import LuaBundle.Proofs.Lua.Breaks

/-!
# Lexing line by line

A text that can be read on its own is read the same in front of a line break, and the lexer begins
anew behind it. Whatever follows gives the tokens that it gives on its own, further on, or the same
fault on a later line.
-/
namespace LuaBundle.Lua

/-- The same token, so many bytes further on. -/
def Lexeme.shift (bytes : Nat) (x : Lexeme) : Lexeme := ⟨x.token, x.offset + bytes⟩

/-- The same fault, so many lines further on. -/
def LexError.lower (lines : Nat) (e : LexError) : LexError := ⟨e.fault, e.line + lines⟩

/-- What the lexer finds in a text that stands so many bytes and lines further on. -/
def moved (bytes lines : Nat) : Except LexError (List Lexeme) → Except LexError (List Lexeme)
  | .ok found => .ok (found.map (Lexeme.shift bytes))
  | .error e => .error (e.lower lines)

/-- The place at which a scan begins only adds to the offsets and the line numbers. -/
theorem scan_moved (offset line bytes lines : Nat) (input : List Char) :
    scan (offset + bytes) (line + lines) input = moved bytes lines (scan offset line input) := by
  fun_induction scan offset line input with
  | case1 => rw [scan]; rfl
  | case2 offset line c r hc ih =>
    have hline : (if c = '\n' then line + lines + 1 else line + lines) =
        (if c = '\n' then line + 1 else line) + lines := by
      split <;> omega
    rw [scan_blank hc, hline, Nat.add_right_comm]
    exact ih
  | case3 offset line c r hc fault hread =>
    rw [scan_fault (by simpa using hc) hread]
    rfl
  | case4 offset line c r hc t rest hread more hscan ih =>
    rw [scan_token (by simpa using hc) hread, Nat.add_right_comm offset, Nat.add_right_comm line,
      ih, hscan]
    rfl
  | case5 offset line c r hc t rest hread e hscan ih =>
    rw [scan_token (by simpa using hc) hread, Nat.add_right_comm offset, Nat.add_right_comm line,
      ih, hscan]
    rfl

/-- A first line that is no code is passed before the scan; what stands behind the next line break
does not change that. -/
theorem tokenize_front (a : List Char) :
    ∃ front input, a = front ++ input ∧ front.count '\n' = 0 ∧
      tokenize a = scan (utf8Size front) 1 input ∧
      ∀ b, tokenize (a ++ '\n' :: b) = scan (utf8Size front) 1 (input ++ '\n' :: b) := by
  have hhead : ∀ b, (a ++ '\n' :: b).head? = some '#' ↔ a.head? = some '#' := by
    intro b
    cases a <;> simp
  by_cases hhash : a.head? = some '#'
  · refine ⟨a.takeWhile (· != '\n'), a.dropWhile (· != '\n'), List.takeWhile_append_dropWhile.symm,
      ?_, ?_, fun b => ?_⟩
    · refine List.count_eq_zero.mpr fun hmem => ?_
      simpa using List.all_eq_true.mp List.all_takeWhile _ hmem
    · rw [tokenize, if_pos hhash]
    · obtain ⟨htake, hdrop⟩ := run_append (p := (· != '\n')) (e := '\n' :: b) (by simp) a
      rw [tokenize, if_pos ((hhead b).mpr hhash), htake, hdrop]
  · refine ⟨[], a, rfl, rfl, ?_, fun b => ?_⟩
    · rw [tokenize, if_neg hhash]
      rfl
    · rw [tokenize, if_neg fun h => hhash ((hhead b).mp h)]
      rfl

/-- Behind a line break the lexer begins anew. -/
theorem tokenize_append_line {a b : List Char} {found : List Lexeme} (ha : tokenize a = .ok found)
    (hb : b.head? ≠ some '#') :
    tokenize (a ++ '\n' :: b) =
      match tokenize b with
      | .ok more => .ok (found ++ more.map (Lexeme.shift (utf8Size a + 1)))
      | .error e => .error (e.lower (a.count '\n' + 1)) := by
  obtain ⟨front, input, rfl, hcount, hread, hjoin⟩ := tokenize_front a
  rw [hread] at ha
  have hbytes : utf8Size front + utf8Size input + 1 = 0 + (utf8Size (front ++ input) + 1) := by
    rw [utf8Size_append, Nat.zero_add]
  have hlines : 1 + input.count '\n' + 1 = 1 + ((front ++ input).count '\n' + 1) := by
    rw [List.count_append, hcount, Nat.zero_add, Nat.add_assoc]
  rw [hjoin, scan_append ha fun x _ => x.token.apart_line b, scan_blank rfl, if_pos rfl, hbytes,
    hlines, scan_moved, tokenize, if_neg hb]
  cases scan 0 1 b <;> rfl

/-- In front of the line break stands a comment that would go on over a bracket behind it. -/
theorem open_comment_joined :
    tokenize "#!lua\nx=1--[=".toList =
        .ok [⟨.name ['x'], 6⟩, ⟨.symbol .assign, 7⟩, ⟨.number ['1'], 8⟩,
          ⟨.comment "--[=".toList, 9⟩] ∧
      tokenize "#!lua\nx=1--[=\n[[\n]]".toList =
        .ok [⟨.name ['x'], 6⟩, ⟨.symbol .assign, 7⟩, ⟨.number ['1'], 8⟩,
          ⟨.comment "--[=".toList, 9⟩, ⟨.string "[[\n]]".toList, 14⟩] ∧
      tokenize "#!lua\nx=1--[=\n-1\n'".toList = .error ⟨.unfinished .shortString, 4⟩ := by
  have ha : tokenize "#!lua\nx=1--[=".toList =
      .ok [⟨.name ['x'], 6⟩, ⟨.symbol .assign, 7⟩, ⟨.number ['1'], 8⟩,
        ⟨.comment "--[=".toList, 9⟩] := by cbv
  refine ⟨ha, ?_, ?_⟩
  · have hjoined := tokenize_append_line (b := "[[\n]]".toList) ha (by decide)
    have hb : tokenize "[[\n]]".toList = .ok [⟨.string "[[\n]]".toList, 0⟩] := by cbv
    rw [hb] at hjoined
    exact hjoined
  · have hjoined := tokenize_append_line (b := "-1\n'".toList) ha (by decide)
    have hb : tokenize "-1\n'".toList = .error ⟨.unfinished .shortString, 2⟩ := by cbv
    rw [hb] at hjoined
    exact hjoined

end LuaBundle.Lua
