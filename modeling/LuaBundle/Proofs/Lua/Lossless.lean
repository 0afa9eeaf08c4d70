import LuaBundle.Proofs.Lua.Breaks

/-!
# Nothing is lost in lexing

The lexemes of a text lie in it one after the other, and between them are only blanks. A token does
not depend on what stands behind it: its text on its own is that token again.
-/
namespace LuaBundle.Lua

/-- The number of bytes up to the end of the token. -/
def Lexeme.stop (x : Lexeme) : Nat := x.offset + utf8Size x.token.text

/-- The lexemes lie in the text in order, with blanks between them; it begins at byte `offset`. -/
inductive Tiling : Nat → List Char → List Lexeme → Prop
  | nil (offset : Nat) : Tiling offset [] []
  | blank {offset : Nat} {c : Char} {r : List Char} {found : List Lexeme} (hc : isBlank c = true)
      (h : Tiling (offset + 1) r found) : Tiling offset (c :: r) found
  | token {offset : Nat} {t : Token} {rest : List Char} {found : List Lexeme} (ht : t.text ≠ [])
      (h : Tiling (offset + utf8Size t.text) rest found) :
      Tiling offset (t.text ++ rest) (⟨t, offset⟩ :: found)

namespace Tiling

variable {offset line : Nat} {input : List Char} {found : List Lexeme}

theorem of_scan (h : scan offset line input = .ok found) : Tiling offset input found := by
  fun_induction scan offset line input generalizing found with
  | case1 =>
    cases h
    exact .nil _
  | case2 offset line c r hc ih => exact .blank hc (ih h)
  | case3 => cases h
  | case4 offset line c r hc t rest hread more hscan ih =>
    cases h
    obtain ⟨hne, happend⟩ := nextToken_spec hread
    rw [← happend]
    exact .token hne (ih hscan)
  | case5 => cases h

theorem le_offset (h : Tiling offset input found) : ∀ x ∈ found, offset ≤ x.offset := by
  induction h with
  | nil => nofun
  | blank _ _ ih =>
    intro x hx
    have hle := ih x hx
    omega
  | token _ _ ih =>
    intro x hx
    rcases List.mem_cons.mp hx with rfl | hx
    · exact Nat.le_refl _
    · have hle := ih x hx
      omega

theorem stop_le (h : Tiling offset input found) :
    found.Pairwise fun x y => x.stop ≤ y.offset := by
  induction h with
  | nil => exact .nil
  | blank _ _ ih => exact ih
  | token _ h ih => exact .cons h.le_offset ih

theorem slice (h : Tiling offset input found) : ∀ x ∈ found, x.token.text ≠ [] ∧
    ∃ before rest, input = before ++ x.token.text ++ rest ∧
      offset + utf8Size before = x.offset := by
  induction h with
  | nil => nofun
  | @blank offset c r found hc _ ih =>
    intro x hx
    obtain ⟨hne, before, rest, rfl, hoffset⟩ := ih x hx
    refine ⟨hne, c :: before, rest, rfl, ?_⟩
    rw [utf8Size_cons, utf8Size_of_isBlank hc]
    omega
  | @token offset t rest found ht _ ih =>
    intro x hx
    rcases List.mem_cons.mp hx with rfl | hx
    · exact ⟨ht, [], rest, rfl, rfl⟩
    · obtain ⟨hne, before, after, rfl, hoffset⟩ := ih x hx
      refine ⟨hne, t.text ++ before, after, by simp, ?_⟩
      rw [utf8Size_append]
      omega

/-- A byte between the tokens is a blank. -/
theorem blank_outside (h : Tiling offset input found) {i : Nat} (hle : offset ≤ i)
    (hlt : i < offset + utf8Size input) (hout : ∀ x ∈ found, i < x.offset ∨ x.stop ≤ i) :
    ∃ before c rest, input = before ++ c :: rest ∧ offset + utf8Size before = i ∧
      isBlank c = true := by
  induction h with
  | nil =>
    rw [utf8Size_nil] at hlt
    omega
  | @blank offset c r found hc _ ih =>
    rw [utf8Size_cons, utf8Size_of_isBlank hc] at hlt
    by_cases hi : i = offset
    · exact ⟨[], c, r, rfl, hi.symm, hc⟩
    · obtain ⟨before, d, rest, rfl, hoffset, hd⟩ := ih (by omega) (by omega) hout
      refine ⟨c :: before, d, rest, rfl, ?_, hd⟩
      rw [utf8Size_cons, utf8Size_of_isBlank hc]
      omega
  | @token offset t rest found _ _ ih =>
    obtain ⟨hfirst, hmore⟩ := List.forall_mem_cons.mp hout
    rw [utf8Size_append] at hlt
    have hstop : offset + utf8Size t.text ≤ i := by
      rcases hfirst with hbefore | hbehind
      · exact absurd hle (Nat.not_le.mpr hbefore)
      · exact hbehind
    obtain ⟨before, d, after, rfl, hoffset, hd⟩ := ih hstop (by omega) hmore
    refine ⟨t.text ++ before, d, after, by simp, ?_, hd⟩
    rw [utf8Size_append]
    omega

end Tiling

/-! ### Tokens on their own -/

theorem commentRest_alone {r a b : List Char} (h : commentRest r = .ok (a, b)) :
    commentRest a = .ok (a, []) := by
  unfold commentRest at h
  split at h
  · rename_i level hlevel
    split at h
    · rename_i split hsplit
      cases h
      obtain ⟨hlevel', hread⟩ := longBracket?_swap hlevel hsplit []
      rw [List.append_nil] at hlevel' hread
      rw [commentRest, hlevel']
      simp only
      rw [hread]
    · cases h
  · rename_i hlevel
    cases h
    have hline : ∀ d ∈ r.takeWhile (· != '\n'), (d != '\n') = true := fun d hd =>
      List.all_eq_true.mp List.all_takeWhile d hd
    rw [commentRest, longLevel?_comment hlevel]
    simp only
    rw [List.takeWhile_eq_self_iff.mpr hline, List.dropWhile_eq_nil_iff.mpr hline]

namespace Token

variable {t : Token}

/-- The text of a token, with nothing behind it, is that token. -/
theorem Lexed.nextToken_alone (h : t.Lexed) :
    ∃ c r, t.text = c :: r ∧ isBlank c = false ∧ nextToken c r = .ok (t, []) := by
  cases hcomment : t.isComment with
  | false =>
    obtain ⟨c, r, htext, hc, hread⟩ := h.nextToken_text (t.stops_nil hcomment)
    rw [List.append_nil] at hread
    exact ⟨c, r, htext, hc, hread⟩
  | true =>
    obtain ⟨c, r, rest, hread⟩ := h
    obtain ⟨s, body, -, -, rfl, hsplit⟩ := exists_of_comment hread hcomment
    exact ⟨'-', '-' :: body, rfl, rfl, nextToken_dashes (commentRest_alone hsplit)⟩

theorem Lexed.tokenize_text (h : t.Lexed) (hhash : t ≠ symbol .hash) :
    tokenize t.text = .ok [⟨t, 0⟩] := by
  obtain ⟨c, r, htext, hc, hread⟩ := h.nextToken_alone
  have hhead : t.text.head? ≠ some '#' := by
    intro hhead
    obtain ⟨s, hs⟩ := List.head?_eq_some_iff.mp hhead
    exact hhash (h.eq_hash hs)
  rw [tokenize, if_neg hhead, htext, scan_token hc hread, scan]
  rfl

end Token

/-! ### Whole texts -/

/-- What the lexemes of a text say about it. -/
structure Lossless (source : List Char) (found : List Lexeme) : Prop where
  increasing : found.Pairwise fun x y => x.offset < y.offset
  apart : found.Pairwise fun x y => x.stop ≤ y.offset
  slice : ∀ x ∈ found, x.token.text ≠ [] ∧
    ∃ before rest, source = before ++ x.token.text ++ rest ∧ utf8Size before = x.offset
  /-- A byte that belongs to no token is a blank, or part of a first line that is no code. -/
  outside : ∀ i < utf8Size source, (∀ x ∈ found, i < x.offset ∨ x.stop ≤ i) →
    (∃ before c rest, source = before ++ c :: rest ∧ utf8Size before = i ∧ isBlank c = true) ∨
      source.head? = some '#' ∧ i < utf8Size (source.takeWhile (· != '\n'))
  reread : ∀ x ∈ found, x.token ≠ .symbol .hash → tokenize x.token.text = .ok [⟨x.token, 0⟩]

section Sources

variable {source : List Char} {found : List Lexeme}

/-- The lexemes of a text lie behind its first line if that is no code. -/
theorem tiling_of_tokenize (h : tokenize source = .ok found) :
    ∃ line input, source = line ++ input ∧ Tiling (utf8Size line) input found ∧
      (line = [] ∨ source.head? = some '#' ∧ line = source.takeWhile (· != '\n')) := by
  unfold tokenize at h
  split at h
  · rename_i hhash
    exact ⟨_, _, List.takeWhile_append_dropWhile.symm, .of_scan h, .inr ⟨hhash, rfl⟩⟩
  · exact ⟨[], source, rfl, .of_scan h, .inl rfl⟩

theorem tokenize_lossless (h : tokenize source = .ok found) : Lossless source found := by
  obtain ⟨line, input, hsource, htiling, hline⟩ := tiling_of_tokenize h
  constructor
  case increasing =>
    refine htiling.stop_le.imp_of_mem ?_
    intro x y hx _ hle
    obtain ⟨c, r, htext⟩ := List.exists_cons_of_ne_nil (htiling.slice x hx).1
    have hpos := c.utf8Size_pos
    rw [Lexeme.stop, htext, utf8Size_cons] at hle
    omega
  case apart => exact htiling.stop_le
  case slice =>
    intro x hx
    obtain ⟨hne, before, rest, rfl, hoffset⟩ := htiling.slice x hx
    refine ⟨hne, line ++ before, rest, ?_, ?_⟩
    · rw [hsource, List.append_assoc, List.append_assoc, List.append_assoc]
    · rw [utf8Size_append, hoffset]
  case outside =>
    intro i hi hout
    by_cases hfirst : i < utf8Size line
    · rcases hline with rfl | ⟨hhash, rfl⟩
      · exact absurd hfirst (Nat.not_lt_zero i)
      · exact .inr ⟨hhash, hfirst⟩
    · left
      rw [hsource, utf8Size_append] at hi
      obtain ⟨before, c, rest, rfl, hoffset, hc⟩ :=
        htiling.blank_outside (Nat.not_lt.mp hfirst) hi hout
      refine ⟨line ++ before, c, rest, ?_, ?_, hc⟩
      · rw [hsource, List.append_assoc]
      · rw [utf8Size_append, hoffset]
  case reread =>
    intro x hx hhash
    exact (lexed_of_tokenize h x hx).tokenize_text hhash

/-- A first line that is no code, an escaped quote behind a letter of two bytes, and a comment. -/
theorem escaped_lossless :
    tokenize "#!lua\nx='é\\'' --[[a]]#y".toList =
        .ok [⟨.name ['x'], 6⟩, ⟨.symbol .assign, 7⟩, ⟨.string "'é\\''".toList, 8⟩,
          ⟨.comment "--[[a]]".toList, 15⟩, ⟨.symbol .hash, 22⟩, ⟨.name ['y'], 23⟩] ∧
      Lossless "#!lua\nx='é\\'' --[[a]]#y".toList
        [⟨.name ['x'], 6⟩, ⟨.symbol .assign, 7⟩, ⟨.string "'é\\''".toList, 8⟩,
          ⟨.comment "--[[a]]".toList, 15⟩, ⟨.symbol .hash, 22⟩, ⟨.name ['y'], 23⟩] :=
  ⟨by cbv, tokenize_lossless (by cbv)⟩

end Sources

end LuaBundle.Lua
