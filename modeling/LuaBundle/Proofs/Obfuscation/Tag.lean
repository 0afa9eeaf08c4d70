import LuaBundle.Obfuscation.Tag
import LuaBundle.Proofs.Lua.Minified
import LuaBundle.Proofs.Lua.Rereading

/-!
# Tags among the tokens and in the text

A name token that is a tag is found in the text as well: the lexer never begins a name directly
behind a word character.
-/
namespace LuaBundle.Obfuscation

open Lua

/-- A letter, a line, digits, and another line. -/
theorem beginsTag_iff {text : List Char} :
    beginsTag text = true ↔ ∃ letter digits rest, text = letter :: '_' :: (digits ++ '_' :: rest) ∧
      (letter = 'L' ∨ letter = 'G') ∧ digits ≠ [] ∧ ∀ d ∈ digits, Text.isDecimalDigit d = true := by
  constructor
  · intro h
    unfold beginsTag at h
    split at h
    · rename_i letter r
      simp only [Bool.and_eq_true, Bool.or_eq_true, Bool.not_eq_true', beq_iff_eq,
        List.isEmpty_eq_false_iff] at h
      obtain ⟨⟨hletter, hdigits⟩, hline⟩ := h
      obtain ⟨rest, hrest⟩ := List.head?_eq_some_iff.mp hline
      refine ⟨letter, r.takeWhile Text.isDecimalDigit, rest, ?_, hletter, hdigits, fun d hd => ?_⟩
      · rw [← hrest, List.takeWhile_append_dropWhile]
      · exact List.all_eq_true.mp List.all_takeWhile d hd
    · cases h
  · rintro ⟨letter, digits, rest, rfl, hletter, hne, hdigits⟩
    have hstop : Text.isDecimalDigit '_' = false := by decide
    rw [beginsTag, List.takeWhile_append_of_pos hdigits, List.dropWhile_append_of_pos hdigits]
    simp [hletter, hne, hstop]

theorem beginsTag_append {name : List Char} (h : beginsTag name = true) (rest : List Char) :
    beginsTag (name ++ rest) = true := by
  obtain ⟨letter, digits, behind, rfl, hletter, hdigits⟩ := beginsTag_iff.mp h
  exact beginsTag_iff.mpr ⟨letter, digits, behind ++ rest, by simp, hletter, hdigits⟩

theorem isWord_of_isWordChar {c : Char} (h : isWordChar c = true) : Text.isWord c = true := by
  have hascii : c.toNat < 0x80 := Nat.lt_of_le_of_lt (bounds_of_isWordChar h).2 (by decide)
  rw [Text.isWord, if_pos hascii]
  exact h

theorem isDecimalDigit_of_isDigit {c : Char} (h : c.isDigit = true) :
    Text.isDecimalDigit c = true := by
  have hbounds := bounds_of_isWordChar (isWordChar_of_isDigit h)
  rw [Text.isDecimalDigit, if_pos (Nat.lt_of_le_of_lt hbounds.2 (by decide))]
  exact h

/-- The tag of a name is a tag. -/
theorem isTag_tag {letter : Char} {number : Nat} {n : List Char}
    (hletter : letter = 'L' ∨ letter = 'G') (hn : (Token.name n).Lexed) :
    isTag (tag letter number n) = true := by
  have hbegins : beginsTag (tag letter number n) = true := by
    refine beginsTag_iff.mpr ⟨letter, Nat.toDigits 10 number, n, rfl, hletter, ?_, fun d hd => ?_⟩
    · exact Nat.toDigits_ne_nil
    · exact isDecimalDigit_of_isDigit (Nat.isDigit_of_mem_toDigits (by decide) (by decide) hd)
  have hword : (tag letter number n).all Text.isWord = true := by
    obtain ⟨c, r, htext, hc, hr⟩ := (@Token.lexed_tag letter n number hn hletter).word
    rw [htext, List.all_cons, isWord_of_isWordChar (isWordChar_of_isNameStart hc), Bool.true_and]
    exact List.all_eq_true.mpr fun d hd => isWord_of_isWordChar (hr d hd)
  rw [isTag, hbegins, hword]
  rfl

theorem hasTagsFrom_append {a : List Char} {inWord : Bool} {rest : List Char}
    (h : hasTagsFrom (a.getLast?.elim inWord Text.isWord) rest = true) :
    hasTagsFrom inWord (a ++ rest) = true := by
  induction a generalizing inWord with
  | nil => exact h
  | cons c a ih =>
    have hlast : hasTagsFrom (a.getLast?.elim (Text.isWord c) Text.isWord) rest = true := by
      rw [List.getLast?_cons] at h
      cases hlast : a.getLast? <;> simpa [hlast] using h
    rw [List.cons_append, hasTagsFrom, ih hlast, Bool.or_true]

/-! ### Where a name begins -/

/-- Behind a comment up to the end of its line stands no name. -/
theorem getLast?_commentRest {input a b : List Char} {d : Char}
    (h : commentRest input = .ok (a, b)) (hd : b.head? = some d) (hname : isNameStart d = true) :
    a.getLast? = some ']' := by
  unfold commentRest at h
  split at h
  · split at h
    · rename_i hsplit
      cases h
      exact getLast?_longBracket? hsplit
    · cases h
  · cases h
    obtain rfl := eq_of_head?_dropWhile_line hd
    cases hname

/-- A name directly behind a token is behind no word character. -/
theorem not_isWord_of_nextToken {c d : Char} {r rest : List Char} {t : Token}
    (hread : nextToken c r = .ok (t, rest)) (hd : rest.head? = some d)
    (hname : isNameStart d = true) : ∀ l ∈ t.text.getLast?, Text.isWord l = false := by
  have hword := isWordChar_of_isNameStart hname
  intro l hl
  cases lexes_of_nextToken hread with
  | @comment _ body _ _ _ hbody =>
    have hl' : (Token.comment ('-' :: '-' :: body)).text.getLast? = some ']' := by
      simp [Token.text, List.getLast?_cons, getLast?_commentRest hbody hd hname]
    obtain rfl := Option.some.inj (hl.symm.trans hl')
    decide
  | long _ hbody =>
    obtain rfl := Option.some.inj (hl.symm.trans (getLast?_longBracket? hbody))
    decide
  | @quote body _ hquote hbody =>
    have hl' : (Token.string (c :: body)).text.getLast? = some c := by
      simp [Token.text, List.getLast?_cons, getLast?_shortRest? hbody]
    obtain rfl := Option.some.inj (hl.symm.trans hl')
    rcases hquote with rfl | rfl <;> decide
  | numeral _ hbody =>
    rw [not_isWordChar_of_numeralRest hbody d hd] at hword
    cases hword
  | word _ _ hrest =>
    have hstop := not_isWordChar_behind r
    rw [hrest, hd, Option.any_some, hword] at hstop
    cases hstop
  | @symbol mark _ _ _ _ =>
    have hall : mark.text.getLast?.all (!Text.isWord ·) = true := by cases mark <;> rfl
    rw [show mark.text.getLast? = some l from hl] at hall
    simpa using hall

theorem not_isWord_of_isBlank {c : Char} (h : isBlank c = true) : Text.isWord c = false := by
  rcases eq_of_isBlank h with rfl | rfl | rfl | rfl | rfl | rfl <;> decide

/-- A name among the tokens that is a tag is a tag in the text, unless the text goes on with a word
from what is before it. -/
theorem hasTagsFrom_of_scan {offset line : Nat} {text : List Char} {found : List Lexeme} {x : Lexeme}
    {n : List Char} (h : scan offset line text = .ok found) (hx : x ∈ found)
    (hn : x.token = .name n) (ht : isTag n = true) {inWord : Bool}
    (hb : inWord = true → text.head?.any isNameStart = false) : hasTagsFrom inWord text = true := by
  fun_induction scan offset line text generalizing found inWord with
  | case1 => cases h; cases hx
  | case2 offset line c r hc ih =>
    rw [hasTagsFrom, not_isWord_of_isBlank hc, ih h hx (by simp), Bool.or_true]
  | case3 => cases h
  | case4 offset line c r _ t rest hread more hscan ih =>
    cases h
    have happend := (nextToken_spec hread).2
    rcases List.mem_cons.mp hx with rfl | hx
    · obtain rfl : t = .name n := hn
      obtain ⟨d, s, rfl, hd, -⟩ := (show (Token.name n).Lexed from ⟨c, r, rest, hread⟩).word
      obtain rfl : d = c := (List.cons.inj happend).1
      have hbegins : beginsTag (d :: r) = true := by
        rw [← happend]
        exact beginsTag_append (Bool.and_eq_true_iff.mp ht).1 rest
      cases inWord with
      | false => simp [hasTagsFrom, hbegins]
      | true =>
        have hfalse := hb rfl
        simp [hd] at hfalse
    · rw [← happend]
      refine hasTagsFrom_append (ih hscan hx fun hlast => ?_)
      obtain ⟨l, hl⟩ : ∃ l, t.text.getLast? = some l :=
        Option.isSome_iff_exists.mp (by simpa using (nextToken_spec hread).1)
      rw [hl, Option.elim_some] at hlast
      cases hd : rest.head? with
      | none => rfl
      | some d =>
        by_contra hname
        rw [not_isWord_of_nextToken hread hd (by simpa using hname) l hl] at hlast
        cases hlast
  | case5 => cases h

theorem hasTags_of_tokenize {text : List Char} {found : List Lexeme} {x : Lexeme} {n : List Char}
    (h : tokenize text = .ok found) (hx : x ∈ found) (hn : x.token = .name n) (ht : isTag n = true) :
    hasTags text = true := by
  unfold tokenize at h
  split at h
  · rename_i hhash
    rw [← text.takeWhile_append_dropWhile (p := (· != '\n'))]
    refine hasTagsFrom_append (hasTagsFrom_of_scan h hx hn ht fun _ => ?_)
    cases hd : (text.dropWhile (· != '\n')).head? with
    | none => rfl
    | some d =>
      rw [eq_of_head?_dropWhile_line hd]
      rfl
  · exact hasTagsFrom_of_scan h hx hn ht nofun

end LuaBundle.Obfuscation
