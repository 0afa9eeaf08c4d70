import LuaBundle.Lua.Printer
import LuaBundle.Proofs.Lua.Replacing
import LuaBundle.Proofs.Lua.Spelling
import Mathlib

/-!
# Packed chunks are read back

A space stands where two spellings would be read differently without it, so the lexer finds the
tokens that were printed, with the new names in the place of the old ones.
-/
namespace LuaBundle.Lua

namespace Token

/-- Neighbours whose spellings run into each other although no space is put between them: a point
before a numeral, and a numeral whose end goes on with a word or a sign. -/
def merges : Token → Token → Bool
  | symbol .dot, number text => text.head?.any Char.isDigit
  | number text, u =>
    !text.getLast?.any isWordChar && u.text.head?.any isWordChar ||
      endsInExponent text && (u == symbol .plus || u == symbol .minus)
  | _, _ => false

/-- The token with a new name; only names have one. -/
def respell : Token → Option (List Char) → Token
  | name _, some text => name text
  | t, _ => t

variable {t u : Token} {c : Char} {r s rest : List Char}

/-! ### What a token begins with -/

theorem Lexed.exists_cons (h : t.Lexed) : ∃ c r, t.text = c :: r := by
  obtain ⟨c, r, rest, h⟩ := h
  exact List.exists_cons_of_ne_nil (nextToken_spec h).1

theorem Lexed.nextToken_head (h : t.Lexed) (htext : t.text = c :: r) :
    ∃ s rest, nextToken c s = .ok (t, rest) := by
  obtain ⟨d, s, rest, hread⟩ := h
  have hinput := (nextToken_spec hread).2
  rw [htext, List.cons_append] at hinput
  obtain rfl := (List.cons.inj hinput).1
  exact ⟨s, rest, hread⟩

theorem Lexed.eq_hash (h : t.Lexed) (htext : t.text = '#' :: r) : t = symbol .hash := by
  obtain ⟨s, rest, h⟩ := h.nextToken_head htext
  simp [nextToken, longLevel?, isNameStart, Symbol.leading?, Symbol.all, Symbol.text,
    List.isPrefixOf] at h
  exact h.1.symm

theorem Lexed.eq_plus (h : t.Lexed) (htext : t.text = '+' :: r) : t = symbol .plus := by
  obtain ⟨s, rest, h⟩ := h.nextToken_head htext
  simp [nextToken, longLevel?, isNameStart, Symbol.leading?, Symbol.all, Symbol.text,
    List.isPrefixOf] at h
  exact h.1.symm

theorem Lexed.eq_minus (h : t.Lexed) (hcomment : t.isComment = false) (htext : t.text = '-' :: r) :
    t = symbol .minus := by
  obtain ⟨s, rest, h⟩ := h.nextToken_head htext
  simp [nextToken, longLevel?, isNameStart, Symbol.leading?, Symbol.all, Symbol.text,
    List.isPrefixOf] at h
  split at h
  · split at h <;> cases h
    cases hcomment
  · cases h
    rfl

theorem Lexed.eq_number (h : t.Lexed) (hc : c.isDigit = true) (htext : t.text = c :: r) :
    t = number (c :: r) := by
  obtain ⟨s, rest, h⟩ := h.nextToken_head htext
  rw [nextToken_numeral (.inl hc)] at h
  cases h
  rw [← htext]
  rfl

theorem looksNumeric_of_isDigit (hc : c.isDigit = true) : looksNumeric (c :: r) = true := by
  unfold looksNumeric
  split
  · rename_i heq
    obtain ⟨rfl, -⟩ := List.cons.inj heq
    cases hc
  · rename_i heq
    obtain ⟨rfl, -⟩ := List.cons.inj heq
    exact hc
  · rename_i heq
    cases heq

/-- A numeral begins with a digit, or with a point and a digit. -/
theorem Lexed.looksNumeric (h : (number s).Lexed) : looksNumeric s = true := by
  obtain ⟨c, r, rest, h⟩ := h
  cases lexes_of_nextToken h with
  | numeral hnumeral hbody =>
    obtain rfl := congrArg Prod.fst hbody
    rcases hnumeral with hc | ⟨rfl, hr⟩
    · exact looksNumeric_of_isDigit hc
    · cases r with
      | nil => cases hr
      | cons d r =>
        obtain ⟨rest, hrest⟩ := List.head?_eq_some_iff.mp (head?_numeralRest (r := r) hr)
        rw [hrest]
        exact hr
  | word _ ht _ =>
    unfold ofWord at ht
    split at ht <;> cases ht

/-- A name is a word. -/
theorem Lexed.word (h : (name s).Lexed) :
    ∃ c r, s = c :: r ∧ isNameStart c = true ∧ ∀ d ∈ r, isWordChar d = true := by
  obtain ⟨c, r, rest, h⟩ := h
  cases lexes_of_nextToken h with
  | word hname ht _ =>
    have htext := ofWord_text (c :: r.takeWhile isWordChar)
    rw [ht] at htext
    refine ⟨c, r.takeWhile isWordChar, htext, hname, fun d hd => ?_⟩
    exact List.all_eq_true.mp List.all_takeWhile d hd

/-! ### What stands behind a token -/

theorem Stops.of_head? (h : t.Stops s) (hhead : rest.head? = s.head?) : t.Stops rest := by
  cases t with
  | comment _ => exact h
  | string _ => trivial
  | _ => simpa only [Stops, NumeralStops, Symbol.Stops, hhead] using h

theorem stops_nil (hcomment : t.isComment = false) : t.Stops [] := by
  cases t with
  | comment _ => cases hcomment
  | string _ => trivial
  | _ => exact nofun

theorem stops_blank (hcomment : t.isComment = false) (hc : isBlank c = true) :
    t.Stops (c :: rest) := by
  have hblank : isWordChar c = false ∧ c ≠ '.' ∧ c ≠ '+' ∧ c ≠ '-' ∧ c.isDigit = false ∧
      ∀ l, fuses l c = false := by
    rcases eq_of_isBlank hc with rfl | rfl | rfl | rfl | rfl | rfl <;>
      exact ⟨by decide, by decide, by decide, by decide, by decide, fun _ => rfl⟩
  obtain ⟨hword, hdot, hplus, hminus, hdigit, hfuses⟩ := hblank
  cases t with
  | comment _ => cases hcomment
  | string _ => trivial
  | name _ | keyword _ =>
    intro d hd
    obtain rfl := Option.mem_some.mp hd
    exact hword
  | number _ =>
    intro d hd
    obtain rfl := Option.mem_some.mp hd
    exact ⟨hword, hdot, fun _ => ⟨hplus, hminus⟩⟩
  | symbol _ =>
    intro d hd
    obtain rfl := Option.mem_some.mp hd
    exact ⟨fun l _ => hfuses l, fun _ => hdigit⟩

theorem not_needsSpace {a b : List Char} {l d : Char} (hl : a.getLast? = some l)
    (hd : b.head? = some d) (h : needsSpace a b = false) :
    (isWordChar l && isWordChar d) = false ∧ (d == '.' && Lua.looksNumeric a) = false ∧
      fuses l d = false := by
  simpa only [needsSpace, hl, hd, Bool.or_eq_false_iff, and_assoc] using h

theorem isWordChar_getLast? {l : Char} (h : (name s).Lexed) (hl : s.getLast? = some l) :
    isWordChar l = true := by
  obtain ⟨c, r, rfl, hc, hr⟩ := h.word
  rcases List.mem_cons.mp (List.mem_of_getLast? hl) with rfl | hmem
  · exact isWordChar_of_isNameStart hc
  · exact hr l hmem

theorem isWordChar_keyword (k : Keyword) : ∀ l ∈ k.text.getLast?, isWordChar l = true := by
  have hall : k.text.getLast?.all isWordChar = true := by cases k <;> rfl
  intro l hl
  rwa [Option.mem_def.mp hl] at hall

/-- Where no space is needed, the next token does not go on with this one. -/
theorem Lexed.stops (ht : t.Lexed) (hu : u.Lexed) (htc : t.isComment = false)
    (huc : u.isComment = false) (hmerges : t.merges u = false)
    (hspace : needsSpace t.text u.text = false) : t.Stops u.text := by
  obtain ⟨a, b, htext⟩ := ht.exists_cons
  obtain ⟨l, hl⟩ : ∃ l, t.text.getLast? = some l := by
    rw [htext, List.getLast?_cons]
    exact ⟨_, rfl⟩
  obtain ⟨d, r, hutext⟩ := hu.exists_cons
  have hd : u.text.head? = some d := by rw [hutext]; rfl
  obtain ⟨hword, hdot, hfuses⟩ := not_needsSpace hl hd hspace
  cases t with
  | comment _ => cases htc
  | string _ => trivial
  | name n =>
    intro e he
    obtain rfl := Option.mem_unique he hd
    simpa [isWordChar_getLast? ht hl] using hword
  | keyword k =>
    intro e he
    obtain rfl := Option.mem_unique he hd
    simpa [isWordChar_keyword k l hl] using hword
  | number n =>
    intro e he
    obtain rfl := Option.mem_unique he hd
    change n.getLast? = some l at hl
    have hno : (!isWordChar l && isWordChar e) = false ∧
        (endsInExponent n && (u == symbol .plus || u == symbol .minus)) = false := by
      simpa [merges, hl, hd] using hmerges
    refine ⟨?_, ?_, fun hexp => ⟨?_, ?_⟩⟩
    · cases hlast : isWordChar l with
      | true => simpa [hlast] using hword
      | false => simpa [hlast] using hno.1
    · rintro rfl
      rw [show Lua.looksNumeric (number n).text = true from ht.looksNumeric] at hdot
      cases hdot
    · rintro rfl
      rw [hu.eq_plus hutext, hexp] at hno
      cases hno.2
    · rintro rfl
      rw [hu.eq_minus huc hutext, hexp] at hno
      cases hno.2
  | symbol mark =>
    intro e he
    obtain rfl := Option.mem_unique he hd
    refine ⟨fun l' hl' => ?_, ?_⟩
    · obtain rfl := Option.mem_unique hl' hl
      exact hfuses
    · rintro rfl
      cases hdigit : e.isDigit with
      | false => rfl
      | true =>
        rw [hu.eq_number hdigit hutext] at hmerges
        simp [merges, hdigit] at hmerges

/-! ### New names -/

variable {r' : Option (List Char)}

theorem respell_name (n : List Char) (r' : Option (List Char)) :
    (name n).respell r' = name (r'.getD n) := by
  cases r' <;> rfl

theorem respell_text (h : Replaces t r') : (t.respell r').text = r'.getD t.text := by
  cases r' with
  | none => cases t <;> rfl
  | some text =>
    obtain ⟨n, letter, number, rfl, -, -⟩ := h text rfl
    rfl

theorem respell_isComment (t : Token) (r' : Option (List Char)) :
    (t.respell r').isComment = t.isComment := by
  cases t <;> cases r' <;> rfl

theorem respell_eq_symbol {mark : Symbol} : t.respell r' = symbol mark ↔ t = symbol mark := by
  cases t <;> cases r' <;> simp [respell]

theorem isWordChar_of_mem_digits {d : Char} {number : Nat} (h : d ∈ Nat.toDigits 10 number) :
    isWordChar d = true :=
  isWordChar_of_isDigit (Nat.isDigit_of_mem_toDigits (by decide) (by decide) h)

/-- A tag is a word, and no keyword. -/
theorem lexed_tag {letter : Char} {n : List Char} {number : Nat} (hn : (name n).Lexed)
    (hletter : letter = 'L' ∨ letter = 'G') : (name (tag letter number n)).Lexed := by
  obtain ⟨c, r, rfl, hc, hr⟩ := hn.word
  have hstart : isNameStart letter = true := by
    rcases hletter with rfl | rfl <;> decide
  have hword : ∀ d ∈ '_' :: Nat.toDigits 10 number ++ '_' :: c :: r, isWordChar d = true := by
    intro d hd
    simp only [List.mem_append, List.mem_cons] at hd
    rcases hd with (rfl | hd) | rfl | rfl | hd
    · decide
    · exact isWordChar_of_mem_digits hd
    · decide
    · exact isWordChar_of_isNameStart hc
    · exact hr d hd
  have hname : ofWord (tag letter number (c :: r)) = name (tag letter number (c :: r)) := by
    have hkeyword : Keyword.ofText? (tag letter number (c :: r)) = none := by
      rcases hletter with rfl | rfl <;>
        simp [Keyword.ofText?, Keyword.all, Keyword.text, tag]
    rw [ofWord, hkeyword]
  have hread := @nextToken_word _ _ [] hstart hword nofun
  exact ⟨_, _, _, hread.trans (congrArg (fun u => Except.ok (u, _)) hname)⟩

theorem Lexed.respell (ht : t.Lexed) (h : Replaces t r') : (t.respell r').Lexed := by
  cases r' with
  | none => cases t <;> exact ht
  | some text =>
    obtain ⟨n, letter, number, rfl, hletter, rfl⟩ := h text rfl
    exact lexed_tag ht hletter

theorem merges_respell {r₁ r₂ : Option (List Char)} (hu : u.Lexed) (h : Replaces u r₂) :
    (t.respell r₁).merges (u.respell r₂) = t.merges u := by
  have hright : ∀ t : Token, t.merges (u.respell r₂) = t.merges u := by
    intro t
    cases r₂ with
    | none => cases u <;> rfl
    | some text =>
      obtain ⟨n, letter, number, rfl, hletter, rfl⟩ := h text rfl
      obtain ⟨c, r, rfl, hc, -⟩ := hu.word
      have hstart : isWordChar letter = true := by
        rcases hletter with rfl | rfl <;> decide
      have hsign : ∀ n mark, (name n == symbol mark) = false :=
        fun n mark => beq_eq_false_iff_ne.mpr nofun
      cases t with
      | number text =>
        simp [Token.respell, merges, Token.text, tag, hstart, isWordChar_of_isNameStart hc, hsign]
      | symbol mark => cases mark <;> rfl
      | _ => rfl
  rw [hright]
  cases t <;> cases r₁ <;> rfl

end Token

/-! ### Reading a packed line -/

theorem scan_blank {offset line : Nat} {c : Char} (hc : isBlank c = true) (r : List Char) :
    scan offset line (c :: r) = scan (offset + 1) (if c = '\n' then line + 1 else line) r := by
  rw [scan, if_pos hc]

theorem scan_fault {offset line : Nat} {c : Char} {r : List Char} {fault : LexFault}
    (hc : isBlank c = false) (hread : nextToken c r = .error fault) :
    scan offset line (c :: r) = .error ⟨fault, line⟩ := by
  rw [scan, if_neg (by simp [hc])]
  split
  · rename_i hfault
    rw [hread] at hfault
    cases hfault
    rfl
  · rename_i hok
    rw [hread] at hok
    cases hok

theorem scan_token {offset line : Nat} {c : Char} {r rest : List Char} {t : Token}
    (hc : isBlank c = false) (hread : nextToken c r = .ok (t, rest)) :
    scan offset line (c :: r) =
      (scan (offset + utf8Size t.text) (line + t.text.count '\n') rest).map (⟨t, offset⟩ :: ·) := by
  rw [scan, if_neg (by simp [hc])]
  split
  · rename_i hfault
    rw [hread] at hfault
    cases hfault
  · rename_i hok
    rw [hread] at hok
    cases hok
    split
    · rename_i hrest
      rw [hrest]
      rfl
    · rename_i hrest
      rw [hrest]
      rfl

/-- From every offset and line on, the lexer reads these tokens. -/
def Scans (input : List Char) (tokens : List Token) : Prop :=
  ∀ offset line, (scan offset line input).map (·.map Lexeme.token) = .ok tokens

namespace Scans

variable {c : Char} {r rest : List Char} {t : Token} {tokens : List Token}

theorem nil : Scans [] [] := by
  intro offset line
  rw [scan]
  rfl

theorem blank (hc : isBlank c = true) (h : Scans r tokens) : Scans (c :: r) tokens := by
  intro offset line
  rw [scan_blank hc]
  exact h _ _

theorem token (hc : isBlank c = false) (hread : nextToken c r = .ok (t, rest))
    (h : Scans rest tokens) : Scans (c :: r) (t :: tokens) := by
  intro offset line
  have hrest := h (offset + utf8Size t.text) (line + t.text.count '\n')
  rw [scan_token hc hread]
  cases hscan : scan (offset + utf8Size t.text) (line + t.text.count '\n') rest with
  | error e =>
    rw [hscan] at hrest
    cases hrest
  | ok found =>
    rw [hscan] at hrest
    cases hrest
    rfl

/-- A token in front of what is read already, when that does not go on with it. -/
theorem text_append (ht : t.Lexed) (hstops : t.Stops rest) (h : Scans rest tokens) :
    Scans (t.text ++ rest) (t :: tokens) := by
  obtain ⟨c, r, htext, hblank, hread⟩ := ht.nextToken_text hstops
  rw [htext]
  exact token hblank hread h

end Scans

theorem packed_head? {a : List Char} {texts : List (List Char)} (ha : a ≠ []) :
    (packed (a :: texts)).head? = a.head? := by
  cases texts with
  | nil => rfl
  | cons b texts => rw [packed, List.append_assoc, List.head?_append_of_ne_nil _ ha]

/-- Tokens that do not merge are read back from their packed spellings. -/
theorem scans_packed {tokens : List Token} (hlexed : ∀ t ∈ tokens, t.Lexed)
    (hcomment : ∀ t ∈ tokens, t.isComment = false)
    (hapart : tokens.IsChain fun t u => t.merges u = false) :
    Scans (packed (tokens.map Token.text)) tokens := by
  induction tokens with
  | nil => exact .nil
  | cons t tokens ih =>
    have ht := hlexed t (by simp)
    have htc := hcomment t (by simp)
    cases tokens with
    | nil =>
      have hread := Scans.text_append ht (t.stops_nil htc) .nil
      rwa [List.append_nil] at hread
    | cons u tokens =>
      have hu := hlexed u (by simp)
      have huc := hcomment u (by simp)
      have hrest := ih (fun t ht => hlexed t (by simp [ht])) (fun t ht => hcomment t (by simp [ht]))
        (List.isChain_cons_cons.mp hapart).2
      rw [List.map_cons, List.map_cons, packed, List.append_assoc]
      refine Scans.text_append ht ?_ ?_
      · cases hspace : needsSpace t.text u.text with
        | true => exact t.stops_blank htc rfl
        | false =>
          obtain ⟨c, r, hutext⟩ := hu.exists_cons
          have hmerges := (List.isChain_cons_cons.mp hapart).1
          refine (ht.stops hu htc huc hmerges hspace).of_head? ?_
          exact packed_head? (by simp [hutext])
      · cases needsSpace t.text u.text with
        | true => exact .blank rfl hrest
        | false => exact hrest

theorem lexed_of_scan {offset line : Nat} {input : List Char} {found : List Lexeme}
    (h : scan offset line input = .ok found) : ∀ x ∈ found, x.token.Lexed := by
  fun_induction scan offset line input generalizing found with
  | case1 => cases h; nofun
  | case2 offset line c r _ ih => exact ih h
  | case3 => cases h
  | case4 offset line c r _ t rest hread more hscan ih =>
    cases h
    intro x hx
    rcases List.mem_cons.mp hx with rfl | hx
    · exact ⟨c, r, rest, hread⟩
    · exact ih hscan x hx
  | case5 => cases h

theorem lexed_of_tokenize {source : List Char} {found : List Lexeme}
    (h : tokenize source = .ok found) : ∀ x ∈ found, x.token.Lexed := by
  unfold tokenize at h
  split at h <;> exact lexed_of_scan h

theorem lexed_of_codeTokens {source : List Char} {tokens : List Token}
    (h : codeTokens source = .ok tokens) :
    (∀ t ∈ tokens, t.Lexed) ∧ ∀ t ∈ tokens, t.isComment = false := by
  obtain ⟨found, hfound, rfl⟩ : ∃ found, tokenize source = .ok found ∧
      (found.map Lexeme.token).filter (!·.isComment) = tokens := by
    cases hsource : tokenize source with
    | error e =>
      rw [codeTokens, hsource] at h
      cases h
    | ok found =>
      rw [codeTokens, hsource] at h
      exact ⟨found, rfl, Except.ok.inj h⟩
  constructor
  · intro t ht
    obtain ⟨x, hx, rfl⟩ := List.mem_map.mp (List.mem_filter.mp ht).1
    exact lexed_of_tokenize hfound x hx
  · intro t ht
    simpa using (List.mem_filter.mp ht).2

/-! ### Minified chunks -/

section Minified

variable {tokens : List Token} {renamed : List (Option (List Char))}

theorem pieces_text (h : List.Forall₂ Replaces tokens renamed) :
    (pieces tokens renamed).map Piece.text = (List.zipWith Token.respell tokens renamed).map Token.text := by
  induction h with
  | nil => rfl
  | cons hr _ ih =>
    rw [pieces] at ih
    rw [pieces, List.zipWith_cons_cons, List.zipWith_cons_cons, List.map_cons, List.map_cons, ih,
      Token.respell_text hr]

theorem lexed_respelled (h : List.Forall₂ Replaces tokens renamed) (hlexed : ∀ t ∈ tokens, t.Lexed)
    (hcomment : ∀ t ∈ tokens, t.isComment = false) :
    (∀ t ∈ List.zipWith Token.respell tokens renamed, t.Lexed) ∧
      ∀ t ∈ List.zipWith Token.respell tokens renamed, t.isComment = false := by
  induction h with
  | nil => exact ⟨nofun, nofun⟩
  | cons hr _ ih =>
    simp only [List.forall_mem_cons] at hlexed hcomment
    obtain ⟨hlexed', hcomment'⟩ := ih hlexed.2 hcomment.2
    simp only [List.zipWith_cons_cons, List.forall_mem_cons, Token.respell_isComment]
    exact ⟨⟨hlexed.1.respell hr, hlexed'⟩, hcomment.1, hcomment'⟩

theorem isChain_respelled (h : List.Forall₂ Replaces tokens renamed) (hlexed : ∀ t ∈ tokens, t.Lexed)
    (hapart : tokens.IsChain fun t u => t.merges u = false) :
    (List.zipWith Token.respell tokens renamed).IsChain fun t u => t.merges u = false := by
  induction h with
  | nil => exact .nil
  | cons hr hrest ih =>
    simp only [List.forall_mem_cons] at hlexed
    cases hrest with
    | nil => exact .singleton _
    | cons hr' hrest =>
      obtain ⟨hmerges, hapart⟩ := List.isChain_cons_cons.mp hapart
      simp only [List.zipWith_cons_cons, List.isChain_cons_cons]
      have hu := hlexed.2 _ (List.mem_cons_self ..)
      exact ⟨(Token.merges_respell hu hr').trans hmerges, ih hlexed.2 hapart⟩

/-- A packed line that does not begin with the length operator has no shebang. -/
theorem not_hash_of_packed (hlexed : ∀ t ∈ tokens, t.Lexed)
    (hhash : tokens.head? ≠ some (.symbol .hash)) :
    (packed (tokens.map Token.text)).head? ≠ some '#' := by
  cases tokens with
  | nil => nofun
  | cons t tokens =>
    have ht := hlexed t (List.mem_cons_self ..)
    obtain ⟨c, r, htext⟩ := ht.exists_cons
    rw [List.map_cons, packed_head? (by simp [htext]), htext, List.head?_cons]
    intro hc
    obtain rfl := Option.some.inj hc
    exact hhash (congrArg some (ht.eq_hash htext))

end Minified

/-- A minified chunk has the tokens of its source, with the planned names in place of the names they
replace. -/
theorem minify_tokens {options : RenameOptions} {source out : List Char} {tokens : List Token}
    (htokens : codeTokens source = .ok tokens) (hout : minify options source = .ok out)
    (hhash : tokens.head? ≠ some (.symbol .hash))
    (hapart : tokens.IsChain fun t u => t.merges u = false) :
    ∃ renamed, plan options tokens = .ok renamed ∧ renamed.length = tokens.length ∧
      (tokenize out).map (·.map Lexeme.token) = .ok (List.zipWith Token.respell tokens renamed) := by
  rw [minify, prepare, htokens] at hout
  simp only at hout
  cases hplan : plan options tokens with
  | error fault =>
    rw [hplan] at hout
    cases hout
  | ok renamed =>
    rw [hplan] at hout
    cases hout
    have hreplaces := replaces_plan hplan
    obtain ⟨hlexed, hcomment⟩ := lexed_of_codeTokens htokens
    obtain ⟨hlexed', hcomment'⟩ := lexed_respelled hreplaces hlexed hcomment
    refine ⟨renamed, rfl, hreplaces.length_eq.symm, ?_⟩
    have hhash' : (List.zipWith Token.respell tokens renamed).head? ≠ some (.symbol .hash) := by
      cases hreplaces with
      | nil => nofun
      | cons =>
        intro hhead
        exact hhash (congrArg some (Token.respell_eq_symbol.mp (Option.some.inj hhead)))
    simp only
    rw [tokenize, pieces_text hreplaces, if_neg (not_hash_of_packed hlexed' hhash')]
    exact scans_packed hlexed' hcomment' (isChain_respelled hreplaces hlexed hapart) 0 1

/-- A comment goes, a name gets its tag, and every other token is read back. -/
theorem comment_left_out :
    ∃ renamed, plan ⟨true, false⟩ [.keyword .localKw, .name ['a'], .symbol .assign, .number ['1'],
        .keyword .returnKw, .name ['a'], .symbol .concat, .number ['5']] = .ok renamed ∧
      renamed.length = 8 ∧
      (tokenize "local L_1_a=1 return L_1_a..5".toList).map (·.map Lexeme.token) =
        .ok (List.zipWith Token.respell [.keyword .localKw, .name ['a'], .symbol .assign,
          .number ['1'], .keyword .returnKw, .name ['a'], .symbol .concat, .number ['5']] renamed) :=
  @minify_tokens _ "local a = 1 -- one\nreturn a .. 5".toList _ _ (by cbv) (by cbv) (by decide)
    (by decide)

end LuaBundle.Lua
