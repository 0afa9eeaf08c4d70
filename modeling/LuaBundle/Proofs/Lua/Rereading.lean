import LuaBundle.Proofs.Lua.Spelling

/-!
# Other words behind a token

A token is read again when other words stand in the place of those behind it. No token but a word
looks for a letter, and behind a word none follows.
-/
namespace LuaBundle.Lua

/-- Two texts that agree, up to a place where both go on with a word if there is one. -/
inductive AlikeText : List Char → List Char → Prop
  | refl (r : List Char) : AlikeText r r
  | word {c d : Char} {r r' : List Char} (hc : isNameStart c = true) (hd : isNameStart d = true) :
      AlikeText (c :: r) (d :: r')
  | cons (c : Char) {r r' : List Char} (h : AlikeText r r') : AlikeText (c :: r) (c :: r')

namespace AlikeText

variable {r r' : List Char} {p : Char → Bool}

theorem append_left (a : List Char) (h : AlikeText r r') : AlikeText (a ++ r) (a ++ r') := by
  induction a with
  | nil => exact h
  | cons c a ih => exact .cons c ih

/-- A test that does not tell letters apart does not tell the texts apart. -/
theorem head?_any {b : Bool} (hp : ∀ d, isNameStart d = true → p d = b) (h : AlikeText r r') :
    r.head?.any p = r'.head?.any p := by
  cases h with
  | refl => rfl
  | word hc hd => simp [hp _ hc, hp _ hd]
  | cons => rfl

theorem head?_iff {d : Char} (hd : isNameStart d = false) (h : AlikeText r r') :
    r.head? = some d ↔ r'.head? = some d := by
  have hother : ∀ e, isNameStart e = true → (e == d) = false := by
    rintro e he
    refine beq_eq_false_iff_ne.mpr ?_
    rintro rfl
    rw [he] at hd
    cases hd
  have hany : ∀ s : List Char, s.head?.any (· == d) = true ↔ s.head? = some d := by
    intro s
    cases s <;> simp
  rw [← hany r, ← hany r', h.head?_any hother]

/-- Texts that begin with no word begin with the same character. -/
theorem cases_head (h : AlikeText r r') (hr : ∀ d ∈ r.head?, isNameStart d = false) :
    r = [] ∧ r' = [] ∨ ∃ d s s', r = d :: s ∧ r' = d :: s' ∧ AlikeText s s' := by
  cases h with
  | refl =>
    cases r with
    | nil => exact .inl ⟨rfl, rfl⟩
    | cons d s => exact .inr ⟨d, s, s, rfl, rfl, .refl s⟩
  | word hc _ =>
    rw [hr _ rfl] at hc
    cases hc
  | cons d h => exact .inr ⟨d, _, _, rfl, rfl, h⟩

theorem run (hp : ∀ d, isNameStart d = true → p d = false) (h : AlikeText r r') :
    r.takeWhile p = r'.takeWhile p ∧ AlikeText (r.dropWhile p) (r'.dropWhile p) := by
  induction h with
  | refl => exact ⟨rfl, .refl _⟩
  | word hc hd => simpa [hp _ hc, hp _ hd] using AlikeText.word hc hd
  | cons c h ih =>
    cases hc : p c with
    | true => simpa [hc] using ih
    | false => simpa [hc] using AlikeText.cons c h

end AlikeText

/-! ### Long brackets and comments -/

theorem longLevel?_bracket (r : List Char) :
    longLevel? ('[' :: r) = if (r.dropWhile (· == '=')).head? = some '[' then
      some (r.takeWhile (· == '=')).length else none := by
  rw [longLevel?]
  split
  · rename_i heq
    rw [heq]
    rfl
  · rename_i hne
    refine (if_neg fun hhead => ?_).symm
    obtain ⟨s, hs⟩ := List.head?_eq_some_iff.mp hhead
    exact hne s hs

theorem AlikeText.longLevel? {r r' : List Char} (h : AlikeText r r') :
    longLevel? r = Lua.longLevel? r' := by
  cases h with
  | refl => rfl
  | word hc hd =>
    rw [longLevel?_of_ne (by rintro rfl; cases hc), longLevel?_of_ne (by rintro rfl; cases hd)]
  | @cons c r r' h =>
    by_cases hc : c = '['
    · subst hc
      have hequals : ∀ d, isNameStart d = true → (d == '=') = false := by
        intro d hd
        refine beq_eq_false_iff_ne.mpr ?_
        rintro rfl
        cases hd
      obtain ⟨htake, hdrop⟩ := h.run hequals
      rw [longLevel?_bracket, longLevel?_bracket, htake]
      exact if_congr (hdrop.head?_iff (by decide)) rfl rfl
    · rw [longLevel?_of_ne hc, longLevel?_of_ne hc]

theorem eq_of_head?_dropWhile_line {text : List Char} {d : Char}
    (h : (text.dropWhile (· != '\n')).head? = some d) : d = '\n' := by
  have hhead := List.head?_dropWhile_not (· != '\n') text
  simpa [h] using hhead

/-- A line stays the same line when what follows its end is replaced. -/
theorem line_alike {input b' : List Char} (h : AlikeText (input.dropWhile (· != '\n')) b') :
    (input.takeWhile (· != '\n') ++ b').takeWhile (· != '\n') = input.takeWhile (· != '\n') ∧
      (input.takeWhile (· != '\n') ++ b').dropWhile (· != '\n') = b' := by
  have hline : ∀ d ∈ input.takeWhile (· != '\n'), (d != '\n') = true := fun d hd =>
    List.all_eq_true.mp List.all_takeWhile d hd
  have hend : b'.takeWhile (· != '\n') = [] ∧ b'.dropWhile (· != '\n') = b' := by
    cases hdrop : input.dropWhile (· != '\n') with
    | nil =>
      rw [hdrop] at h
      cases h
      exact ⟨rfl, rfl⟩
    | cons d s =>
      have hd : d = '\n' := eq_of_head?_dropWhile_line (by rw [hdrop]; rfl)
      rw [hdrop, hd] at h
      obtain ⟨s', rfl⟩ := List.head?_eq_some_iff.mp ((h.head?_iff (by decide)).mp rfl)
      exact ⟨rfl, rfl⟩
  rw [List.takeWhile_append_of_pos hline, List.dropWhile_append_of_pos hline, hend.1, hend.2,
    List.append_nil]
  exact ⟨rfl, rfl⟩

theorem commentRest_alike {input a b b' : List Char} (hread : commentRest input = .ok (a, b))
    (h : AlikeText b b') : commentRest (a ++ b') = .ok (a, b') := by
  unfold commentRest at hread
  split at hread
  · rename_i level hlevel
    split at hread
    · rename_i split hsplit
      cases hread
      obtain ⟨hlevel', hread'⟩ := longBracket?_swap hlevel hsplit b'
      rw [commentRest, hlevel']
      simp only
      rw [hread']
    · cases hread
  · rename_i hlevel
    cases hread
    obtain ⟨hline, hrest⟩ := line_alike h
    have hnone : longLevel? (input.takeWhile (· != '\n') ++ b') = none := by
      rw [← (h.append_left _).longLevel?, List.takeWhile_append_dropWhile, hlevel]
    rw [commentRest, hnone]
    simp only
    rw [hline, hrest]

/-! ### Numerals -/

section Numerals

variable {isExponent : Char → Bool} {input a b b' : List Char}

/-- No word follows a numeral. -/
theorem not_isWordChar_of_numeralRun (hread : numeralRun isExponent input = (a, b)) :
    ∀ d ∈ b.head?, isWordChar d = false := by
  fun_induction numeralRun isExponent input generalizing a with
  | case1 => cases hread; simp
  | case2 => cases hread; simp
  | case3 c hc =>
    cases hread
    simpa using (show isWordChar c = false ∧ c ≠ '.' by simpa using hc).1
  | case4 c d r _ ih => exact ih (Prod.ext rfl (Prod.mk.inj hread).2)
  | case5 c d r _ _ ih => exact ih (Prod.ext rfl (Prod.mk.inj hread).2)
  | case6 c d r _ hstop =>
    cases hread
    intro e he
    cases he
    cases hword : isWordChar c with
    | false => rfl
    | true =>
      have hdot : c ≠ '.' := by
        rintro rfl
        cases hword
      simp [hword, hdot] at hstop

theorem not_isNameStart_of_not_isWordChar {c : Char} (h : isWordChar c = false) :
    isNameStart c = false := by
  cases hc : isNameStart c with
  | false => rfl
  | true => rw [isWordChar_of_isNameStart hc] at h; cases h

/-- A run that stops before two characters stops before the same first one. -/
theorem numeralRun_stop_alike {c d : Char} {r s : List Char}
    (hletter : ∀ c, isExponent c = true → isWordChar c = true)
    (hgo : ¬ ((isWordChar c || c == '.') && !(c == '.' && d == '.')) = true)
    (h : AlikeText (d :: r) s) : numeralRun isExponent (c :: s) = ([], c :: s) := by
  by_cases hdots : c = '.' ∧ d = '.'
  · obtain ⟨rfl, rfl⟩ := hdots
    obtain ⟨s', rfl⟩ := List.head?_eq_some_iff.mp ((h.head?_iff (by decide)).mp rfl)
    have hexp : isExponent '.' = false := by
      by_contra hne
      exact absurd (hletter '.' (by simpa using hne)) (by decide)
    simp [numeralRun, hexp]
  · have hword : isWordChar c = false ∧ c ≠ '.' := by simpa [hdots] using hgo
    have hexp : isExponent c = false := by
      by_contra hne
      rw [hletter c (by simpa using hne)] at hword
      cases hword.1
    cases s with
    | nil => simp [numeralRun, hword]
    | cons e s => simp [numeralRun, hword, hexp]

theorem numeralRun_alike (hletter : ∀ c, isExponent c = true → isWordChar c = true)
    (hread : numeralRun isExponent input = (a, b)) (h : AlikeText b b') :
    numeralRun isExponent (a ++ b') = (a, b') := by
  have hhead := h.cases_head fun d hd =>
    not_isNameStart_of_not_isWordChar (not_isWordChar_of_numeralRun hread d hd)
  fun_induction numeralRun isExponent input generalizing a with
  | case1 =>
    cases hread
    cases h
    rfl
  | case2 c hc =>
    cases hread
    cases h
    exact if_pos hc
  | case3 c hc =>
    cases hread
    obtain ⟨⟨⟩, -⟩ | ⟨d, s, s', ⟨⟩, rfl, hnil⟩ := hhead
    cases hnil
    exact if_neg hc
  | case4 c d r hsign ih =>
    obtain ⟨rfl, rfl⟩ := Prod.mk.inj hread
    show numeralRun isExponent (c :: d :: ((numeralRun isExponent r).1 ++ b')) = _
    rw [numeralRun, if_pos hsign, ih rfl]
    rfl
  | case5 c d r hsign hgo ih =>
    obtain ⟨rfl, rfl⟩ := Prod.mk.inj hread
    have hrest := ih rfl
    have happend := numeralRun_append isExponent (d :: r)
    -- the next character is `d` as before, whether the run goes on with it or not
    have hnext : ∃ s, (numeralRun isExponent (d :: r)).1 ++ b' = d :: s := by
      cases hrun : (numeralRun isExponent (d :: r)).1 with
      | nil =>
        rw [hrun, List.nil_append] at happend
        obtain ⟨hnil, -⟩ | ⟨e, s, s', hb, rfl, -⟩ := hhead
        · rw [happend] at hnil
          cases hnil
        · rw [happend] at hb
          exact ⟨s', congrArg (· :: s') (List.cons.inj hb).1.symm⟩
      | cons e a =>
        rw [hrun, List.cons_append] at happend
        exact ⟨a ++ b', congrArg (· :: (a ++ b')) (List.cons.inj happend).1⟩
    obtain ⟨s, hs⟩ := hnext
    show numeralRun isExponent (c :: ((numeralRun isExponent (d :: r)).1 ++ b')) = _
    rw [hs] at hrest ⊢
    rw [numeralRun, if_neg hsign, if_pos hgo, hrest]
    rfl
  | case6 c d r hsign hstop =>
    cases hread
    obtain ⟨⟨⟩, -⟩ | ⟨e, s, s', ⟨⟩, rfl, hrest⟩ := hhead
    exact numeralRun_stop_alike hletter hstop hrest

theorem not_isWordChar_of_numeralRest {c : Char} (hread : numeralRest c input = (a, b)) :
    ∀ d ∈ b.head?, isWordChar d = false := by
  unfold numeralRest at hread
  split at hread
  · cases hread
    simp
  · split at hread
    · exact not_isWordChar_of_numeralRun (Prod.ext rfl (Prod.mk.inj hread).2)
    · exact not_isWordChar_of_numeralRun hread

theorem numeralRest_alike {c : Char} (hread : numeralRest c input = (a, b)) (h : AlikeText b b') :
    numeralRest c (a ++ b') = (a, b') := by
  cases input with
  | nil =>
    cases hread
    cases h
    rfl
  | cons d r =>
    by_cases hhex : c = '0' ∧ (d = 'x' ∨ d = 'X')
    · rw [numeralRest, if_pos hhex] at hread
      obtain ⟨rfl, rfl⟩ := Prod.mk.inj hread
      show numeralRest c (d :: ((numeralRun isHexExponent r).1 ++ b')) = _
      rw [numeralRest, if_pos hhex, numeralRun_alike (fun _ => isWordChar_of_hex) rfl h]
      rfl
    · rw [numeralRest, if_neg hhex] at hread
      have hrun := numeralRun_alike (fun _ => isWordChar_of_decimal) hread h
      have hstop := not_isWordChar_of_numeralRun hread
      have happend := numeralRun_append isDecimalExponent (d :: r)
      rw [hread] at happend
      cases a with
      | nil =>
        obtain ⟨-, rfl⟩ | ⟨e, s, s', rfl, rfl, -⟩ :=
          h.cases_head fun e he => not_isNameStart_of_not_isWordChar (hstop e he)
        · rfl
        · have hx : ¬ (c = '0' ∧ (e = 'x' ∨ e = 'X')) := by
            have hword := hstop e rfl
            rintro ⟨-, rfl | rfl⟩ <;> cases hword
          rw [List.nil_append] at hrun ⊢
          rw [numeralRest, if_neg hx, hrun]
      | cons e a =>
        obtain rfl : e = d := (List.cons.inj happend).1
        rw [List.cons_append] at hrun ⊢
        rw [numeralRest, if_neg hhex, hrun]

end Numerals

/-! ### Symbols -/

namespace Symbol

theorem not_isNameStart_of_mem_text {s : Symbol} {c : Char} (h : c ∈ s.text) :
    isNameStart c = false := by
  have hall : s.text.all (!isNameStart ·) = true := by cases s <;> rfl
  simpa using List.all_eq_true.mp hall c h

end Symbol

theorem AlikeText.isPrefixOf {mark r r' : List Char} (hmark : ∀ c ∈ mark, isNameStart c = false)
    (h : AlikeText r r') : mark.isPrefixOf r = mark.isPrefixOf r' := by
  induction mark generalizing r r' with
  | nil => simp
  | cons d mark ih =>
    obtain ⟨hd, hmark⟩ := List.forall_mem_cons.mp hmark
    cases h with
    | refl => rfl
    | @word c e r r' hc he =>
      have hne : ∀ e, isNameStart e = true → (d == e) = false := by
        rintro e he
        refine beq_eq_false_iff_ne.mpr ?_
        rintro rfl
        rw [he] at hd
        cases hd
      simp [List.isPrefixOf, hne _ hc, hne _ he]
    | cons c h => simp [List.isPrefixOf, ih hmark h]

theorem AlikeText.leading? {r r' : List Char} (h : AlikeText r r') :
    Symbol.leading? r = Symbol.leading? r' := by
  have hprefix : (fun s : Symbol => s.text.isPrefixOf r) = fun s => s.text.isPrefixOf r' :=
    funext fun s => h.isPrefixOf fun c => Symbol.not_isNameStart_of_mem_text
  rw [Symbol.leading?, Symbol.leading?, hprefix]

/-! ### Tokens -/

theorem not_isWordChar_behind (r : List Char) :
    (r.dropWhile isWordChar).head?.any isWordChar = false := by
  have hhead := List.head?_dropWhile_not isWordChar r
  cases hfirst : (r.dropWhile isWordChar).head? with
  | none => rfl
  | some e => simpa [hfirst] using hhead

/-- Behind `c :: s` no scanner of the token tells the second rest from the first. -/
structure Token.SameBehind (t : Token) (c : Char) (s rest rest' : List Char) : Prop where
  dash : (s ++ rest).head? = some '-' ↔ (s ++ rest').head? = some '-'
  level : longLevel? (c :: (s ++ rest)) = longLevel? (c :: (s ++ rest'))
  digit : (s ++ rest).head?.any Char.isDigit = (s ++ rest').head?.any Char.isDigit
  word : rest.head?.any isWordChar = rest'.head?.any isWordChar
  leading : Symbol.leading? (c :: (s ++ rest)) = Symbol.leading? (c :: (s ++ rest'))
  numeral : numeralRest c (s ++ rest) = (s, rest) → numeralRest c (s ++ rest') = (s, rest')
  comment : t.isComment = true → ∀ body, s = '-' :: body →
    commentRest (body ++ rest) = .ok (body, rest) → commentRest (body ++ rest') = .ok (body, rest')

/-- A token is read again before a rest that its scanners do not tell from the old one. -/
theorem nextToken_again {c : Char} {s rest rest' : List Char} {t : Token}
    (hread : nextToken c (s ++ rest) = .ok (t, rest)) (htext : t.text = c :: s)
    (h : t.SameBehind c s rest rest') : nextToken c (s ++ rest') = .ok (t, rest') := by
  have hlexes := lexes_of_nextToken hread
  generalize hinput : s ++ rest = input at hlexes
  cases hlexes with
  | @comment s' body _ hc hr hbody =>
    obtain ⟨rfl, rfl⟩ : '-' = c ∧ '-' :: body = s := List.cons.inj htext
    obtain rfl : body ++ rest = s' := (List.cons.inj (hinput.trans hr)).2
    rw [nextToken, if_pos ⟨rfl, rfl⟩, List.cons_append, List.tail_cons, h.comment rfl _ rfl hbody]
  | long hlevel hbody =>
    obtain ⟨hlevel', hread'⟩ := longBracket?_swap hlevel hbody rest'
    obtain rfl := htext
    exact nextToken_long hlevel' hread'
  | quote hquote hbody =>
    have hslash : c ≠ '\\' := by
      rcases hquote with rfl | rfl <;> decide
    obtain rfl := (List.cons.inj htext).2
    exact nextToken_quote hquote (shortRest?_swap hslash hbody rest')
  | numeral hnumeral hbody =>
    obtain rfl := (List.cons.inj htext).2
    rw [← hinput, h.digit] at hnumeral
    rw [← hinput] at hbody
    rw [nextToken_numeral hnumeral, h.numeral hbody]
  | word hname ht hrest =>
    rw [← hinput] at ht hrest
    have hrun : (s ++ rest).takeWhile isWordChar = s := by
      rw [← ht, ofWord_text] at htext
      exact (List.cons.inj htext).2
    have hword : ∀ e ∈ s, isWordChar e = true := by
      rw [← hrun]
      exact fun e he => List.all_eq_true.mp List.all_takeWhile e he
    have hstop : rest'.head?.any isWordChar = false := by
      rw [← h.word, ← hrest]
      exact not_isWordChar_behind _
    rw [nextToken_word hname hword fun e he => by simpa [Option.mem_def.mp he] using hstop, ← ht,
      hrun]
  | @symbol mark _ hplain hmark hrest =>
    rw [← hinput] at hplain hmark
    have hplain' : Symbol.Plain c (s ++ rest') := by
      constructor
      case noComment =>
        rw [← h.dash]
        exact hplain.noComment
      case noLevel =>
        rw [← h.level]
        exact hplain.noLevel
      case noQuote => exact hplain.noQuote
      case noNumeral =>
        rw [← h.digit]
        exact hplain.noNumeral
      case noName => exact hplain.noName
    have hdrop : (c :: (s ++ rest')).drop mark.text.length = rest' := by
      rw [show mark.text = c :: s from htext, ← List.cons_append, List.drop_left]
    rw [hplain'.nextToken (h.leading.symm.trans hmark), hdrop]

/-- A token is read again before a text that is like the one it was read before. -/
theorem nextToken_alike {c : Char} {r rest rest' : List Char} {t : Token}
    (hread : nextToken c r = .ok (t, rest)) (h : AlikeText rest rest') :
    ∃ s, t.text = c :: s ∧ nextToken c (s ++ rest') = .ok (t, rest') := by
  obtain ⟨hne, happend⟩ := nextToken_spec hread
  obtain ⟨d, s, htext⟩ := List.exists_cons_of_ne_nil hne
  rw [htext, List.cons_append] at happend
  obtain ⟨rfl, rfl⟩ := List.cons.inj happend
  have halike := h.append_left s
  refine ⟨s, htext, nextToken_again hread htext ?_⟩
  constructor
  case dash => exact halike.head?_iff (by decide)
  case level => exact (halike.cons d).longLevel?
  case digit => exact halike.head?_any fun e he => not_isDigit_of_isNameStart he
  case word => exact h.head?_any fun e he => isWordChar_of_isNameStart he
  case leading => exact (halike.cons d).leading?
  case numeral => exact fun hsplit => numeralRest_alike hsplit h
  case comment => exact fun _ body _ hsplit => commentRest_alike hsplit h

/-- No word character follows a name. -/
theorem not_isWordChar_of_name {c : Char} {r rest n : List Char}
    (hread : nextToken c r = .ok (.name n, rest)) : rest.head?.any isWordChar = false := by
  cases lexes_of_nextToken hread with
  | word _ _ hrest =>
    rw [← hrest]
    exact not_isWordChar_behind r

end LuaBundle.Lua
