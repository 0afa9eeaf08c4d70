import LuaBundle.Proofs.Lua.Minified
import LuaBundle.Proofs.Lua.Rereading

/-!
# Reading on behind a break

No token goes on with a blank or a quote that stands behind it, a comment up to the end of its line
excepted, so a text that ends there is read the same whatever follows. Texts that are joined at a
break are read one after the other.
-/
namespace LuaBundle.Lua

/-- A blank or a quote: no name, numeral or symbol holds one. -/
def isBreak (c : Char) : Bool := isBlank c || c == '"'

theorem eq_of_isBreak {c : Char} (h : isBreak c = true) :
    c = ' ' ∨ c = '\t' ∨ c = '\r' ∨ c = '\n' ∨ c = '\x0b' ∨ c = '\x0c' ∨ c = '"' := by
  simpa [isBreak, isBlank, or_assoc] using h

theorem not_isBreak_of_isWordChar {c : Char} (h : isWordChar c = true) : isBreak c = false := by
  by_contra hbreak
  rcases eq_of_isBreak (by simpa using hbreak) with rfl | rfl | rfl | rfl | rfl | rfl | rfl <;>
    cases h

/-- The text is empty or begins with a break. -/
def Breaks (e : List Char) : Prop := ∀ d ∈ e.head?, isBreak d = true

/-- The text may follow the token: a comment ends only at the end of a line. -/
structure Token.Apart (t : Token) (e : List Char) : Prop where
  breaks : Breaks e
  line : t.isComment = true → ∀ d ∈ e.head?, d = '\n'

namespace Token

variable {t : Token} {e : List Char}

theorem apart_nil (t : Token) : t.Apart [] where
  breaks := nofun
  line := nofun

theorem apart_line (t : Token) (e : List Char) : t.Apart ('\n' :: e) := by
  constructor
  · intro d hd
    rw [← Option.mem_some.mp hd]
    rfl
  · intro _ d hd
    exact (Option.mem_some.mp hd).symm

theorem apart_of_breaks (ht : t.isComment = false) (he : Breaks e) : t.Apart e := by
  constructor
  · exact he
  · intro hcomment
    rw [ht] at hcomment
    cases hcomment

end Token

/-! ### Scanners in front of a break -/

section Scanners

variable {x y e e' : List Char} {p : Char → Bool} {isExponent : Char → Bool}

theorem Breaks.not_mem (he : Breaks e) {c : Char} (hc : isBreak c = false) : c ∉ e.head? := by
  intro hhead
  rw [he c hhead] at hc
  cases hc

theorem Breaks.head? (he : Breaks e) (hp : ∀ d, p d = true → isBreak d = false) :
    ∀ d ∈ e.head?, p d = false := by
  intro d hd
  by_contra hne
  exact he.not_mem (hp d (by simpa using hne)) hd

theorem Breaks.numeralStops (he : Breaks e) (awaitsSign : Prop) : NumeralStops awaitsSign e := by
  intro d hd
  have hstops : isWordChar d = false ∧ d ≠ '.' ∧ d ≠ '+' ∧ d ≠ '-' := by
    rcases eq_of_isBreak (he d hd) with rfl | rfl | rfl | rfl | rfl | rfl | rfl <;> decide
  exact ⟨hstops.1, hstops.2.1, fun _ => hstops.2.2⟩

theorem head?_any_append (he : ∀ d ∈ e.head?, p d = false) (x : List Char) :
    (x ++ e).head?.any p = x.head?.any p := by
  cases x with
  | cons c x => rfl
  | nil =>
    cases e with
    | nil => rfl
    | cons d e => exact he d rfl

theorem head?_append_iff {c : Char} (he : Breaks e) (hc : isBreak c = false) (x : List Char) :
    (x ++ e).head? = some c ↔ x.head? = some c := by
  cases x with
  | cons d x => rfl
  | nil =>
    constructor
    · intro hhead
      exact absurd hhead (he.not_mem hc)
    · nofun

theorem run_append (he : ∀ d ∈ e.head?, p d = false) (x : List Char) :
    (x ++ e).takeWhile p = x.takeWhile p ∧ (x ++ e).dropWhile p = x.dropWhile p ++ e := by
  induction x with
  | nil =>
    cases e with
    | nil => exact ⟨rfl, rfl⟩
    | cons d e => simp [he d rfl]
  | cons c x ih =>
    by_cases hc : p c = true
    · simp [hc, ih]
    · simp [hc]

theorem longLevel?_append (he : Breaks e) (x : List Char) :
    longLevel? (x ++ e) = longLevel? x := by
  cases x with
  | nil =>
    cases e with
    | nil => rfl
    | cons d e =>
      have hd : d ≠ '[' := by
        rintro rfl
        exact he.not_mem (c := '[') rfl rfl
      exact longLevel?_of_ne hd
  | cons c x =>
    by_cases hc : c = '['
    · subst hc
      have hequals : ∀ d ∈ e.head?, (d == '=') = false := by
        apply he.head?
        intro d hd
        rw [beq_iff_eq.mp hd]
        rfl
      obtain ⟨htake, hdrop⟩ := run_append hequals x
      rw [List.cons_append, longLevel?_bracket, longLevel?_bracket, htake, hdrop]
      exact if_congr (head?_append_iff he rfl _) rfl rfl
    · rw [List.cons_append, longLevel?_of_ne hc, longLevel?_of_ne hc]

theorem numeralRun_append_break (hletter : ∀ c, isExponent c = true → isWordChar c = true)
    (he : Breaks e) (x : List Char) :
    numeralRun isExponent (x ++ e) =
      ((numeralRun isExponent x).1, (numeralRun isExponent x).2 ++ e) := by
  fun_induction numeralRun isExponent x with
  | case1 => exact numeralRun_stop hletter (he.numeralStops True)
  | case2 c hc => exact numeralRun_last hletter hc (he.numeralStops _)
  | case3 c hc =>
    have hexp : isExponent c = false := by
      by_contra hne
      have hword := hletter c (by simpa using hne)
      simp [hword] at hc
    cases e with
    | nil => exact if_neg hc
    | cons d e => simp_all [numeralRun]
  | case4 c d r hsign ih =>
    rw [List.cons_append, List.cons_append, numeralRun, if_pos hsign, ih]
    rfl
  | case5 c d r hsign hgo ih =>
    rw [List.cons_append, List.cons_append, numeralRun, if_neg hsign, if_pos hgo,
      ← List.cons_append, ih]
    rfl
  | case6 c d r hsign hgo =>
    rw [List.cons_append, List.cons_append, numeralRun, if_neg hsign, if_neg hgo]

theorem numeralRest_append_break {c : Char} (he : Breaks e) (x : List Char) :
    numeralRest c (x ++ e) = ((numeralRest c x).1, (numeralRest c x).2 ++ e) := by
  cases x with
  | nil => exact numeralRest_stop (he.numeralStops True)
  | cons d r =>
    by_cases hhex : c = '0' ∧ (d = 'x' ∨ d = 'X')
    · rw [List.cons_append, numeralRest, if_pos hhex, numeralRest, if_pos hhex,
        numeralRun_append_break (fun _ => isWordChar_of_hex) he]
      rfl
    · rw [List.cons_append, numeralRest, if_neg hhex, numeralRest, if_neg hhex, ← List.cons_append,
        numeralRun_append_break (fun _ => isWordChar_of_decimal) he]

theorem isPrefixOf_append_break {mark : List Char} (hmark : ∀ c ∈ mark, isBreak c = false)
    (he : Breaks e) (x : List Char) : mark.isPrefixOf (x ++ e) = mark.isPrefixOf x := by
  induction mark generalizing x with
  | nil => simp
  | cons d mark ih =>
    obtain ⟨hd, hmark⟩ := List.forall_mem_cons.mp hmark
    cases x with
    | cons c x => simp [List.isPrefixOf, ih hmark x]
    | nil =>
      cases e with
      | nil => rfl
      | cons c e =>
        have hne : (d == c) = false := by
          apply beq_eq_false_iff_ne.mpr
          rintro rfl
          exact he.not_mem hd rfl
        simp [List.isPrefixOf, hne]

theorem Symbol.not_isBreak_of_mem_text {s : Symbol} {c : Char} (h : c ∈ s.text) :
    isBreak c = false := by
  have hall : s.text.all (!isBreak ·) = true := by cases s <;> rfl
  simpa using List.all_eq_true.mp hall c h

theorem leading?_append (he : Breaks e) (x : List Char) :
    Symbol.leading? (x ++ e) = Symbol.leading? x := by
  have hprefix : (fun s : Symbol => s.text.isPrefixOf (x ++ e)) = fun s => s.text.isPrefixOf x :=
    funext fun s => isPrefixOf_append_break (fun c => Symbol.not_isBreak_of_mem_text) he x
  rw [Symbol.leading?, Symbol.leading?, hprefix]

theorem breaks_behind_line (s : List Char) : Breaks (s.dropWhile (· != '\n')) := by
  intro d hd
  rw [eq_of_head?_dropWhile_line hd]
  rfl

/-- Whether a comment ends with its line can be seen from the comment alone. -/
theorem longLevel?_comment {s : List Char} (h : longLevel? s = none) :
    longLevel? (s.takeWhile (· != '\n')) = none := by
  rw [← longLevel?_append (breaks_behind_line s), List.takeWhile_append_dropWhile, h]

/-- A comment ends where its line does, or at the close of its bracket. -/
theorem commentRest_append_line {a : List Char} (he : Breaks e) (he' : Breaks e')
    (hline : ∀ d ∈ e.head?, d = '\n') (hline' : ∀ d ∈ e'.head?, d = '\n')
    (hread : commentRest (a ++ (y ++ e)) = .ok (a, y ++ e)) :
    commentRest (a ++ (y ++ e')) = .ok (a, y ++ e') := by
  rw [← List.append_assoc] at hread ⊢
  unfold commentRest at hread
  rw [longLevel?_append he] at hread
  rw [commentRest, longLevel?_append he']
  cases hlevel : longLevel? (a ++ y) with
  | some level =>
    rw [hlevel] at hread
    simp only at hread ⊢
    split at hread
    · rename_i hsplit
      cases hread
      have hlevel' : longLevel? (a ++ y ++ e) = some level := by rw [longLevel?_append he, hlevel]
      rw [List.append_assoc, (longBracket?_swap hlevel' hsplit (y ++ e')).2]
    · cases hread
  | none =>
    rw [hlevel] at hread
    have hstop : ∀ d ∈ e.head?, (d != '\n') = false := fun d hd => by simp [hline d hd]
    have hstop' : ∀ d ∈ e'.head?, (d != '\n') = false := fun d hd => by simp [hline' d hd]
    obtain ⟨htake, hdrop⟩ := run_append hstop (a ++ y)
    obtain ⟨htake', hdrop'⟩ := run_append hstop' (a ++ y)
    simp only [htake, hdrop, Except.ok.injEq, Prod.mk.injEq, List.append_cancel_right_eq] at hread
    simp only [htake', hdrop', hread.1, hread.2]

end Scanners

/-! ### Tokens in front of a break -/

/-- A token is read again when the break behind it, and all that follows, is replaced by another. -/
theorem nextToken_apart {c : Char} {x y e e' : List Char} {t : Token} (he : t.Apart e)
    (he' : t.Apart e') (hread : nextToken c (x ++ e) = .ok (t, y ++ e)) :
    nextToken c (x ++ e') = .ok (t, y ++ e') := by
  obtain ⟨hne, happend⟩ := nextToken_spec hread
  obtain ⟨d, s, htext⟩ := List.exists_cons_of_ne_nil hne
  rw [htext, List.cons_append] at happend
  obtain ⟨rfl, hx⟩ := List.cons.inj happend
  rw [← List.append_assoc] at hx
  obtain rfl := List.append_cancel_right hx
  have hjoin : ∀ e, s ++ (y ++ e) = s ++ y ++ e := fun e => (List.append_assoc ..).symm
  have hcons : ∀ e, d :: (s ++ (y ++ e)) = (d :: (s ++ y)) ++ e := by simp
  rw [← hjoin] at hread ⊢
  apply nextToken_again hread htext
  constructor
  case dash =>
    rw [hjoin, hjoin, head?_append_iff he.breaks rfl, head?_append_iff he'.breaks rfl]
  case level => rw [hcons, hcons, longLevel?_append he.breaks, longLevel?_append he'.breaks]
  case digit =>
    have hdigit := fun d hd => not_isBreak_of_isWordChar (isWordChar_of_isDigit (c := d) hd)
    rw [hjoin, hjoin, head?_any_append (he.breaks.head? hdigit),
      head?_any_append (he'.breaks.head? hdigit)]
  case word =>
    rw [head?_any_append (he.breaks.head? fun d => not_isBreak_of_isWordChar),
      head?_any_append (he'.breaks.head? fun d => not_isBreak_of_isWordChar)]
  case leading => rw [hcons, hcons, leading?_append he.breaks, leading?_append he'.breaks]
  case numeral =>
    intro hsplit
    rw [hjoin, numeralRest_append_break he.breaks] at hsplit
    rw [hjoin, numeralRest_append_break he'.breaks]
    obtain ⟨hs, hrest⟩ := Prod.mk.inj hsplit
    rw [hs, List.append_cancel_right hrest]
  case comment =>
    intro hcomment body _ hsplit
    exact commentRest_append_line he.breaks he'.breaks (he.line hcomment) (he'.line hcomment) hsplit

theorem not_isBreak_of_numeralRun {isExponent : Char → Bool} {x : List Char} {d : Char}
    (hletter : ∀ c, isExponent c = true → isWordChar c = true)
    (hd : d ∈ (numeralRun isExponent x).1) : isBreak d = false := by
  have hpart : ∀ c, (isWordChar c || c == '.') = true → isBreak c = false := by
    intro c hc
    rcases Bool.or_eq_true_iff.mp hc with hword | hdot
    · exact not_isBreak_of_isWordChar hword
    · rw [beq_iff_eq.mp hdot]
      rfl
  fun_induction numeralRun isExponent x with
  | case1 => cases hd
  | case2 c hc =>
    rw [List.mem_singleton.mp hd]
    exact hpart c hc
  | case3 => cases hd
  | case4 c s r hsign ih =>
    obtain ⟨hexp, hs⟩ := Bool.and_eq_true_iff.mp hsign
    rcases List.mem_cons.mp hd with rfl | hd
    · exact not_isBreak_of_isWordChar (hletter _ hexp)
    rcases List.mem_cons.mp hd with rfl | hd
    · rcases Bool.or_eq_true_iff.mp hs with hplus | hminus
      · rw [beq_iff_eq.mp hplus]
        rfl
      · rw [beq_iff_eq.mp hminus]
        rfl
    · exact ih hd
  | case5 c s r _ hgo ih =>
    rcases List.mem_cons.mp hd with rfl | hd
    · exact hpart _ (Bool.and_eq_true_iff.mp hgo).1
    · exact ih hd
  | case6 => cases hd

theorem not_isBreak_of_numeralRest {c d : Char} {x : List Char} (hd : d ∈ (numeralRest c x).1) :
    isBreak d = false := by
  unfold numeralRest at hd
  split at hd
  · cases hd
  split at hd
  · rename_i hhex
    rcases List.mem_cons.mp hd with rfl | hd
    · rcases hhex.2 with rfl | rfl <;> rfl
    · exact not_isBreak_of_numeralRun (fun _ => isWordChar_of_hex) hd
  · exact not_isBreak_of_numeralRun (fun _ => isWordChar_of_decimal) hd

namespace Token

/-- Strings and comments: the tokens that may hold a line break. -/
def isText : Token → Bool
  | string _ | comment _ => true
  | _ => false

theorem isText_of_isComment {t : Token} (h : t.isComment = true) : t.isText = true := by
  cases t with
  | comment => rfl
  | name | keyword | number | string | symbol => cases h

theorem isText_ofWord (word : List Char) : (ofWord word).isText = false := by
  unfold ofWord
  split <;> rfl

theorem nextToken_dashes {s body rest : List Char} (h : commentRest s = .ok (body, rest)) :
    nextToken '-' ('-' :: s) = .ok (.comment ('-' :: '-' :: body), rest) := by
  rw [nextToken, if_pos ⟨rfl, rfl⟩, List.tail_cons, h]

/-- A comment is read from its two dashes and what belongs to it. -/
theorem exists_of_comment {c : Char} {r rest : List Char} {t : Token}
    (hread : nextToken c r = .ok (t, rest)) (ht : t.isComment = true) :
    ∃ s body, c = '-' ∧ r = '-' :: s ∧ t = comment ('-' :: '-' :: body) ∧
      commentRest s = .ok (body, rest) := by
  cases lexes_of_nextToken hread with
  | comment hc hr hbody => exact ⟨_, _, hc, hr, rfl, hbody⟩
  | word _ hword _ =>
    have htext := isText_of_isComment ht
    rw [← hword, isText_ofWord] at htext
    cases htext
  | long | quote | numeral | symbol => cases ht

theorem Lexed.not_mem_line {t : Token} (h : t.Lexed) (ht : t.isText = false) : '\n' ∉ t.text := by
  obtain ⟨c, r, rest, hread⟩ := h
  have hbreak : ∀ {d : Char}, isBreak d = false → '\n' ≠ d := by
    rintro d hd rfl
    cases hd
  cases lexes_of_nextToken hread with
  | comment | long | quote => cases ht
  | numeral hnumeral hbody =>
    obtain rfl := congrArg Prod.fst hbody
    intro hin
    rcases List.mem_cons.mp hin with rfl | hin
    · simp at hnumeral
    · exact hbreak (not_isBreak_of_numeralRest hin) rfl
  | word hname hword _ =>
    rw [← hword, ofWord_text]
    intro hin
    rcases List.mem_cons.mp hin with rfl | hin
    · cases hname
    · cases List.all_eq_true.mp List.all_takeWhile _ hin
  | symbol => exact fun hin => hbreak (Symbol.not_isBreak_of_mem_text hin) rfl

/-- No token ends with a line break. -/
theorem Lexed.getLast?_ne_line {t : Token} (h : t.Lexed) : t.text.getLast? ≠ some '\n' := by
  cases ht : t.isText with
  | false => exact fun hlast => h.not_mem_line ht (List.mem_of_getLast? hlast)
  | true =>
    obtain ⟨c, r, rest, hread⟩ := h
    cases lexes_of_nextToken hread with
    | @comment s _ _ _ _ hbody =>
      unfold commentRest at hbody
      split at hbody
      · split at hbody
        · rename_i hbracket
          cases hbody
          simp [Token.text, List.getLast?_cons, getLast?_longBracket? hbracket]
        · cases hbody
      · cases hbody
        have hline : '\n' ∉ s.takeWhile (· != '\n') := by
          intro hin
          simpa using List.all_eq_true.mp List.all_takeWhile _ hin
        intro hlast
        simpa [Token.text, hline] using List.mem_of_getLast? hlast
    | long _ hbody => simp [Token.text, getLast?_longBracket? hbody]
    | quote hquote hbody =>
      have hc : c ≠ '\n' := by
        rcases hquote with rfl | rfl <;> decide
      simp [Token.text, List.getLast?_cons, getLast?_shortRest? hbody, hc]
    | word _ hword _ =>
      rw [← hword, isText_ofWord] at ht
      cases ht
    | numeral | symbol => cases ht

end Token

/-! ### Texts joined at a break -/

/-- What has been read stays as it is, and the lexer goes on behind it. -/
theorem scan_append {offset line : Nat} {a b : List Char} {found : List Lexeme}
    (h : scan offset line a = .ok found) (hb : ∀ x ∈ found, x.token.Apart b) :
    scan offset line (a ++ b) =
      (scan (offset + utf8Size a) (line + a.count '\n') b).map (found ++ ·) := by
  fun_induction scan offset line a generalizing found with
  | case1 offset line =>
    cases h
    cases hscan : scan offset line b <;> simp [hscan, Except.map]
  | case2 offset line c r hc ih =>
    have hoffset : offset + utf8Size (c :: r) = offset + 1 + utf8Size r := by
      rw [utf8Size_cons, utf8Size_of_isBlank hc, Nat.add_assoc]
    have hline : line + (c :: r).count '\n' =
        (if c = '\n' then line + 1 else line) + r.count '\n' := by
      rw [List.count_cons]
      by_cases hc : c = '\n'
      · simp only [hc, beq_self_eq_true, if_true]
        omega
      · simp [hc]
    rw [List.cons_append, scan_blank hc, hoffset, hline]
    exact ih h hb
  | case3 => cases h
  | case4 offset line c r hc t rest hread more hscan ih =>
    cases h
    obtain ⟨ht, hmore⟩ := List.forall_mem_cons.mp hb
    have hread' : nextToken c (r ++ b) = .ok (t, rest ++ b) := by
      apply nextToken_apart t.apart_nil ht
      rw [List.append_nil, List.append_nil, hread]
    have hoffset : offset + utf8Size (c :: r) = offset + utf8Size t.text + utf8Size rest := by
      rw [← (nextToken_spec hread).2, utf8Size_append, Nat.add_assoc]
    have hline : line + (c :: r).count '\n' = line + t.text.count '\n' + rest.count '\n' := by
      rw [← (nextToken_spec hread).2, List.count_append, Nat.add_assoc]
    rw [List.cons_append, scan_token (by simpa using hc) hread', ih hscan hmore, hoffset, hline]
    cases scan (offset + utf8Size t.text + utf8Size rest)
      (line + t.text.count '\n' + rest.count '\n') b <;> rfl
  | case5 => cases h

/-- A line break at the end is behind every token. -/
theorem scan_trim {offset line : Nat} {a : List Char} {found : List Lexeme}
    (h : scan offset line (a ++ ['\n']) = .ok found) : scan offset line a = .ok found := by
  generalize hinput : a ++ ['\n'] = input at h
  fun_induction scan offset line input generalizing a found with
  | case1 => cases a <;> cases hinput
  | case2 offset line c r hc ih =>
    cases a with
    | nil =>
      obtain ⟨rfl, rfl⟩ := List.cons.inj hinput
      rw [scan] at h ⊢
      exact h
    | cons d a =>
      obtain ⟨rfl, hr⟩ := List.cons.inj hinput
      rw [scan_blank hc]
      exact ih hr h
  | case3 => cases h
  | case4 offset line c r hc t rest hread more hscan ih =>
    cases h
    cases a with
    | nil =>
      obtain ⟨rfl, -⟩ := List.cons.inj hinput
      exact absurd rfl hc
    | cons d a =>
      obtain ⟨rfl, hr⟩ := List.cons.inj hinput
      have hlexed : t.Lexed := ⟨_, _, _, hread⟩
      have hlast : (t.text ++ rest).getLast? = some '\n' := by
        rw [(nextToken_spec hread).2, ← hinput, List.getLast?_append]
        rfl
      obtain ⟨b, rfl⟩ : ∃ b, rest = b ++ ['\n'] := by
        rcases List.eq_nil_or_concat rest with rfl | ⟨b, e, rfl⟩
        · rw [List.append_nil] at hlast
          exact absurd hlast hlexed.getLast?_ne_line
        · exact ⟨b, by simpa using hlast⟩
      have hread' : nextToken d a = .ok (t, b) := by
        rw [← hr] at hread
        have hshort := nextToken_apart (t.apart_line []) t.apart_nil hread
        rwa [List.append_nil, List.append_nil] at hshort
      rw [scan_token (by simpa using hc) hread', ih rfl hscan]
      rfl
  | case5 => cases h

namespace Scans

variable {a b : List Char} {tokens more : List Token}

theorem of_scan {offset line : Nat} {found : List Lexeme} (h : scan offset line a = .ok found) :
    Scans a (found.map Lexeme.token) := by
  fun_induction scan offset line a generalizing found with
  | case1 =>
    cases h
    exact .nil
  | case2 offset line c r hc ih => exact .blank hc (ih h)
  | case3 => cases h
  | case4 offset line c r hc t rest hread more hscan ih =>
    cases h
    exact .token (by simpa using hc) hread (ih hscan)
  | case5 => cases h

theorem exists_scan (h : Scans a tokens) (offset line : Nat) :
    ∃ found, scan offset line a = .ok found ∧ found.map Lexeme.token = tokens := by
  have hscan := h offset line
  cases hfound : scan offset line a with
  | error e =>
    rw [hfound] at hscan
    cases hscan
  | ok found =>
    rw [hfound] at hscan
    exact ⟨found, rfl, Except.ok.inj hscan⟩

theorem trim (h : Scans (a ++ ['\n']) tokens) : Scans a tokens := by
  obtain ⟨found, hscan, rfl⟩ := h.exists_scan 0 0
  exact of_scan (scan_trim hscan)

theorem append (ha : Scans a tokens) (hb : Scans b more) (hapart : ∀ t ∈ tokens, t.Apart b) :
    Scans (a ++ b) (tokens ++ more) := by
  intro offset line
  obtain ⟨found, hfound, rfl⟩ := ha.exists_scan offset line
  obtain ⟨found', hfound', rfl⟩ := hb.exists_scan (offset + utf8Size a) (line + a.count '\n')
  have hbehind : ∀ x ∈ found, x.token.Apart b := by simpa using hapart
  rw [scan_append hfound hbehind, hfound', ← List.map_append]
  rfl

theorem exists_tokenize (h : Scans a tokens) (hhead : a.head? ≠ some '#') :
    ∃ found, tokenize a = .ok found ∧ found.map Lexeme.token = tokens := by
  rw [tokenize, if_neg hhead]
  exact h.exists_scan 0 1

end Scans

/-! ### Whole lines -/

/-- The text is made of whole lines, and these are its tokens. -/
structure WholeLines (text : List Char) (tokens : List Token) : Prop where
  scans : Scans text tokens
  closed : text = [] ∨ text.getLast? = some '\n'

namespace WholeLines

variable {a b : List Char} {tokens more : List Token}

theorem nil : WholeLines [] [] where
  scans := .nil
  closed := .inl rfl

theorem scans_append (ha : WholeLines a tokens) (hb : Scans b more) :
    Scans (a ++ b) (tokens ++ more) := by
  rcases ha.closed with rfl | hlast
  · obtain ⟨found, hfound, rfl⟩ := ha.scans.exists_scan 0 0
    rw [scan] at hfound
    cases hfound
    exact hb
  · obtain ⟨front, rfl⟩ := List.getLast?_eq_some_iff.mp hlast
    rw [List.append_assoc]
    exact ha.scans.trim.append (.blank rfl hb) fun t _ => t.apart_line b

theorem append (ha : WholeLines a tokens) (hb : WholeLines b more) :
    WholeLines (a ++ b) (tokens ++ more) := by
  constructor
  case scans => exact ha.scans_append hb.scans
  case closed =>
    rcases hb.closed with rfl | hlast
    · rw [List.append_nil]
      exact ha.closed
    · right
      rw [List.getLast?_append, hlast]
      rfl

theorem flatMap {α : Type} {entries : List α} {text : α → List Char} {read : α → List Token}
    (h : ∀ x ∈ entries, WholeLines (text x) (read x)) :
    WholeLines (entries.flatMap text) (entries.flatMap read) := by
  induction entries with
  | nil => exact .nil
  | cons x entries ih =>
    obtain ⟨hx, hentries⟩ := List.forall_mem_cons.mp h
    rw [List.flatMap_cons, List.flatMap_cons]
    exact hx.append (ih hentries)

/-- A last line without its end gets one. -/
theorem of_scans (h : Scans a tokens) : WholeLines (a ++ ['\n']) tokens := by
  constructor
  case scans =>
    have hread := h.append (.blank rfl .nil) fun t _ => t.apart_line []
    rwa [List.append_nil] at hread
  case closed => simp

end WholeLines

/-! ### Fixed texts -/

/-- The tokens of a text, found in a number of steps. -/
def scanWithin : Nat → List Char → Option (List Token)
  | _, [] => some []
  | 0, _ :: _ => none
  | n + 1, c :: r =>
    if isBlank c then scanWithin n r
    else
      match nextToken c r with
      | .ok (t, rest) => (scanWithin n rest).map (t :: ·)
      | .error _ => none

theorem scans_of_within {n : Nat} {text : List Char} {tokens : List Token}
    (h : scanWithin n text = some tokens) : Scans text tokens := by
  fun_induction scanWithin n text generalizing tokens with
  | case1 =>
    cases h
    exact .nil
  | case2 => cases h
  | case3 n c r hc ih => exact .blank hc (ih h)
  | case4 n c r hc t rest hread ih =>
    obtain ⟨more, hmore, rfl⟩ := Option.map_eq_some_iff.mp h
    exact .token (by simpa using hc) hread (ih hmore)
  | case5 => cases h

section Literals

variable {n : Nat} {literal : String} {text : List Char} {tokens : List Token}

theorem scans_literal (hliteral : literal = String.ofList text)
    (h : scanWithin n text = some tokens) : Scans literal.toList tokens := by
  rw [hliteral, String.toList_ofList]
  exact scans_of_within h

theorem wholeLines_literal (hliteral : literal = String.ofList text)
    (h : scanWithin n text = some tokens ∧ text.getLast? = some '\n') :
    WholeLines literal.toList tokens := by
  constructor
  case scans => exact scans_literal hliteral h.1
  case closed =>
    right
    rw [hliteral, String.toList_ofList]
    exact h.2

end Literals

end LuaBundle.Lua
