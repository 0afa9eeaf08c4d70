import LuaBundle.Proofs.Lua.Beautified
import LuaBundle.Proofs.Lua.Breaks

/-!
# Line breaks of other conventions

Only a comment up to the end of its line, and a first line that is no code, look for a line feed; for
every other scanner a carriage return is a break like it. So a text keeps its code when its lines are
ended by both, and with carriage returns alone it keeps the code in front of the first such comment:
what is meant to end with its line goes on to the end of the text.
-/
namespace LuaBundle.Lua

/-- The text with another mark for every line feed. -/
def withBreaks (mark source : List Char) : List Char :=
  source.flatMap fun c => if c = '\n' then mark else [c]

/-- The mark may stand for a line feed: the lexer passes over it. -/
structure EndsLine (mark : List Char) : Prop where
  ne_nil : mark ≠ []
  blank : ∀ c ∈ mark, isBlank c = true

theorem endsLine_returnFeed : EndsLine ['\r', '\n'] where
  ne_nil := by simp
  blank := by simp [isBlank]

theorem endsLine_return : EndsLine ['\r'] where
  ne_nil := by simp
  blank := by simp [isBlank]

theorem EndsLine.breaks {mark : List Char} (h : EndsLine mark) : Breaks mark := by
  intro c hc
  rw [isBreak, h.blank c (List.mem_of_mem_head? hc)]
  rfl

section Replacing

variable {mark : List Char}

@[simp] theorem withBreaks_nil (mark : List Char) : withBreaks mark [] = [] := rfl

@[simp] theorem withBreaks_append (mark a b : List Char) :
    withBreaks mark (a ++ b) = withBreaks mark a ++ withBreaks mark b := List.flatMap_append

@[simp] theorem withBreaks_line (mark r : List Char) :
    withBreaks mark ('\n' :: r) = mark ++ withBreaks mark r := rfl

theorem withBreaks_cons {c : Char} (hc : c ≠ '\n') (mark r : List Char) :
    withBreaks mark (c :: r) = c :: withBreaks mark r := by
  rw [withBreaks, List.flatMap_cons, if_neg hc]
  rfl

theorem withBreaks_of_not_mem {a : List Char} (ha : '\n' ∉ a) (mark : List Char) :
    withBreaks mark a = a := by
  induction a with
  | nil => rfl
  | cons c a ih =>
    obtain ⟨hc, ha⟩ := not_or.mp (mt List.mem_cons.mpr ha)
    rw [withBreaks_cons (Ne.symm hc), ih ha]

theorem not_mem_withBreaks (hmark : '\n' ∉ mark) (source : List Char) :
    '\n' ∉ withBreaks mark source := by
  intro hmem
  obtain ⟨c, -, hc⟩ := List.mem_flatMap.mp hmem
  split at hc
  · exact hmark hc
  · next hne => exact hne (List.mem_singleton.mp hc).symm

/-- With carriage returns alone there is only one line. -/
theorem dropWhile_cr (source : List Char) :
    (withBreaks ['\r'] source).dropWhile (· != '\n') = [] := by
  refine List.dropWhile_eq_nil_iff.mpr fun c hc => ?_
  have hne : c ≠ '\n' := ne_of_mem_of_not_mem hc (not_mem_withBreaks (by decide) source)
  simpa using hne

theorem head?_withBreaks_iff (hmark : EndsLine mark) {c : Char} (hc : isBlank c = false)
    (source : List Char) : (withBreaks mark source).head? = some c ↔ source.head? = some c := by
  have hne : ∀ d, isBlank d = true → d ≠ c := by
    rintro d hd rfl
    rw [hc] at hd
    cases hd
  cases source with
  | nil => rfl
  | cons d r =>
    by_cases hd : d = '\n'
    · subst hd
      obtain ⟨e, mark, rfl⟩ := List.exists_cons_of_ne_nil hmark.ne_nil
      simp [hne e (hmark.blank e (List.mem_cons_self ..)), hne '\n' rfl]
    · rw [withBreaks_cons hd]
      rfl

end Replacing

/-! ### Tokens before another mark -/

namespace Token

/-- A comment without brackets, which ends with its line. -/
def isLineComment : Token → Bool
  | comment text => (longLevel? (text.drop 2)).isNone
  | _ => false

theorem isComment_of_isLineComment {t : Token} (h : t.isLineComment = true) :
    t.isComment = true := by
  cases t with
  | comment => rfl
  | name | keyword | number | string | symbol => cases h

end Token

section Tokens

variable {mark r rest : List Char} {c : Char} {t : Token}

/-- A text, up to its first line break, is left alone; what stands behind begins with a break before
and after. -/
theorem exists_first_line (hmark : EndsLine mark) (rest : List Char) :
    ∃ y e e', rest = y ++ e ∧ withBreaks mark rest = y ++ e' ∧ Breaks e ∧ Breaks e' := by
  by_cases hline : '\n' ∈ rest
  · obtain ⟨y, q, rfl, hy⟩ := List.eq_append_cons_of_mem hline
    refine ⟨y, '\n' :: q, mark ++ withBreaks mark q, rfl, ?_, ?_, ?_⟩
    · rw [withBreaks_append, withBreaks_of_not_mem hy, withBreaks_line]
    · intro d hd
      obtain rfl := Option.mem_some.mp hd
      rfl
    · obtain ⟨d, mark, rfl⟩ := List.exists_cons_of_ne_nil hmark.ne_nil
      exact hmark.breaks
  · refine ⟨rest, [], [], (List.append_nil rest).symm, ?_, nofun, nofun⟩
    rw [withBreaks_of_not_mem hline, List.append_nil]

theorem longLevel?_withBreaks (hmark : EndsLine mark) (r : List Char) :
    longLevel? (withBreaks mark r) = longLevel? r := by
  obtain ⟨y, e, e', hr, hr', he, he'⟩ := exists_first_line hmark r
  rw [hr', hr, longLevel?_append he, longLevel?_append he']

/-- What stands behind the close of a comment in brackets has no part in it. -/
theorem commentRest_closed {s body : List Char} (h : commentRest s = .ok (body, rest))
    (hclosed : (longLevel? body).isNone = false) (rest' : List Char) :
    commentRest (body ++ rest') = .ok (body, rest') := by
  unfold commentRest at h
  split at h
  · next level hlevel =>
    split at h
    · next split hsplit =>
      cases h
      obtain ⟨hlevel', hsplit'⟩ := longBracket?_swap hlevel hsplit rest'
      simp only [commentRest, hlevel', hsplit']
    · cases h
  · next hlevel =>
    cases h
    rw [longLevel?_comment hlevel] at hclosed
    cases hclosed

/-- A token without a line break is read again, unless it is a comment that ends with its line. -/
theorem nextToken_withBreaks (hmark : EndsLine mark)
    (hread : nextToken c r = .ok (t, rest)) (hline : '\n' ∉ t.text)
    (hclosed : t.isLineComment = false) :
    nextToken c (withBreaks mark r) = .ok (t, withBreaks mark rest) := by
  obtain ⟨hnil, happend⟩ := nextToken_spec hread
  obtain ⟨d, x, htext⟩ := List.exists_cons_of_ne_nil hnil
  rw [htext, List.cons_append] at happend
  obtain ⟨rfl, rfl⟩ := List.cons.inj happend
  rw [htext] at hline
  have hx : '\n' ∉ x := fun hx => hline (List.mem_cons_of_mem _ hx)
  rw [withBreaks_append, withBreaks_of_not_mem hx]
  by_cases hcomment : t.isComment = true
  · obtain ⟨s, body, rfl, -, rfl, hbody⟩ := Token.exists_of_comment hread hcomment
    obtain rfl : '-' :: body = x := (List.cons.inj htext).2
    exact Token.nextToken_dashes (commentRest_closed hbody hclosed _)
  · obtain ⟨y, e, e', hrest, hrest', he, he'⟩ := exists_first_line hmark rest
    have hplain : t.isComment = false := by simpa using hcomment
    rw [hrest, ← List.append_assoc] at hread
    rw [hrest', ← List.append_assoc]
    exact nextToken_apart (Token.apart_of_breaks hplain he) (Token.apart_of_breaks hplain he') hread

/-- A comment that ends with its line, and what is left behind it. -/
theorem exists_of_lineComment (hread : nextToken c r = .ok (t, rest))
    (ht : t.isLineComment = true) :
    ∃ s, c = '-' ∧ r = '-' :: s ∧ longLevel? s = none ∧ rest = s.dropWhile (· != '\n') := by
  obtain ⟨s, body, hc, hr, rfl, hbody⟩ :=
    Token.exists_of_comment hread (Token.isComment_of_isLineComment ht)
  refine ⟨s, hc, hr, ?_⟩
  unfold commentRest at hbody
  split at hbody
  · next level hlevel =>
    split at hbody
    · next split hsplit =>
      cases hbody
      obtain ⟨hlevel', -⟩ := longBracket?_swap hlevel hsplit []
      rw [List.append_nil] at hlevel'
      simp [Token.isLineComment, hlevel'] at ht
    · cases hbody
  · next hlevel =>
    cases hbody
    exact ⟨hlevel, rfl⟩

/-- Before another mark the comment goes on up to the next line feed, if there still is one. -/
theorem nextToken_lineComment (hmark : EndsLine mark) {s : List Char} (hlevel : longLevel? s = none) :
    ∃ body, nextToken '-' ('-' :: withBreaks mark s) =
      .ok (.comment body, (withBreaks mark s).dropWhile (· != '\n')) := by
  refine ⟨'-' :: '-' :: (withBreaks mark s).takeWhile (· != '\n'), Token.nextToken_dashes ?_⟩
  rw [commentRest, longLevel?_withBreaks hmark, hlevel]

end Tokens

/-! ### Scanning -/

/-- The code among some tokens. -/
def codeOf (tokens : List Token) : List Token := tokens.filter (!·.isComment)

theorem codeOf_cons_comment {t : Token} (ht : t.isComment = true) (tokens : List Token) :
    codeOf (t :: tokens) = codeOf tokens := by
  rw [codeOf, List.filter_cons_of_neg (by simp [ht])]
  rfl

theorem codeOf_cons_congr (t : Token) {tokens more : List Token} (h : codeOf tokens = codeOf more) :
    codeOf (t :: tokens) = codeOf (t :: more) := by
  simp only [codeOf, List.filter_cons] at h ⊢
  rw [h]

/-- No string, and no comment in brackets, goes over a line break. -/
def Unbroken (found : List Lexeme) : Prop :=
  ∀ x ∈ found, x.token.isText = true → '\n' ∉ x.token.text

instance (found : List Lexeme) : Decidable (Unbroken found) :=
  inferInstanceAs (Decidable (∀ x ∈ found, _ → _))

/-- Only strings and comments can hold a line break. -/
theorem not_mem_text {c : Char} {r rest : List Char} {t : Token}
    (hread : nextToken c r = .ok (t, rest)) (ht : t.isText = true → '\n' ∉ t.text) :
    '\n' ∉ t.text := by
  cases htext : t.isText with
  | true => exact ht htext
  | false => exact Token.Lexed.not_mem_line ⟨c, r, rest, hread⟩ htext

namespace Scans

variable {mark : List Char} {c : Char} {r rest : List Char} {t : Token} {tokens : List Token}

theorem of_blank (hc : isBlank c = true) (h : Scans (c :: r) tokens) : Scans r tokens := by
  obtain ⟨found, hscan, rfl⟩ := h.exists_scan 0 0
  rw [scan_blank hc] at hscan
  exact of_scan hscan

theorem withBreaks_blank (hmark : EndsLine mark) (hc : isBlank c = true)
    (h : Scans (withBreaks mark r) tokens) : Scans (withBreaks mark (c :: r)) tokens := by
  by_cases hline : c = '\n'
  · subst hline
    exact h.blanks hmark.blank
  · rw [withBreaks_cons hline]
    exact .blank hc h

theorem withBreaks_token (hc : isBlank c = false)
    (hread : nextToken c (withBreaks mark r) = .ok (t, rest)) (h : Scans rest tokens) :
    Scans (withBreaks mark (c :: r)) (t :: tokens) := by
  have hline : c ≠ '\n' := by
    rintro rfl
    cases hc
  rw [withBreaks_cons hline]
  exact .token hc hread h

/-- Up to the line feed goes the carriage return too. -/
theorem behind_line (s : List Char)
    (h : Scans (withBreaks ['\r', '\n'] (s.dropWhile (· != '\n'))) tokens) :
    Scans ((withBreaks ['\r', '\n'] s).dropWhile (· != '\n')) tokens := by
  induction s with
  | nil => exact h
  | cons c s ih =>
    by_cases hc : c = '\n'
    · subst hc
      exact h.of_blank rfl
    · rw [withBreaks_cons hc]
      simp only [List.dropWhile_cons, bne_iff_ne, ne_eq, hc, not_false_eq_true, if_true] at h ⊢
      exact ih h

end Scans

section Conventions

variable {offset line : Nat} {input : List Char} {found : List Lexeme}

/-- With both characters at the end of every line all the code is read again. -/
theorem exists_scans_crlf (h : scan offset line input = .ok found) (hwhole : Unbroken found) :
    ∃ tokens, Scans (withBreaks ['\r', '\n'] input) tokens ∧
      codeOf tokens = codeOf (found.map Lexeme.token) := by
  fun_induction scan offset line input generalizing found with
  | case1 =>
    cases h
    exact ⟨[], .nil, rfl⟩
  | case2 offset line c r hc ih =>
    obtain ⟨tokens, hscans, hcode⟩ := ih h hwhole
    exact ⟨tokens, hscans.withBreaks_blank endsLine_returnFeed hc, hcode⟩
  | case3 => cases h
  | case4 offset line c r hc t rest hread more hscan ih =>
    cases h
    obtain ⟨ht, hmore⟩ := List.forall_mem_cons.mp hwhole
    obtain ⟨tokens, hscans, hcode⟩ := ih hscan hmore
    have hc : isBlank c = false := by simpa using hc
    cases hline : t.isLineComment with
    | true =>
      obtain ⟨s, rfl, rfl, hlevel, rfl⟩ := exists_of_lineComment hread hline
      obtain ⟨body, hbody⟩ := nextToken_lineComment endsLine_returnFeed hlevel
      rw [← withBreaks_cons (by decide)] at hbody
      refine ⟨_, .withBreaks_token hc hbody hscans.behind_line, ?_⟩
      rw [List.map_cons, codeOf_cons_comment rfl, hcode,
        codeOf_cons_comment (Token.isComment_of_isLineComment hline)]
    | false =>
      have hagain := nextToken_withBreaks endsLine_returnFeed hread (not_mem_text hread ht) hline
      exact ⟨_, .withBreaks_token hc hagain hscans, codeOf_cons_congr t hcode⟩
  | case5 => cases h

/-- With carriage returns alone the first comment that should end with its line is the last token. -/
theorem exists_scans_cr (h : scan offset line input = .ok found) (hwhole : Unbroken found) :
    ∃ tokens, Scans (withBreaks ['\r'] input) tokens ∧ codeOf tokens =
      codeOf ((found.takeWhile (!·.token.isLineComment)).map Lexeme.token) := by
  fun_induction scan offset line input generalizing found with
  | case1 =>
    cases h
    exact ⟨[], .nil, rfl⟩
  | case2 offset line c r hc ih =>
    obtain ⟨tokens, hscans, hcode⟩ := ih h hwhole
    exact ⟨tokens, hscans.withBreaks_blank endsLine_return hc, hcode⟩
  | case3 => cases h
  | case4 offset line c r hc t rest hread more hscan ih =>
    cases h
    obtain ⟨ht, hmore⟩ := List.forall_mem_cons.mp hwhole
    have hc : isBlank c = false := by simpa using hc
    cases hline : t.isLineComment with
    | true =>
      obtain ⟨s, rfl, rfl, hlevel, rfl⟩ := exists_of_lineComment hread hline
      obtain ⟨body, hbody⟩ := nextToken_lineComment endsLine_return hlevel
      rw [← withBreaks_cons (by decide), dropWhile_cr] at hbody
      refine ⟨_, .withBreaks_token hc hbody .nil, ?_⟩
      rw [List.takeWhile_cons_of_neg (by simp [hline]), codeOf_cons_comment rfl]
      rfl
    | false =>
      obtain ⟨tokens, hscans, hcode⟩ := ih hscan hmore
      have hagain := nextToken_withBreaks endsLine_return hread (not_mem_text hread ht) hline
      refine ⟨_, .withBreaks_token hc hagain hscans, ?_⟩
      rw [List.takeWhile_cons_of_pos (by simp [hline])]
      exact codeOf_cons_congr t hcode
  | case5 => cases h

end Conventions

/-! ### Whole texts -/

/-- The part of a text that is scanned. -/
def codePart (source : List Char) : List Char :=
  if source.head? = some '#' then source.dropWhile (· != '\n') else source

/-- What stands behind a comment, or a first line, that should end with its line. -/
def behindLine (source : List Char) (found : List Lexeme) : List Lexeme :=
  if source.head? = some '#' then found else found.dropWhile (!·.token.isLineComment)

section Texts

variable {source : List Char} {found : List Lexeme} {tokens : List Token}

theorem exists_scan_codePart (source : List Char) :
    ∃ offset, tokenize source = scan offset 1 (codePart source) := by
  rw [tokenize, codePart]
  split
  · exact ⟨_, rfl⟩
  · exact ⟨0, rfl⟩

theorem codeTokens_of_codePart (h : Scans (codePart source) tokens) :
    codeTokens source = .ok (codeOf tokens) := by
  obtain ⟨offset, htokenize⟩ := exists_scan_codePart source
  obtain ⟨found, hfound, rfl⟩ := h.exists_scan offset 1
  rw [codeTokens, htokenize, hfound]
  rfl

theorem codeTokens_of_tokenize (h : tokenize source = .ok found) :
    codeTokens source = .ok (codeOf (found.map Lexeme.token)) := by
  rw [codeTokens, h]
  rfl

theorem codeTokens_crlf (h : tokenize source = .ok found) (hwhole : Unbroken found) :
    codeTokens (withBreaks ['\r', '\n'] source) = codeTokens source := by
  obtain ⟨offset, htokenize⟩ := exists_scan_codePart source
  obtain ⟨tokens, hscans, hcode⟩ := exists_scans_crlf (htokenize.symm.trans h) hwhole
  have hpart : Scans (codePart (withBreaks ['\r', '\n'] source)) tokens := by
    have hhead := head?_withBreaks_iff endsLine_returnFeed (c := '#') rfl source
    unfold codePart at hscans ⊢
    rw [if_congr hhead rfl rfl]
    split at hscans
    · next hhash =>
      rw [if_pos hhash]
      exact hscans.behind_line
    · next hhash =>
      rw [if_neg hhash]
      exact hscans
  rw [codeTokens_of_codePart hpart, codeTokens_of_tokenize h, hcode]

/-- The code in front of what should end with its line is all that is left. -/
theorem codeTokens_cr (h : tokenize source = .ok found) (hwhole : Unbroken found) :
    ∃ front, found = front ++ behindLine source found ∧
      codeTokens (withBreaks ['\r'] source) = .ok (codeOf (front.map Lexeme.token)) := by
  have hhead := head?_withBreaks_iff endsLine_return (c := '#') rfl source
  obtain ⟨offset, htokenize⟩ := exists_scan_codePart source
  obtain ⟨tokens, hscans, hcode⟩ := exists_scans_cr (htokenize.symm.trans h) hwhole
  by_cases hhash : source.head? = some '#'
  · refine ⟨[], by rw [behindLine, if_pos hhash]; rfl, ?_⟩
    apply codeTokens_of_codePart
    rw [codePart, if_pos (hhead.mpr hhash), dropWhile_cr]
    exact .nil
  · refine ⟨found.takeWhile (!·.token.isLineComment), ?_, ?_⟩
    · rw [behindLine, if_neg hhash, List.takeWhile_append_dropWhile]
    · rw [← hcode]
      apply codeTokens_of_codePart
      rw [codePart, if_neg (mt hhead.mp hhash)]
      rwa [codePart, if_neg hhash] at hscans

/-- A text in which no string and no comment in brackets goes over a line break has the same code
with both characters at the end of every line. With a carriage return alone it has the same code
exactly if only comments stand behind what should end with its line. -/
theorem line_breaks_iff (h : tokenize source = .ok found) (hwhole : Unbroken found) :
    codeTokens (withBreaks ['\r', '\n'] source) = codeTokens source ∧
      (codeTokens (withBreaks ['\r'] source) = codeTokens source ↔
        ∀ x ∈ behindLine source found, x.token.isComment = true) := by
  refine ⟨codeTokens_crlf h hwhole, ?_⟩
  obtain ⟨front, hfound, hcode⟩ := codeTokens_cr h hwhole
  have hsplit : codeOf (found.map Lexeme.token) = codeOf (front.map Lexeme.token) ++
      codeOf ((behindLine source found).map Lexeme.token) := by
    rw [codeOf, codeOf, codeOf, ← List.filter_append, ← List.map_append, ← hfound]
  have hnone : codeOf ((behindLine source found).map Lexeme.token) = [] ↔
      ∀ x ∈ behindLine source found, x.token.isComment = true := by
    simp [codeOf]
  rw [hcode, codeTokens_of_tokenize h, hsplit, ← hnone, Except.ok.injEq, List.self_eq_append_right]

def assignedTwice : List Char := "x=1--[=\ny=[[z]]".toList

def assignedTwiceLexemes : List Lexeme :=
  [⟨.name ['x'], 0⟩, ⟨.symbol .assign, 1⟩, ⟨.number ['1'], 2⟩, ⟨.comment "--[=".toList, 3⟩,
    ⟨.name ['y'], 8⟩, ⟨.symbol .assign, 9⟩, ⟨.string "[[z]]".toList, 10⟩]

/-- The second assignment stands behind a comment that ends with its line. -/
theorem code_behind_comment_lost :
    tokenize assignedTwice = .ok assignedTwiceLexemes ∧ Unbroken assignedTwiceLexemes ∧
      codeTokens (withBreaks ['\r', '\n'] assignedTwice) = codeTokens assignedTwice ∧
      codeTokens (withBreaks ['\r'] assignedTwice) ≠ codeTokens assignedTwice := by
  have h : tokenize assignedTwice = .ok assignedTwiceLexemes := by cbv
  have hwhole : Unbroken assignedTwiceLexemes := by decide
  obtain ⟨hboth, halone⟩ := line_breaks_iff h hwhole
  exact ⟨h, hwhole, hboth, fun heq => absurd (halone.mp heq) (by decide)⟩

end Texts

end LuaBundle.Lua
