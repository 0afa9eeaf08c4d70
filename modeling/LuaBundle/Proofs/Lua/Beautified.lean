import LuaBundle.Proofs.Lua.Minified

/-!
# Readable chunks are read back

Besides the spaces that the lexer needs, lines are broken and spaced to be read. What still stands
close together there never runs into each other, a point before a numeral excepted.
-/
namespace LuaBundle.Lua

/-! ### Neighbours without a space -/

namespace Token

variable {t u : Token}

/-- A point before a numeral that begins with a digit is read as part of the numeral. -/
def joinsNumeral : Token → Token → Bool
  | symbol .dot, number text => text.head?.any Char.isDigit
  | _, _ => false

theorem joinsNumeral_of_merges (h : t.merges u = false) : t.joinsNumeral u = false := by
  unfold joinsNumeral
  split
  · exact h
  · rfl

/-- Only a point runs into what is behind it. -/
theorem merges_symbol {mark : Symbol} (h : (symbol mark).joinsNumeral u = false) :
    (symbol mark).merges u = false := by
  unfold merges
  split
  · rename_i heq
    obtain rfl := Token.symbol.inj heq
    exact h
  · rename_i heq
    cases heq
  · rfl

/-- Symbols that may stand close behind a numeral. -/
def closesUp : Token → Bool
  | symbol .parenOpen | symbol .bracketOpen => true
  | u => hugsLeft u

theorem merges_number {text : List Char} (h : u.closesUp = true) :
    (number text).merges u = false := by
  have hsymbol : u.text.head?.any isWordChar = false ∧ u ≠ symbol .plus ∧ u ≠ symbol .minus := by
    cases u with
    | symbol mark => cases mark <;> revert h <;> decide
    | _ => cases h
  obtain ⟨hword, hplus, hminus⟩ := hsymbol
  simp [merges, hword, hplus, hminus]

end Token

theorem needsSpace_of_not_readsWithSpace {earlier : Option Token} {p q : Piece}
    (h : readsWithSpace earlier p q = false) : needsSpace p.text q.text = false := by
  unfold readsWithSpace at h
  split at h
  · cases h
  · rename_i hspace
    simpa using hspace

/-- Two tokens between which no space is put to be read do not merge. -/
theorem merges_of_not_readsWithSpace {earlier : Option Token} {p q : Piece}
    (h : readsWithSpace earlier p q = false) (hjoins : p.token.joinsNumeral q.token = false) :
    p.token.merges q.token = false := by
  have hspace := needsSpace_of_not_readsWithSpace h
  cases htoken : p.token with
  | symbol mark => exact Token.merges_symbol (htoken ▸ hjoins)
  | number text =>
    refine Token.merges_number ?_
    rw [readsWithSpace, hspace, htoken] at h
    cases hq : q.token with
    | symbol mark => cases mark <;> first | rfl | (rw [hq] at h; cases h)
    | _ => rw [hq] at h; cases h
  | _ => rfl

/-! ### Reading the lines -/

theorem isBlank_of_mem_indent {depth : Nat} {c : Char} (h : c ∈ indent depth) : isBlank c = true := by
  rw [List.eq_of_mem_replicate h]
  rfl

theorem isBlank_of_mem_lead {earlier : Option Token} {prev : Option Piece} {p : Piece} {m : Mark}
    {c : Char} (h : c ∈ lead earlier prev p m) : isBlank c = true := by
  unfold lead at h
  split at h
  · rcases List.mem_append.mp h with h | h
    · split at h
      · rw [List.mem_singleton.mp h]
        rfl
      · cases h
    · exact isBlank_of_mem_indent h
  · split at h
    · split at h
      · rw [List.mem_singleton.mp h]
        rfl
      · cases h
    · cases h

/-- Behind a token stands a blank, or what it does not merge with. -/
theorem lead_eq_nil {earlier : Option Token} {p q : Piece} {m : Mark}
    (h : lead earlier (some p) q m = []) : readsWithSpace earlier p q = false := by
  unfold lead at h
  split at h
  · cases h
  · simpa using h

theorem Scans.blanks {blanks rest : List Char} {tokens : List Token}
    (hblanks : ∀ c ∈ blanks, isBlank c = true) (h : Scans rest tokens) :
    Scans (blanks ++ rest) tokens := by
  induction blanks with
  | nil => exact h
  | cons c blanks ih =>
    obtain ⟨hc, hblanks⟩ := List.forall_mem_cons.mp hblanks
    exact .blank hc (ih hblanks)

@[simp] theorem pieces_cons (t : Token) (tokens : List Token) (r : Option (List Char))
    (renamed : List (Option (List Char))) :
    pieces (t :: tokens) (r :: renamed) = ⟨t, r.getD t.text⟩ :: pieces tokens renamed := rfl

/-- What is printed behind a token does not go on with it. -/
theorem stops_lines {t u : Token} {r s : Option (List Char)} {m : Mark} {earlier : Option Token}
    {rest : List Char} (hr : Replaces t r) (hs : Replaces u s) (ht : t.Lexed) (hu : u.Lexed)
    (htc : t.isComment = false) (huc : u.isComment = false) (hjoins : t.joinsNumeral u = false) :
    (t.respell r).Stops
      (lead earlier (some ⟨t, r.getD t.text⟩) ⟨u, s.getD u.text⟩ m ++ s.getD u.text ++ rest) := by
  have htc' := (t.respell_isComment r).trans htc
  have huc' := (u.respell_isComment s).trans huc
  cases hlead : lead earlier (some ⟨t, r.getD t.text⟩) ⟨u, s.getD u.text⟩ m with
  | cons c blanks =>
    have hc : isBlank c = true := isBlank_of_mem_lead (hlead ▸ List.mem_cons_self ..)
    exact Token.stops_blank htc' hc
  | nil =>
    have hclose := lead_eq_nil hlead
    have hspace := needsSpace_of_not_readsWithSpace hclose
    have hmerges := merges_of_not_readsWithSpace hclose hjoins
    rw [← Token.respell_text hs] at hspace ⊢
    rw [← Token.respell_text hr] at hspace
    have hu' := hu.respell hs
    obtain ⟨c, text, htext⟩ := hu'.exists_cons
    have hstops := (ht.respell hr).stops hu' htc' huc'
      ((Token.merges_respell hu hs).trans hmerges) hspace
    exact hstops.of_head? (by rw [htext]; rfl)

/-- Printed lines are read as the tokens that they show, whatever stands before them. -/
theorem scans_lines {tokens : List Token} {renamed : List (Option (List Char))} {marks : List Mark}
    (h : List.Forall₂ Replaces tokens renamed) (hmarks : marks.length = tokens.length)
    (hlexed : ∀ t ∈ tokens, t.Lexed) (hcomment : ∀ t ∈ tokens, t.isComment = false)
    (hjoins : tokens.IsChain fun t u => t.joinsNumeral u = false) (earlier : Option Token)
    (prev : Option Piece) :
    Scans (lines earlier prev (pieces tokens renamed) marks ++ ['\n'])
      (List.zipWith Token.respell tokens renamed) := by
  induction h generalizing marks earlier prev with
  | nil => exact .blank rfl .nil
  | @cons t r tokens renamed hr hrest ih =>
    obtain ⟨m, marks, rfl⟩ := List.exists_cons_of_length_eq_add_one hmarks
    obtain ⟨ht, hlexed⟩ := List.forall_mem_cons.mp hlexed
    obtain ⟨htc, hcomment⟩ := List.forall_mem_cons.mp hcomment
    have hread := ih (Nat.succ.inj hmarks) hlexed hcomment hjoins.tail (prev.map Piece.token)
      (some ⟨t, r.getD t.text⟩)
    have htext := Token.respell_text hr
    rw [pieces_cons, List.zipWith_cons_cons, lines, List.append_assoc, List.append_assoc, ← htext]
    rw [← htext] at hread
    refine .blanks (fun c => isBlank_of_mem_lead) (.text_append (ht.respell hr) ?_ hread)
    cases hrest with
    | nil => exact Token.stops_blank ((t.respell_isComment r).trans htc) rfl
    | @cons u s tokens renamed hs hrest =>
      obtain ⟨m', marks, rfl⟩ := List.exists_cons_of_length_eq_add_one (Nat.succ.inj hmarks)
      rw [pieces_cons, lines, List.append_assoc, htext]
      exact stops_lines hr hs ht (hlexed u (List.mem_cons_self ..)) htc
        (hcomment u (List.mem_cons_self ..)) (List.isChain_cons_cons.mp hjoins).1

/-! ### The banner -/

def bannerComment : Token := .comment "--[[ formatted by luapack ]]".toList

theorem scans_banner {rest : List Char} {tokens : List Token} (h : Scans rest tokens) :
    Scans (bannerText.toList ++ rest) (bannerComment :: tokens) := by
  have hclosed : longBracket? 0 "[[ formatted by luapack ]]".toList =
      some ("[[ formatted by luapack ]]".toList, []) := by cbv
  obtain ⟨hlevel, hread⟩ := longBracket?_swap rfl hclosed ('\n' :: rest)
  have hcomment : commentRest ("[[ formatted by luapack ]]".toList ++ '\n' :: rest) =
      .ok ("[[ formatted by luapack ]]".toList, '\n' :: rest) := by
    rw [commentRest, hlevel]
    simp only
    rw [hread]
  have htoken : nextToken '-' ('-' :: ("[[ formatted by luapack ]]".toList ++ '\n' :: rest)) =
      .ok (bannerComment, '\n' :: rest) := by
    rw [nextToken, if_pos ⟨rfl, rfl⟩, List.tail_cons, hcomment]
    rfl
  exact .token rfl htoken (.blank rfl h)

/-! ### Beautified chunks -/

section

variable {options : RenameOptions} {source out : List Char} {tokens : List Token}

theorem prepare_ok {prepared : List Token × List Piece} (htokens : codeTokens source = .ok tokens)
    (h : prepare options source = .ok prepared) :
    ∃ renamed, plan options tokens = .ok renamed ∧ prepared = (tokens, pieces tokens renamed) := by
  rw [prepare, htokens] at h
  simp only at h
  cases hplan : plan options tokens with
  | error fault =>
    rw [hplan] at h
    cases h
  | ok renamed =>
    rw [hplan] at h
    exact ⟨renamed, rfl, (Except.ok.inj h).symm⟩

/-- What is beautified is the banner and the lines. -/
theorem beautify_ok (htokens : codeTokens source = .ok tokens)
    (hout : beautify options source = .ok out) :
    ∃ renamed, plan options tokens = .ok renamed ∧
      out = bannerText.toList ++
        (lines none none (pieces tokens renamed) (layout tokens) ++ ['\n']) := by
  obtain ⟨prepared, hprepared, rfl⟩ : ∃ prepared, prepare options source = .ok prepared ∧
      bannerText.toList ++ lines none none prepared.2 (layout prepared.1) ++ ['\n'] = out := by
    unfold beautify at hout
    cases hprepare : prepare options source with
    | error fault =>
      rw [hprepare] at hout
      cases hout
    | ok prepared =>
      rw [hprepare] at hout
      exact ⟨prepared, rfl, Except.ok.inj hout⟩
  obtain ⟨renamed, hplan, rfl⟩ := prepare_ok htokens hprepared
  exact ⟨renamed, hplan, List.append_assoc ..⟩

theorem codeTokens_of_scans (hhead : source.head? ≠ some '#') (h : Scans source tokens) :
    codeTokens source = .ok (tokens.filter (!·.isComment)) := by
  have hscan := h 0 1
  rw [codeTokens, tokenize, if_neg hhead]
  cases hfound : scan 0 1 source with
  | error e =>
    rw [hfound] at hscan
    cases hscan
  | ok found =>
    rw [hfound] at hscan
    rw [← Except.ok.inj hscan]
    rfl

/-- Printing depends on the tokens only. -/
theorem prepare_congr {source' : List Char} (h : codeTokens source' = codeTokens source) :
    prepare options source' = prepare options source := by
  rw [prepare, prepare, h]

theorem respell_unchanged (tokens : List Token) :
    List.zipWith Token.respell tokens (tokens.map fun _ => none) = tokens := by
  induction tokens with
  | nil => rfl
  | cons t tokens ih =>
    rw [List.map_cons, List.zipWith_cons_cons, ih]
    cases t <;> rfl

/-- A beautified chunk has the banner and the tokens of its source, with the planned names in place
of the names they replace. Without renaming it is beautified to itself, and minified to what its
source is. -/
theorem beautify_tokens (htokens : codeTokens source = .ok tokens)
    (hout : beautify options source = .ok out)
    (hjoins : tokens.IsChain fun t u => t.joinsNumeral u = false) :
    ∃ renamed, plan options tokens = .ok renamed ∧ renamed.length = tokens.length ∧
      (tokenize out).map (·.map Lexeme.token) =
        .ok (bannerComment :: List.zipWith Token.respell tokens renamed) ∧
      (options = ⟨false, false⟩ →
        beautify options out = .ok out ∧ minify options out = minify options source) := by
  obtain ⟨renamed, hplan, heq⟩ := beautify_ok htokens hout
  have hreplaces := replaces_plan hplan
  obtain ⟨hlexed, hcomment⟩ := lexed_of_codeTokens htokens
  have hlines := scans_lines hreplaces (layout_length tokens) hlexed hcomment hjoins none none
  have hscans : Scans out (bannerComment :: List.zipWith Token.respell tokens renamed) :=
    heq ▸ scans_banner hlines
  have hhead : out.head? ≠ some '#' := by
    rw [heq, List.head?_append_of_ne_nil _ (by decide)]
    decide
  refine ⟨renamed, hplan, hreplaces.length_eq.symm, ?_, ?_⟩
  · rw [tokenize, if_neg hhead]
    exact hscans 0 1
  · rintro rfl
    have hnone : tokens.map (fun _ => none) = renamed := Except.ok.inj hplan
    have hsame : codeTokens out = codeTokens source := by
      rw [codeTokens_of_scans hhead hscans, ← hnone, respell_unchanged, htokens]
      have hkept : tokens.filter (!·.isComment) = tokens :=
        List.filter_eq_self.mpr fun t ht => by simpa using hcomment t ht
      exact congrArg Except.ok ((List.filter_cons_of_neg (by decide)).trans hkept)
    rw [beautify, minify, prepare_congr hsame]
    exact ⟨hout, rfl⟩

/-- A block is indented and a comment goes; no space stands behind the sign or the point. -/
theorem branch_on_three_lines :
    ∃ renamed, plan ⟨false, false⟩ [.keyword .ifKw, .name ['t'], .symbol .dot, .name ['a'],
        .keyword .thenKw, .name ['f'], .symbol .parenOpen, .symbol .minus, .number ['1'],
        .symbol .parenClose, .keyword .endKw] = .ok renamed ∧ renamed.length = 11 ∧
      (tokenize "--[[ formatted by luapack ]]\nif t.a then\n    f(-1)\nend\n".toList).map
          (·.map Lexeme.token) =
        .ok (bannerComment :: List.zipWith Token.respell [.keyword .ifKw, .name ['t'], .symbol .dot,
          .name ['a'], .keyword .thenKw, .name ['f'], .symbol .parenOpen, .symbol .minus,
          .number ['1'], .symbol .parenClose, .keyword .endKw] renamed) ∧
      ((⟨false, false⟩ : RenameOptions) = ⟨false, false⟩ →
        beautify ⟨false, false⟩
            "--[[ formatted by luapack ]]\nif t.a then\n    f(-1)\nend\n".toList =
          .ok "--[[ formatted by luapack ]]\nif t.a then\n    f(-1)\nend\n".toList ∧
        minify ⟨false, false⟩
            "--[[ formatted by luapack ]]\nif t.a then\n    f(-1)\nend\n".toList =
          minify ⟨false, false⟩ "if t.a then f( - 1 ) end -- one".toList) :=
  @beautify_tokens _ "if t.a then f( - 1 ) end -- one".toList _ _ (by cbv) (by cbv) (by decide)

end

end LuaBundle.Lua
