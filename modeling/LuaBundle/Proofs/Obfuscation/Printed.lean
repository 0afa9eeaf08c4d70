import LuaBundle.Obfuscation.Pipeline
import LuaBundle.Proofs.Lua.Beautified

/-!
# What the pipeline prints

Packed, or beautified without its banner, a chunk is read as the tokens of its source with the
planned names.
-/
namespace LuaBundle.Obfuscation

open Lua

variable {tokens : List Token} {renamed : List (Option (List Char))}

/-! ### Dropping the banner -/

/-- A token begins with a visible ASCII character. -/
theorem visible_of_nextToken {c : Char} {r rest : List Char} {t : Token}
    (h : nextToken c r = .ok (t, rest)) : 0x20 < c.toNat ∧ c.toNat < 0x7F := by
  cases lexes_of_nextToken h with
  | comment hc _ _ =>
    rw [hc]
    decide
  | long hlevel _ =>
    obtain ⟨body, hbody⟩ := open_of_longLevel? hlevel
    rw [(List.cons.inj hbody).1]
    decide
  | quote hquote _ => rcases hquote with rfl | rfl <;> decide
  | numeral hnumeral _ =>
    rcases hnumeral with hdigit | ⟨rfl, -⟩
    · have hbounds := bounds_of_isWordChar (isWordChar_of_isDigit hdigit)
      omega
    · decide
  | word hname _ _ =>
    have hbounds := bounds_of_isWordChar (isWordChar_of_isNameStart hname)
    omega
  | @symbol mark _ _ hmark _ =>
    have hinput := Symbol.text_append_drop hmark
    have hall : mark.text.all (fun d => 0x20 < d.toNat ∧ d.toNat < 0x7F) = true := by
      cases mark <;> rfl
    obtain ⟨d, s, hd⟩ := List.exists_cons_of_ne_nil mark.text_ne_nil
    rw [hd, List.cons_append] at hinput
    obtain rfl := (List.cons.inj hinput).1
    simpa using List.all_eq_true.mp hall d (hd ▸ List.mem_cons_self ..)

theorem not_isBlank_of_visible {c : Char} (h : 0x20 < c.toNat ∧ c.toNat < 0x7F) :
    Text.isBlank c = false := by
  have hranges : ∀ r ∈ Text.blankRanges, r.2 ≤ 0x20 ∨ 0x7F ≤ r.1 := by decide
  rw [Text.isBlank, List.any_eq_false]
  intro r hr
  have hr := hranges r hr
  simp only [Text.Range.holds, Bool.and_eq_true, decide_eq_true_eq]
  omega

theorem isBlank_of_blank {c : Char} (h : isBlank c = true) : Text.isBlank c = true := by
  rcases eq_of_isBlank h with rfl | rfl | rfl | rfl | rfl | rfl <;> decide

/-- The first token stands at the margin. -/
def flush : List Mark → List Mark
  | m :: marks => { m with start := false } :: marks
  | [] => []

theorem stripBanner_banner (body : List Char) :
    stripBanner (bannerText.toList ++ body) = ('\n' :: body).dropWhile Text.isBlank := by
  have hclosed : throughFirst? [']', ']'] " formatted by luapack ]]".toList =
      some (" formatted by luapack ]]".toList, []) := by cbv
  have hread := throughFirst?_swap (by decide) hclosed ('\n' :: body)
  show stripBanner
    ('-' :: '-' :: '[' :: '[' :: (" formatted by luapack ]]".toList ++ '\n' :: body)) = _
  rw [stripBanner, hread]

theorem lines_flush (p : Piece) (ps : List Piece) (m : Mark) (marks : List Mark) :
    lines none none (p :: ps) (flush (m :: marks)) = p.text ++ lines none (some p) ps marks := rfl

theorem dropWhile_lines {p : Piece} {ps : List Piece} {m : Mark} {marks : List Mark} {c : Char}
    {r : List Char} (htext : p.text = c :: r) (hc : Text.isBlank c = false) (rest : List Char) :
    ('\n' :: (lines none none (p :: ps) (m :: marks) ++ rest)).dropWhile Text.isBlank =
      lines none none (p :: ps) (flush (m :: marks)) ++ rest := by
  have hfirst : lines none none (p :: ps) (m :: marks) =
      lead none none p m ++ lines none none (p :: ps) (flush (m :: marks)) := by
    rw [lines_flush]
    exact List.append_assoc ..
  have hblank : ∀ d ∈ '\n' :: lead none none p m, Text.isBlank d = true := by
    intro d hd
    rcases List.mem_cons.mp hd with rfl | hd
    · decide
    · exact isBlank_of_blank (isBlank_of_mem_lead hd)
  rw [hfirst, List.append_assoc, ← List.cons_append, List.dropWhile_append_of_pos hblank, lines_flush,
    htext, List.cons_append, List.cons_append, List.dropWhile_cons_of_neg (by simp [hc])]

/-! ### Reading what is printed -/

variable {source printed : List Char}

theorem minify_ok {options : RenameOptions} {out : List Char}
    (htokens : codeTokens source = .ok tokens) (hout : minify options source = .ok out) :
    ∃ renamed, plan options tokens = .ok renamed ∧
      out = packed ((pieces tokens renamed).map Piece.text) := by
  unfold minify at hout
  cases hprepare : prepare options source with
  | error fault =>
    rw [hprepare] at hout
    cases hout
  | ok prepared =>
    obtain ⟨renamed, hplan, rfl⟩ := prepare_ok htokens hprepare
    rw [hprepare] at hout
    exact ⟨renamed, hplan, (Except.ok.inj hout).symm⟩

theorem head?_respelled (hreplaces : List.Forall₂ Replaces tokens renamed)
    (hhash : tokens.head? ≠ some (.symbol .hash)) :
    (List.zipWith Token.respell tokens renamed).head? ≠ some (.symbol .hash) := by
  cases hreplaces with
  | nil => nofun
  | cons =>
    intro hhead
    exact hhash (congrArg some (Token.respell_eq_symbol.mp (Option.some.inj hhead)))

/-- A text is read as the tokens of another with new names. -/
structure Prints (tokens : List Token) (renamed : List (Option (List Char))) (printed : List Char) :
    Prop where
  no_shebang : printed.head? ≠ some '#'
  scans : Scans printed (List.zipWith Token.respell tokens renamed)

theorem prints_packed (hlexed : ∀ t ∈ tokens, t.Lexed) (hcomment : ∀ t ∈ tokens, t.isComment = false)
    (hreplaces : List.Forall₂ Replaces tokens renamed)
    (hhash : tokens.head? ≠ some (.symbol .hash))
    (hapart : tokens.IsChain fun t u => t.merges u = false) :
    Prints tokens renamed (packed ((pieces tokens renamed).map Piece.text)) := by
  obtain ⟨hlexed', hcomment'⟩ := lexed_respelled hreplaces hlexed hcomment
  rw [pieces_text hreplaces]
  exact ⟨not_hash_of_packed hlexed' (head?_respelled hreplaces hhash),
    scans_packed hlexed' hcomment' (isChain_respelled hreplaces hlexed hapart)⟩

theorem prints_lines (hlexed : ∀ t ∈ tokens, t.Lexed) (hcomment : ∀ t ∈ tokens, t.isComment = false)
    (hreplaces : List.Forall₂ Replaces tokens renamed)
    (hhash : tokens.head? ≠ some (.symbol .hash))
    (hjoins : tokens.IsChain fun t u => t.joinsNumeral u = false) :
    Prints tokens renamed (stripBanner (bannerText.toList ++
      (lines none none (pieces tokens renamed) (layout tokens) ++ ['\n']))) := by
  rw [stripBanner_banner]
  cases hreplaces with
  | nil => exact ⟨nofun, .nil⟩
  | @cons t r tokens renamed hr hrest =>
    obtain ⟨m, marks, hmarks⟩ := List.exists_cons_of_length_eq_add_one (layout_length (t :: tokens))
    have hlength : (flush (m :: marks)).length = (t :: tokens).length := by
      rw [← layout_length, hmarks]
      rfl
    have ht := (hlexed t (List.mem_cons_self ..)).respell hr
    obtain ⟨c, text, htext⟩ := ht.exists_cons
    obtain ⟨s, rest, hread⟩ := ht.nextToken_head htext
    have hpiece : r.getD t.text = c :: text := (Token.respell_text hr).symm.trans htext
    have hvisible := not_isBlank_of_visible (visible_of_nextToken hread)
    rw [hmarks, pieces_cons, dropWhile_lines hpiece hvisible, ← pieces_cons]
    refine ⟨?_, scans_lines (.cons hr hrest) hlength hlexed hcomment hjoins none none⟩
    rw [pieces_cons, lines_flush]
    rintro hhead
    obtain rfl : c = '#' := by simpa [hpiece] using hhead
    exact hhash (congrArg some (Token.respell_eq_symbol.mp (ht.eq_hash htext)))

/-- A renaming pipeline prints the tokens of the text with the names that are planned. -/
theorem reprint_ok {s : Settings} (hrenames : s.renames = true)
    (htokens : codeTokens source = .ok tokens) (hhash : tokens.head? ≠ some (.symbol .hash))
    (hjoins : tokens.IsChain fun t u => t.joinsNumeral u = false)
    (hapart : s.minifies = true → tokens.IsChain fun t u => t.merges u = false)
    (hout : reprint s source = .ok printed) :
    ∃ renamed, plan ⟨true, true⟩ tokens = .ok renamed ∧ List.Forall₂ Replaces tokens renamed ∧
      Prints tokens renamed printed := by
  obtain ⟨hlexed, hcomment⟩ := lexed_of_codeTokens htokens
  unfold reprint at hout
  rw [hrenames] at hout
  split at hout
  · rename_i hminifies
    cases hminify : minify ⟨true, true⟩ source with
    | error fault =>
      rw [hminify] at hout
      cases hout
    | ok text =>
      rw [hminify] at hout
      cases hout
      obtain ⟨renamed, hplan, rfl⟩ := minify_ok htokens hminify
      have hreplaces := replaces_plan hplan
      exact ⟨renamed, hplan, hreplaces, prints_packed hlexed hcomment hreplaces hhash (hapart hminifies)⟩
  · cases hbeautify : beautify ⟨true, true⟩ source with
    | error fault =>
      rw [if_pos rfl, hbeautify] at hout
      cases hout
    | ok text =>
      rw [if_pos rfl, hbeautify] at hout
      cases hout
      obtain ⟨renamed, hplan, rfl⟩ := beautify_ok htokens hbeautify
      have hreplaces := replaces_plan hplan
      exact ⟨renamed, hplan, hreplaces, prints_lines hlexed hcomment hreplaces hhash hjoins⟩

end LuaBundle.Obfuscation
