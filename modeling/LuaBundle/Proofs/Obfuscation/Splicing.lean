import LuaBundle.Obfuscation.TagReplacement
import LuaBundle.Proofs.Lua.Lossless

/-!
# Splicing names into a text

New names are put in the place of old ones by their offsets. The lexer then finds the tokens of the
text again, with the new names, and everything between them is as it was.
-/
namespace LuaBundle.Obfuscation

open Lua

/-- The text before each lexeme and behind the last one, where the text begins at byte `pos`. -/
def gaps (pos : Nat) : List Lexeme → List Char → List (List Char)
  | [], text => [text]
  | x :: found, text =>
    let (gap, rest) := splitBytes (x.offset - pos) text
    gap :: gaps (x.offset + utf8Size x.token.text) found (rest.drop x.token.text.length)

/-- The names that get a new spelling. -/
def edits (rename : List Char → Option (List Char)) (found : List Lexeme) :
    List (Lexeme × List Char) :=
  found.filterMap fun x =>
    match x.token with
    | .name n => (rename n).map (x, ·)
    | _ => none

def respelled (rename : List Char → Option (List Char)) (t : Token) : Token :=
  t.respell (rename t.text)

/-! ### Splitting at bytes -/

section Splitting

variable {a text : List Char} {pos : Nat}

theorem splitBytes_zero (text : List Char) : splitBytes 0 text = ([], text) := by
  cases text <;> rfl

theorem splitBytes_append {bytes : Nat} (h : utf8Size a ≤ bytes) (text : List Char) :
    splitBytes bytes (a ++ text) =
      (a ++ (splitBytes (bytes - utf8Size a) text).1, (splitBytes (bytes - utf8Size a) text).2) := by
  induction a generalizing bytes with
  | nil => rfl
  | cons c a ih =>
    rw [utf8Size_cons] at h ⊢
    have hpos := c.utf8Size_pos
    rw [List.cons_append, splitBytes, if_neg (by omega), ih (by omega), Nat.sub_sub]
    rfl

theorem splice_append {es : List (Lexeme × List Char)}
    (h : ∀ e ∈ es, pos + utf8Size a ≤ e.1.offset) :
    splice pos es (a ++ text) = a ++ splice (pos + utf8Size a) es text := by
  cases es with
  | nil => rfl
  | cons e es =>
    have he := h e (List.mem_cons_self ..)
    simp only [splice]
    rw [splitBytes_append (by omega), Nat.sub_sub, List.append_assoc, List.append_assoc,
      List.append_assoc]

theorem splice_token (t : Token) (new : List Char) (es : List (Lexeme × List Char))
    (rest : List Char) :
    splice pos ((⟨t, pos⟩, new) :: es) (t.text ++ rest) =
      new ++ splice (pos + utf8Size t.text) es rest := by
  simp [splice, splitBytes_zero]

theorem gaps_append {found : List Lexeme} (h : ∀ x ∈ found, pos + utf8Size a ≤ x.offset) :
    gaps pos found (a ++ text) = (gaps (pos + utf8Size a) found text).modifyHead (a ++ ·) := by
  cases found with
  | nil => rfl
  | cons x found =>
    have hx := h x (List.mem_cons_self ..)
    simp only [gaps]
    rw [splitBytes_append (by omega), Nat.sub_sub]
    rfl

theorem gaps_token (t : Token) (found : List Lexeme) (rest : List Char) :
    gaps pos (⟨t, pos⟩ :: found) (t.text ++ rest) =
      [] :: gaps (pos + utf8Size t.text) found rest := by
  simp [gaps, splitBytes_zero]

end Splitting

theorem mem_of_mem_edits {rename : List Char → Option (List Char)} {found : List Lexeme}
    {e : Lexeme × List Char} (h : e ∈ edits rename found) : e.1 ∈ found := by
  obtain ⟨x, hx, he⟩ := List.mem_filterMap.mp h
  split at he
  · obtain ⟨new, -, rfl⟩ := Option.map_eq_some_iff.mp he
    exact hx
  · cases he

/-! ### Reading the spliced text -/

section Reading

variable {rename : List Char → Option (List Char)}

/-- The spliced text is read from any place as the text is, but for the new names. -/
structure Rereads (rename : List Char → Option (List Char)) (offset : Nat) (found : List Lexeme)
    (text out : List Char) : Prop where
  alike : AlikeText text out
  scan : ∀ offset' line, ∃ found', scan offset' line out = .ok found' ∧
    found'.map Lexeme.token = found.map (respelled rename ·.token) ∧
      gaps offset' found' out = gaps offset found text

namespace Rereads

variable {offset line : Nat} {found : List Lexeme} {c : Char} {r rest text out : List Char}
  {t : Token}

theorem nil : Rereads rename offset [] [] [] where
  alike := .refl []
  scan offset' line := ⟨[], by rw [Lua.scan], rfl, rfl⟩

theorem blank (hc : isBlank c = true) (hle : ∀ x ∈ found, offset + 1 ≤ x.offset)
    (h : Rereads rename (offset + 1) found r out) :
    Rereads rename offset found (c :: r) (c :: out) where
  alike := .cons c h.alike
  scan offset' line := by
    have hsize : utf8Size [c] = 1 := by simp [utf8Size_of_isBlank hc]
    obtain ⟨found', hscan, htokens, hgaps⟩ :=
      h.scan (offset' + 1) (if c = '\n' then line + 1 else line)
    refine ⟨found', by rw [Lua.scan, if_pos hc, hscan], htokens, ?_⟩
    have hle' := (Tiling.of_scan hscan).le_offset
    rw [← hsize] at hle hle' hgaps
    rw [← List.singleton_append, gaps_append hle', hgaps, ← gaps_append hle, List.singleton_append]

/-- In front of what is read already, a token that is read there. -/
theorem token {new : Token} {s : List Char} (hlexeme : new = respelled rename t)
    (htext : new.text = c :: s) (hblank : isBlank c = false)
    (hread : nextToken c (s ++ out) = .ok (new, out))
    (halike : AlikeText (t.text ++ rest) (new.text ++ out))
    (h : Rereads rename (offset + utf8Size t.text) found rest out) :
    Rereads rename offset (⟨t, offset⟩ :: found) (t.text ++ rest) (new.text ++ out) where
  alike := halike
  scan offset' line := by
    obtain ⟨found', hscan, htokens, hgaps⟩ :=
      h.scan (offset' + utf8Size new.text) (line + new.text.count '\n')
    refine ⟨⟨new, offset'⟩ :: found', ?_, ?_, ?_⟩
    · rw [htext, List.cons_append, scan_token hblank hread, hscan]
      rfl
    · rw [List.map_cons, List.map_cons, htokens, hlexeme]
    · rw [gaps_token, gaps_token, hgaps]

end Rereads

theorem edits_cons (rename : List Char → Option (List Char)) (x : Lexeme) (found : List Lexeme) :
    edits rename (x :: found) = edits rename [x] ++ edits rename found :=
  List.filterMap_append (l := [x])

/-- A token has an edit if it is a name with a new spelling, and otherwise it stays. -/
theorem edits_token (rename : List Char → Option (List Char)) (t : Token) (offset : Nat) :
    (∃ n new, t = .name n ∧ rename n = some new ∧ respelled rename t = .name new ∧
      edits rename [⟨t, offset⟩] = [(⟨t, offset⟩, new)]) ∨
    respelled rename t = t ∧ edits rename [⟨t, offset⟩] = [] := by
  cases t with
  | name n =>
    cases hnew : rename n with
    | none => exact .inr ⟨by simp [respelled, Token.respell, Token.text, hnew], by simp [edits, hnew]⟩
    | some new =>
      exact .inl ⟨n, new, rfl, hnew, by simp [respelled, Token.respell, Token.text, hnew],
        by simp [edits, hnew]⟩
  | _ => exact .inr ⟨rfl, rfl⟩

theorem rereads_splice (hrename : ∀ n new, rename n = some new → (Token.name new).Lexed)
    {offset line : Nat} {text : List Char} {found : List Lexeme}
    (h : scan offset line text = .ok found) :
    Rereads rename offset found text (splice offset (edits rename found) text) := by
  fun_induction scan offset line text generalizing found with
  | case1 => cases h; exact .nil
  | case2 offset line c r hc ih =>
    have hsize : utf8Size [c] = 1 := by simp [utf8Size_of_isBlank hc]
    have hle := (Tiling.of_scan h).le_offset
    have hedits : ∀ e ∈ edits rename found, offset + utf8Size [c] ≤ e.1.offset := fun e he =>
      hsize ▸ hle e.1 (mem_of_mem_edits he)
    rw [← List.singleton_append, splice_append hedits, hsize]
    exact .blank hc hle (ih h)
  | case3 => cases h
  | case4 offset line c r hc t rest hread more hscan ih =>
    cases h
    have hrest := ih hscan
    have hblank := not_isBlank_of_nextToken hread
    have happend := (nextToken_spec hread).2
    rw [← happend, edits_cons]
    rcases edits_token rename t offset with ⟨n, new, rfl, hnew, hrespelled, hedits⟩ |
      ⟨hrespelled, hedits⟩
    · rw [hedits, List.singleton_append, splice_token]
      have hstops : (Token.name new).Stops (splice (offset + utf8Size (Token.name n).text)
          (edits rename more) rest) := by
        have hany := not_isWordChar_of_name hread
        rw [hrest.alike.head?_any fun d hd => isWordChar_of_isNameStart hd] at hany
        exact fun d hd => by simpa [Option.mem_def.mp hd] using hany
      obtain ⟨d, s, htext, hblank', hread'⟩ := (hrename n new hnew).nextToken_text hstops
      obtain ⟨a, u, rfl, ha, -⟩ := (show (Token.name n).Lexed from ⟨c, r, rest, hread⟩).word
      obtain ⟨b, v, rfl, hb, -⟩ := (hrename _ _ hnew).word
      exact .token hrespelled.symm htext hblank' hread' (.word ha hb) hrest
    · have hle : ∀ e ∈ edits rename more, offset + utf8Size t.text ≤ e.1.offset := fun e he =>
        (Tiling.of_scan hscan).le_offset e.1 (mem_of_mem_edits he)
      obtain ⟨s, htext, hread'⟩ := nextToken_alike hread hrest.alike
      rw [hedits, List.nil_append, splice_append hle]
      exact .token hrespelled.symm htext hblank hread' (hrest.alike.append_left _) hrest
  | case5 => cases h

/-- A text with spliced names has the tokens of the text, respelled, and the same gaps. -/
theorem tokenize_splice (hrename : ∀ n new, rename n = some new → (Token.name new).Lexed)
    {text : List Char} {found : List Lexeme} (h : tokenize text = .ok found) :
    ∃ found', tokenize (splice 0 (edits rename found) text) = .ok found' ∧
      found'.map Lexeme.token = found.map (respelled rename ·.token) ∧
        gaps 0 found' (splice 0 (edits rename found) text) = gaps 0 found text := by
  unfold tokenize at h
  split at h
  · rename_i hhash
    have htext : text.takeWhile (· != '\n') ++ text.dropWhile (· != '\n') = text :=
      List.takeWhile_append_dropWhile
    have hrest := rereads_splice hrename h
    obtain ⟨hline, hbody⟩ := line_alike hrest.alike
    generalize text.takeWhile (· != '\n') = line at *
    generalize text.dropWhile (· != '\n') = body at *
    subst htext
    have hle : ∀ x ∈ found, 0 + utf8Size line ≤ x.offset := fun x hx => by
      simpa using (Tiling.of_scan h).le_offset x hx
    have hedits : ∀ e ∈ edits rename found, 0 + utf8Size line ≤ e.1.offset := fun e he =>
      hle e.1 (mem_of_mem_edits he)
    rw [splice_append hedits, gaps_append hle, Nat.zero_add]
    obtain ⟨found', hscan, htokens, hgaps⟩ := hrest.scan (utf8Size line) 1
    refine ⟨found', ?_, htokens, ?_⟩
    · rw [tokenize, if_pos (((hrest.alike.append_left line).head?_iff (by decide)).mp hhash), hline,
        hbody]
      exact hscan
    · rw [gaps_append (fun x hx => by simpa using (Tiling.of_scan hscan).le_offset x hx), Nat.zero_add, hgaps]
  · rename_i hhash
    have hrest := rereads_splice hrename h
    have hhash' : (splice 0 (edits rename found) text).head? ≠ some '#' :=
      mt (hrest.alike.head?_iff (by decide)).mpr hhash
    rw [tokenize, if_neg hhash']
    exact hrest.scan 0 1

end Reading

end LuaBundle.Obfuscation
