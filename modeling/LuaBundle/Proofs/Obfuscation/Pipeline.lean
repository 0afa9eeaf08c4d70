import LuaBundle.Proofs.Obfuscation.Printed
import LuaBundle.Proofs.Obfuscation.TagReplacement

/-!
# The pipeline renames without collisions

The printers put tags in the place of planned names, and the tags are replaced by fresh names. A text
without tags of its own keeps the names that are not planned.
-/
namespace LuaBundle.Obfuscation

open Lua

/-- What becomes of a token and its planned replacement. -/
inductive Obfuscated : Token × Option (List Char) → Token → Prop
  | kept (t : Token) : Obfuscated (t, none) t
  | renamed (n tag new : List Char) : Obfuscated (.name n, some tag) (.name new)

/-- Two tokens have the same replacement, or none and the same text. -/
def SameName (p q : Token × Option (List Char)) : Prop :=
  (∃ tag, p.2 = some tag ∧ q.2 = some tag) ∨ (p.2 = none ∧ q.2 = none ∧ p.1.text = q.1.text)

theorem Prints.tokenize {tokens : List Token} {renamed : List (Option (List Char))}
    {printed : List Char} (h : Prints tokens renamed printed) :
    ∃ found, tokenize printed = .ok found ∧
      found.map Lexeme.token = List.zipWith Token.respell tokens renamed := by
  have hscan := h.scans 0 1
  rw [Lua.tokenize, if_neg h.no_shebang]
  cases hfound : scan 0 1 printed with
  | error e =>
    rw [hfound] at hscan
    cases hscan
  | ok found =>
    rw [hfound] at hscan
    exact ⟨found, rfl, Except.ok.inj hscan⟩

theorem run_ok {s : Settings} {draws : Draws} {text chunk out : List Char}
    (hrenames : s.renames = true) (hencodes : s.encodes = false)
    (hout : run s draws text chunk = .ok out) :
    ∃ printed, reprint s text = .ok printed ∧
      (replaceTags printed (.new draws s.rename.min s.rename.max)).1 = .ok out := by
  unfold run at hout
  cases hprint : reprint s text with
  | error e =>
    rw [hprint] at hout
    cases hout
  | ok printed =>
    have hnames : replaceNames s draws printed =
        (replaceTags printed (.new draws s.rename.min s.rename.max)).1 := if_pos hrenames
    refine ⟨printed, rfl, ?_⟩
    rw [hprint] at hout
    change (replaceNames s draws printed >>= _) = _ at hout
    rw [hnames, hencodes] at hout
    cases hreplaced : (replaceTags printed (.new draws s.rename.min s.rename.max)).1 with
    | error e =>
      rw [hreplaced] at hout
      cases hout
    | ok replaced =>
      rw [hreplaced] at hout
      exact hout

/-- The tokens of what the pipeline returns. -/
theorem run_tokens {s : Settings} {draws : Draws} {text chunk out : List Char} {tokens : List Token}
    (hrenames : s.renames = true)
    (hencodes : s.encodes = false) (htokens : codeTokens text = .ok tokens)
    (hhash : tokens.head? ≠ some (.symbol .hash))
    (hjoins : tokens.IsChain fun t u => t.joinsNumeral u = false)
    (hapart : s.minifies = true → tokens.IsChain fun t u => t.merges u = false)
    (hout : run s draws text chunk = .ok out) :
    ∃ renamed read rename found, plan ⟨true, true⟩ tokens = .ok renamed ∧
      read.map Lexeme.token = List.zipWith Token.respell tokens renamed ∧
      Untags (.new draws s.rename.min s.rename.max) (nameTexts read) rename ∧
      tokenize out = .ok found ∧
      found.map Lexeme.token =
        (List.zipWith Token.respell tokens renamed).map (respelled rename) := by
  obtain ⟨printed, hprint, hreplace⟩ := run_ok hrenames hencodes hout
  obtain ⟨renamed, hplan, -, hprints⟩ := reprint_ok hrenames htokens hhash hjoins hapart hprint
  obtain ⟨read, hread, hprinted⟩ := hprints.tokenize
  obtain ⟨rename, found, huntags, hfound, hrenamed, -⟩ := tokenize_replaceTags hread hreplace
  refine ⟨renamed, read, rename, found, hplan, hprinted, huntags, hfound, ?_⟩
  rw [← hprinted, hrenamed, List.map_map]
  rfl

section Rows

variable {g : Generator} {names : List (List Char)} {rename : List Char → Option (List Char)}
  {t : Token} {n m : List Char} {r r' : Option (List Char)}

/-- A name is printed as a tag exactly if it has a replacement. -/
theorem isTag_printed (hlexed : (Token.name n).Lexed) (hreplaces : Replaces (.name n) r)
    (htag : isTag n = false) : isTag (r.getD n) = r.isSome := by
  cases r with
  | none => exact htag
  | some text =>
    obtain ⟨n', letter, number, hn, hletter, rfl⟩ := hreplaces text rfl
    obtain rfl := Token.name.inj hn
    exact isTag_tag hletter hlexed

theorem sameName_iff (h : isTag (r.getD n) = r.isSome) (h' : isTag (r'.getD m) = r'.isSome) :
    r.getD n = r'.getD m ↔ SameName (.name n, r) (.name m, r') := by
  cases r with
  | none =>
    cases r' with
    | none => simp [SameName, Token.text]
    | some tag' =>
      have hne : n ≠ tag' := by
        rintro rfl
        exact Bool.false_ne_true (h.symm.trans h')
      simp [SameName, hne]
  | some tag =>
    cases r' with
    | none =>
      have hne : tag ≠ m := by
        rintro rfl
        exact Bool.false_ne_true (h'.symm.trans h)
      simp [SameName, hne]
    | some tag' => simp [SameName, eq_comm]

theorem Untags.obfuscated (huntags : Untags g names rename) (hreplaces : Replaces t r)
    (htag : t.isName = true → isTag t.text = false) :
    Obfuscated (t, r) (respelled rename (t.respell r)) := by
  cases r with
  | none =>
    cases t with
    | name n =>
      rw [Token.respell_name, respelled_name, Option.getD_none, huntags.kept n (htag rfl)]
      exact .kept _
    | _ => exact .kept _
  | some text =>
    obtain ⟨n, letter, number, rfl, -, -⟩ := hreplaces text rfl
    rw [Token.respell_name, respelled_name]
    exact .renamed ..

end Rows

end LuaBundle.Obfuscation
