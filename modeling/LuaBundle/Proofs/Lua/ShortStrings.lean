import LuaBundle.Proofs.Lua.Breaks
import LuaBundle.Text.Hex

/-!
# Short strings

The manual's short strings, escape by escape. The lexer takes one character with a backslash, so it
stops at a line feed that another character stands in front of: behind `\z`, or behind the carriage
return of a line break. A string without such a line feed is one token.
-/
namespace LuaBundle.Lua

open Text (hexDigit?)

def decimalValue (digits : List Char) : Nat :=
  digits.foldl (fun n d => 10 * n + (d.toNat - '0'.toNat)) 0

def hexValue (digits : List Char) : Nat :=
  digits.foldl (fun n d => 16 * n + (hexDigit? d).getD 0) 0

/-- `Escape x r`: the text `x` is an escape if `r` stands behind it. -/
inductive Escape : List Char → List Char → Prop
  | letter {c : Char} {r : List Char}
      (hc : c ∈ ['a', 'b', 'f', 'n', 'r', 't', 'v', '\\', '"', '\'']) : Escape ['\\', c] r
  /-- The code of a byte in two hexadecimal digits. -/
  | byte {a b : Char} {r : List Char} (ha : (hexDigit? a).isSome = true)
      (hb : (hexDigit? b).isSome = true) : Escape ['\\', 'x', a, b] r
  /-- The same in up to three decimal digits, as many as there are. -/
  | decimal {d : Char} {ds r : List Char} (hdigits : ∀ e ∈ d :: ds, e.isDigit = true)
      (hcount : ds.length ≤ 2) (hall : ds.length = 2 ∨ ∀ e ∈ r.head?, e.isDigit = false)
      (hvalue : decimalValue (d :: ds) ≤ 255) : Escape ('\\' :: d :: ds) r
  | code {ds r : List Char} (hdigits : ∀ e ∈ ds, (hexDigit? e).isSome = true) (hne : ds ≠ [])
      (hvalue : hexValue ds < 2 ^ 31) : Escape ('\\' :: 'u' :: '\x7b' :: (ds ++ ['\x7d'])) r
  | skip {w r : List Char} (hw : ∀ b ∈ w, isBlank b = true) : Escape ('\\' :: 'z' :: w) r
  | line {l r : List Char} (hl : l ∈ [['\n'], ['\r'], ['\r', '\n'], ['\n', '\r']]) :
      Escape ('\\' :: l) r

/-- What stands between the quotes. -/
inductive StringBody (quote : Char) : List Char → Prop
  | nil : StringBody quote []
  | char {c : Char} {r : List Char} (hquote : c ≠ quote) (hslash : c ≠ '\\') (hfeed : c ≠ '\n')
      (hreturn : c ≠ '\r') (hr : StringBody quote r) : StringBody quote (c :: r)
  | escape {x r : List Char} (hx : Escape x r) (hr : StringBody quote r) : StringBody quote (x ++ r)

/-- The text is a string in single or double quotes. -/
def IsShortString (text : List Char) : Prop :=
  ∃ quote body, (quote = '"' ∨ quote = '\'') ∧ StringBody quote body ∧
    text = quote :: (body ++ [quote])

/-- Some line feed does not stand directly behind a backslash. -/
def HasBareFeed (text : List Char) : Prop :=
  ∃ a b, text = a ++ '\n' :: b ∧ a.getLast? ≠ some '\\'

theorem hasBareFeed_iff {text : List Char} : HasBareFeed text ↔
    ∃ i ∈ List.range text.length, text[i]? = some '\n' ∧ (text.take i).getLast? ≠ some '\\' := by
  constructor
  · rintro ⟨a, b, rfl, ha⟩
    exact ⟨a.length, by simp, by simp, by simpa using ha⟩
  · rintro ⟨i, -, hi, ha⟩
    obtain ⟨hlt, hi⟩ := List.getElem?_eq_some_iff.mp hi
    refine ⟨text.take i, text.drop (i + 1), ?_, ha⟩
    rw [← hi, List.getElem_cons_drop, List.take_append_drop]

instance (text : List Char) : Decidable (HasBareFeed text) :=
  decidable_of_iff _ hasBareFeed_iff.symm

/-! ### Line feeds -/

section Feeds

variable {x r : List Char}

theorem not_hasBareFeed (h : '\n' ∉ x) : ¬ HasBareFeed x := by
  rintro ⟨a, b, rfl, -⟩
  exact h (by simp)

theorem hasBareFeed_append (hr : r.head? ≠ some '\n') :
    HasBareFeed (x ++ r) ↔ HasBareFeed x ∨ HasBareFeed r := by
  constructor
  · rintro ⟨a, b, heq, ha⟩
    rcases List.append_eq_append_iff.mp heq with ⟨c, rfl, hr'⟩ | ⟨c, rfl, hb⟩
    · cases c with
      | nil =>
        rw [List.nil_append] at hr'
        exact absurd (congrArg List.head? hr') hr
      | cons d c =>
        refine .inr ⟨d :: c, b, hr', ?_⟩
        rwa [List.getLast?_append_of_ne_nil _ (by simp)] at ha
    · cases c with
      | nil =>
        rw [List.nil_append] at hb
        exact absurd (congrArg List.head? hb.symm) hr
      | cons d c =>
        obtain ⟨rfl, -⟩ := List.cons.inj hb
        exact .inl ⟨a, c, rfl, ha⟩
  · rintro (⟨a, b, rfl, ha⟩ | ⟨a, b, rfl, ha⟩)
    · exact ⟨a, b ++ r, by simp, ha⟩
    · cases a with
      | nil => exact absurd rfl hr
      | cons d a =>
        refine ⟨x ++ d :: a, b, by simp, ?_⟩
        rwa [List.getLast?_append_of_ne_nil _ (by simp)]

end Feeds

/-- A string does not begin with a line break. -/
theorem StringBody.head?_ne {quote c : Char} {body : List Char} (h : StringBody quote body)
    (hc : c = '\n' ∨ c = '\r') : body.head? ≠ some c := by
  cases h with
  | nil => simp
  | char _ _ hfeed hreturn => rcases hc with rfl | rfl <;> simpa
  | escape hx => rcases hc with rfl | rfl <;> cases hx <;> simp

theorem hasBareFeed_quoted {quote : Char} {body : List Char} (hquote : quote ≠ '\n')
    (hbody : StringBody quote body) :
    HasBareFeed (quote :: (body ++ [quote])) ↔ HasBareFeed body := by
  have hone : ¬ HasBareFeed [quote] := not_hasBareFeed (by simpa using hquote.symm)
  have hfront : HasBareFeed (quote :: (body ++ [quote])) ↔
      HasBareFeed [quote] ∨ HasBareFeed (body ++ [quote]) := by
    refine hasBareFeed_append (x := [quote]) ?_
    cases body with
    | nil => simpa using hquote
    | cons c body => exact hbody.head?_ne (.inl rfl)
  rw [hfront, hasBareFeed_append (by simpa using hquote)]
  simp [hone]

/-! ### Escapes -/

/-- The lexer takes the text as a part of a string. -/
def Taken (quote : Char) (x : List Char) : Prop :=
  ∀ r, shortRest? quote (x ++ r) = (shortRest? quote r).map fun s => (x ++ s.1, s.2)

/-- The lexer stops within the text. -/
def Stuck (quote : Char) (x : List Char) : Prop := ∀ r, shortRest? quote (x ++ r) = none

section Escapes

variable {quote c : Char} {x y r : List Char}

theorem Taken.nil : Taken quote [] := by
  intro r
  cases h : shortRest? quote r <;> simp [h]

theorem Taken.append (hx : Taken quote x) (hy : Taken quote y) : Taken quote (x ++ y) := by
  intro r
  rw [List.append_assoc, hx, hy]
  cases shortRest? quote r <;> simp

theorem Taken.stuck (hx : Taken quote x) (hy : Stuck quote y) : Stuck quote (x ++ y) := by
  intro r
  rw [List.append_assoc, hx, hy]
  rfl

theorem taken_pair (quote c : Char) : Taken quote ['\\', c] := by
  intro r
  rw [List.cons_append, List.cons_append, shortRest?]
  rfl

theorem passes_char (hquote : c ≠ quote) (hslash : c ≠ '\\') (hfeed : c ≠ '\n') :
    Taken quote [c] := by
  intro r
  rw [List.singleton_append, shortRest?, if_neg hfeed, if_neg hquote]
  · rfl
  · intro d s hcontra
    exact absurd hcontra hslash

theorem taken_chars (h : ∀ d ∈ x, d ≠ quote ∧ d ≠ '\\' ∧ d ≠ '\n') : Taken quote x := by
  induction x with
  | nil => exact .nil
  | cons d x ih =>
    obtain ⟨⟨hquote, hslash, hfeed⟩, hx⟩ := List.forall_mem_cons.mp h
    exact (passes_char hquote hslash hfeed).append (ih hx)

theorem stuck_feed (quote : Char) (x : List Char) : Stuck quote ('\n' :: x) := by
  intro r
  rw [List.cons_append, shortRest?, if_pos rfl]
  intro d s hcontra
  cases hcontra

/-- A quote, a backslash or a line feed. -/
def isMark (c : Char) : Bool := c == '"' || c == '\'' || c == '\\' || c == '\n'

theorem passes_of_isMark (hquote : quote = '"' ∨ quote = '\'') (h : ∀ d ∈ x, isMark d = false) :
    Taken quote x := by
  refine taken_chars fun d hd => ?_
  have hmark : ((d ≠ '"' ∧ d ≠ '\'') ∧ d ≠ '\\') ∧ d ≠ '\n' := by simpa [isMark] using h d hd
  obtain ⟨⟨⟨hdouble, hsingle⟩, hslash⟩, hfeed⟩ := hmark
  refine ⟨?_, hslash, hfeed⟩
  rcases hquote with rfl | rfl <;> assumption

theorem not_isMark {p : Char → Prop} (hp : ∀ d, isMark d = true → ¬ p d) (h : p c) :
    isMark c = false := by
  by_contra hmark
  exact hp c (by simpa using hmark) h

theorem eq_of_isMark (h : isMark c = true) : c = '"' ∨ c = '\'' ∨ c = '\\' ∨ c = '\n' := by
  simpa [isMark, or_assoc] using h

theorem not_isMark_of_isDigit (h : c.isDigit = true) : isMark c = false := by
  refine not_isMark (p := fun c => c.isDigit = true) (fun d hd => ?_) h
  rcases eq_of_isMark hd with rfl | rfl | rfl | rfl <;> decide

theorem not_isMark_of_hexDigit? (h : (hexDigit? c).isSome = true) : isMark c = false := by
  refine not_isMark (p := fun c => (hexDigit? c).isSome = true) (fun d hd => ?_) h
  rcases eq_of_isMark hd with rfl | rfl | rfl | rfl <;> decide

theorem not_isMark_of_isBlank (h : isBlank c = true ∧ c ≠ '\n') : isMark c = false := by
  refine not_isMark (p := fun c => isBlank c = true ∧ c ≠ '\n') (fun d hd => ?_) h
  rcases eq_of_isMark hd with rfl | rfl | rfl | rfl <;> decide

/-- The text is a part of the string for the lexer, or a bare line feed in it stops the lexer. -/
def Heeds (quote : Char) (x : List Char) : Prop :=
  ¬ HasBareFeed x ∧ Taken quote x ∨ HasBareFeed x ∧ Stuck quote x

theorem Heeds.append (hx : Heeds quote x) (hy : Heeds quote y) (hhead : y.head? ≠ some '\n') :
    Heeds quote (x ++ y) := by
  have hfeed := hasBareFeed_append (x := x) hhead
  rcases hx with ⟨hx, hpass⟩ | ⟨hx, hblock⟩
  · rcases hy with ⟨hy, hpass'⟩ | ⟨hy, hblock⟩
    · exact .inl ⟨fun h => (hfeed.mp h).elim hx hy, hpass.append hpass'⟩
    · exact .inr ⟨hfeed.mpr (.inr hy), hpass.stuck hblock⟩
  · refine .inr ⟨hfeed.mpr (.inl hx), fun r => ?_⟩
    rw [List.append_assoc]
    exact hblock _

theorem heeds_pair (quote c : Char) : Heeds quote ['\\', c] := by
  refine .inl ⟨?_, taken_pair quote c⟩
  rintro ⟨a, b, heq, ha⟩
  -- a line feed could stand only behind the backslash
  rcases a with _ | ⟨d, _ | ⟨e, a⟩⟩
  · cases heq
  · cases heq
    exact ha rfl
  · simp at heq

theorem heeds_of_isMark (hquote : quote = '"' ∨ quote = '\'') (h : ∀ d ∈ x, isMark d = false) :
    Heeds quote x :=
  .inl ⟨not_hasBareFeed fun hmem => absurd (h _ hmem) (by decide), passes_of_isMark hquote h⟩

theorem Escape.heeds (hquote : quote = '"' ∨ quote = '\'') (h : Escape x r) : Heeds quote x := by
  -- behind its first two characters there is none that the lexer minds
  have hplain : ∀ {d : Char} {y : List Char}, (∀ e ∈ y, isMark e = false) →
      Heeds quote ('\\' :: d :: y) := by
    intro d y hy
    refine (heeds_pair quote d).append (heeds_of_isMark hquote hy) fun hhead => ?_
    exact absurd (hy _ (List.mem_of_mem_head? hhead)) (by decide)
  cases h with
  | letter => exact hplain (by simp)
  | byte ha hb =>
    exact hplain (by simpa using ⟨not_isMark_of_hexDigit? ha, not_isMark_of_hexDigit? hb⟩)
  | decimal hdigits =>
    obtain ⟨-, hds⟩ := List.forall_mem_cons.mp hdigits
    exact hplain fun e he => not_isMark_of_isDigit (hds e he)
  | code hdigits =>
    refine hplain fun e he => ?_
    rcases List.mem_cons.mp he with rfl | he
    · rfl
    rcases List.mem_append.mp he with he | he
    · exact not_isMark_of_hexDigit? (hdigits e he)
    · rw [List.mem_singleton.mp he]
      rfl
  | @skip w _ hw =>
    by_cases hfeed : '\n' ∈ w
    · obtain ⟨a, b, rfl, ha⟩ := List.eq_append_cons_of_mem hfeed
      have hblank : ∀ e ∈ a, isMark e = false := fun e he =>
        not_isMark_of_isBlank ⟨hw e (by simp [he]), fun heq => ha (heq ▸ he)⟩
      have hlast : ('\\' :: 'z' :: a).getLast? ≠ some '\\' := by
        rw [List.getLast?_cons_cons]
        intro hlast
        rcases List.mem_cons.mp (List.mem_of_getLast? hlast) with hz | hmem
        · cases hz
        · exact absurd (hblank _ hmem) (by decide)
      have hpass := (taken_pair quote 'z').append (passes_of_isMark hquote hblank)
      exact .inr ⟨⟨_, b, rfl, hlast⟩, hpass.stuck (stuck_feed quote b)⟩
    · refine hplain fun e he => not_isMark_of_isBlank ⟨hw e he, ?_⟩
      rintro rfl
      exact hfeed he
  | line hl =>
    simp only [List.mem_cons, List.not_mem_nil, or_false] at hl
    rcases hl with rfl | rfl | rfl | rfl
    · exact hplain (by simp)
    · exact hplain (by simp)
    · exact .inr ⟨⟨['\\', '\r'], [], rfl, by decide⟩,
        (taken_pair quote '\r').stuck (stuck_feed quote [])⟩
    · exact hplain (by simp [isMark])

theorem StringBody.heeds (hquote : quote = '"' ∨ quote = '\'') (h : StringBody quote x) :
    Heeds quote x := by
  induction h with
  | nil => exact .inl ⟨not_hasBareFeed (by simp), .nil⟩
  | @char c r hne hslash hfeed _ hr ih =>
    have hone : Heeds quote [c] :=
      .inl ⟨not_hasBareFeed (by simpa using hfeed.symm), passes_char hne hslash hfeed⟩
    exact hone.append ih (hr.head?_ne (.inl rfl))
  | escape hx hr ih => exact (hx.heeds hquote).append ih (hr.head?_ne (.inl rfl))

end Escapes

/-! ### Strings as tokens -/

theorem nextToken_unfinished {quote : Char} {r : List Char} (hquote : quote = '"' ∨ quote = '\'')
    (h : shortRest? quote r = none) : nextToken quote r = .error (.unfinished .shortString) := by
  have hlevel : longLevel? (quote :: r) = none := by
    rcases hquote with rfl | rfl <;> rfl
  rw [nextToken, if_neg (by rintro ⟨rfl, -⟩; simp at hquote), hlevel]
  simp only
  rw [if_pos hquote, h]

/-- A short string is one token, except that the lexer takes it for unfinished where a line feed in
it does not stand directly behind a backslash. -/
theorem tokenize_short_string {text : List Char} (h : IsShortString text) :
    tokenize text = if HasBareFeed text then .error ⟨.unfinished .shortString, 1⟩
      else .ok [⟨.string text, 0⟩] := by
  obtain ⟨quote, body, hquote, hbody, rfl⟩ := h
  have hfeed : quote ≠ '\n' := by rcases hquote with rfl | rfl <;> decide
  have hblank : isBlank quote = false := by rcases hquote with rfl | rfl <;> rfl
  have hhash : (quote :: (body ++ [quote])).head? ≠ some '#' := by
    rcases hquote with rfl | rfl <;> simp
  have hclose : shortRest? quote [quote] = some ([quote], []) := by
    rcases hquote with rfl | rfl <;> rfl
  have hbare := hasBareFeed_quoted hfeed hbody
  rw [tokenize, if_neg hhash]
  rcases hbody.heeds hquote with ⟨hnone, hpass⟩ | ⟨hsome, hblock⟩
  · have hread := hpass [quote]
    rw [hclose] at hread
    rw [if_neg (fun h => hnone (hbare.mp h)), scan_token hblank (nextToken_quote hquote hread),
      scan]
    rfl
  · rw [if_pos (hbare.mpr hsome)]
    exact scan_fault hblank (nextToken_unfinished hquote (hblock [quote]))

/-- A line break behind a backslash is a part of the string; one that `\z` skips leaves it
unfinished for the lexer. -/
theorem skipped_feed_unfinished :
    (IsShortString "'é\\065\\\n\\z \\''".toList ∧
      tokenize "'é\\065\\\n\\z \\''".toList = .ok [⟨.string "'é\\065\\\n\\z \\''".toList, 0⟩]) ∧
    IsShortString "\"a\\z\n b\"".toList ∧
      tokenize "\"a\\z\n b\"".toList = .error ⟨.unfinished .shortString, 1⟩ := by
  have hkept : IsShortString "'é\\065\\\n\\z \\''".toList := by
    refine ⟨'\'', "é\\065\\\n\\z \\'".toList, .inr rfl, ?_, rfl⟩
    refine .char (by decide) (by decide) (by decide) (by decide) ?_
    refine .escape (x := ['\\', '0', '6', '5'])
      (.decimal (by simp [Char.isDigit]) (by decide) (.inl rfl) (by decide)) ?_
    refine .escape (x := ['\\', '\n']) (.line (l := ['\n']) (by simp)) ?_
    refine .escape (x := ['\\', 'z', ' ']) (.skip (w := [' ']) (by simp [isBlank])) ?_
    exact .escape (x := ['\\', '\'']) (.letter (by decide)) .nil
  have hskipped : IsShortString "\"a\\z\n b\"".toList := by
    refine ⟨'"', "a\\z\n b".toList, .inl rfl, ?_, rfl⟩
    refine .char (by decide) (by decide) (by decide) (by decide) ?_
    refine .escape (x := ['\\', 'z', '\n', ' ']) (.skip (w := ['\n', ' ']) (by simp [isBlank])) ?_
    exact .char (by decide) (by decide) (by decide) (by decide) .nil
  exact ⟨⟨hkept, (tokenize_short_string hkept).trans (if_neg (by decide))⟩,
    hskipped, (tokenize_short_string hskipped).trans (if_pos (by decide))⟩

end LuaBundle.Lua
