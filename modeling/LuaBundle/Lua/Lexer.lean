import LuaBundle.Lua.Token

/-!
# Lexing

`nextToken` reads one token from the front of a text, and `scan` repeats it between blanks. Every
scanner splits its input in two, so a token's text followed by what is left is the input again
(`nextToken_spec`); this is also why `scan` ends.
-/
namespace LuaBundle.Lua

/-- What may be left open at the end of a text. -/
inductive Construct where
  | longComment
  | longString
  | shortString
  deriving DecidableEq, Repr

inductive LexFault where
  | unexpected (c : Char)
  | unfinished (what : Construct)
  deriving DecidableEq, Repr

structure LexError where
  fault : LexFault
  /-- Counted from one; for an open construct, the line on which it begins. -/
  line : Nat
  deriving DecidableEq, Repr

def Construct.title : Construct → String
  | longComment => "long comment"
  | longString => "long string"
  | shortString => "string"

def LexFault.message : LexFault → String
  | unexpected c => s!"unexpected character '{c}'"
  | unfinished what => s!"unfinished {what.title}"

def LexError.message (e : LexError) : String := s!"{e.fault.message} at line {e.line}"

/-- A token and the number of bytes before it. -/
structure Lexeme where
  token : Token
  offset : Nat
  deriving DecidableEq, Repr

def utf8Size : List Char → Nat
  | [] => 0
  | c :: cs => c.utf8Size + utf8Size cs

@[simp] theorem utf8Size_nil : utf8Size [] = 0 := rfl

@[simp] theorem utf8Size_cons (c : Char) (cs : List Char) :
    utf8Size (c :: cs) = c.utf8Size + utf8Size cs := rfl

@[simp] theorem utf8Size_append (a b : List Char) :
    utf8Size (a ++ b) = utf8Size a + utf8Size b := by
  induction a with
  | nil => simp
  | cons c cs ih => simp [ih, Nat.add_assoc]

def isBlank (c : Char) : Bool :=
  c == ' ' || c == '\t' || c == '\r' || c == '\n' || c == '\x0b' || c == '\x0c'

def isWordChar (c : Char) : Bool := c.isAlphanum || c == '_'

def isNameStart (c : Char) : Bool := c.isAlpha || c == '_'

/-- Put a character in front of the first part of a split text. -/
def onto (c : Char) (split : List Char × List Char) : List Char × List Char :=
  (c :: split.1, split.2)

@[simp] theorem onto_append (c : Char) (split : List Char × List Char) :
    (onto c split).1 ++ (onto c split).2 = c :: (split.1 ++ split.2) := rfl

/-- The rest of a short string after its opening quote, up to its closing quote. A backslash takes
the next character with it, whatever that is. -/
def shortRest? (quote : Char) : List Char → Option (List Char × List Char)
  | [] => none
  | '\\' :: d :: r => (shortRest? quote r).map fun split => onto '\\' (onto d split)
  | c :: r =>
    if c = '\n' then none
    else if c = quote then some ([c], r)
    else (shortRest? quote r).map (onto c)

theorem shortRest?_append {quote : Char} {input : List Char} {split : List Char × List Char}
    (h : shortRest? quote input = some split) : split.1 ++ split.2 = input := by
  fun_induction shortRest? quote input generalizing split with
  | case1 => simp at h
  | case2 d r ih =>
    obtain ⟨s, hs, rfl⟩ := Option.map_eq_some_iff.mp h
    simp [ih hs]
  | case3 => simp at h
  | case4 => cases h; rfl
  | case5 c r _ _ _ ih =>
    obtain ⟨s, hs, rfl⟩ := Option.map_eq_some_iff.mp h
    simp [ih hs]

/-- The text up to the end of the first occurrence of `mark`, and what follows. -/
def throughFirst? (mark : List Char) : List Char → Option (List Char × List Char)
  | [] => none
  | c :: r =>
    if mark.isPrefixOf (c :: r) then some (mark, (c :: r).drop mark.length)
    else (throughFirst? mark r).map (onto c)

theorem throughFirst?_append {mark input : List Char} {split : List Char × List Char}
    (h : throughFirst? mark input = some split) : split.1 ++ split.2 = input := by
  fun_induction throughFirst? mark input generalizing split with
  | case1 => simp at h
  | case2 c r hp =>
    obtain ⟨rest, hr⟩ := List.isPrefixOf_iff_prefix.mp hp
    cases h
    rw [← hr]
    simp
  | case3 c r _ ih =>
    obtain ⟨s, hs, rfl⟩ := Option.map_eq_some_iff.mp h
    simp [ih hs]

/-- The number of equals signs in the long bracket that opens the text. -/
def longLevel? : List Char → Option Nat
  | '[' :: r =>
    match r.dropWhile (· == '=') with
    | '[' :: _ => some (r.takeWhile (· == '=')).length
    | _ => none
  | _ => none

def longClose (level : Nat) : List Char := ']' :: List.replicate level '=' ++ [']']

/-- A long bracket of the given level, from its opening to its close. -/
def longBracket? (level : Nat) (input : List Char) : Option (List Char × List Char) :=
  (throughFirst? (longClose level) (input.drop (level + 2))).map fun split =>
    (input.take (level + 2) ++ split.1, split.2)

theorem longBracket?_append {level : Nat} {input : List Char} {split : List Char × List Char}
    (h : longBracket? level input = some split) : split.1 ++ split.2 = input := by
  obtain ⟨s, hs, rfl⟩ := Option.map_eq_some_iff.mp h
  rw [List.append_assoc, throughFirst?_append hs, List.take_append_drop]

theorem longBracket?_ne_nil {level : Nat} {c : Char} {r : List Char}
    {split : List Char × List Char} (h : longBracket? level (c :: r) = some split) :
    split.1 ≠ [] := by
  obtain ⟨s, -, rfl⟩ := Option.map_eq_some_iff.mp h
  simp

/-- A numeral goes on over letters, digits, underscores and dots. A sign belongs to it directly
after an exponent letter, and two dots in a row are the concatenation operator. -/
def numeralRun (isExponent : Char → Bool) : List Char → List Char × List Char
  | [] => ([], [])
  | [c] => if isWordChar c || c == '.' then ([c], []) else ([], [c])
  | c :: d :: r =>
    if isExponent c && (d == '+' || d == '-') then onto c (onto d (numeralRun isExponent r))
    else if (isWordChar c || c == '.') && !(c == '.' && d == '.') then
      onto c (numeralRun isExponent (d :: r))
    else ([], c :: d :: r)

theorem numeralRun_append (isExponent : Char → Bool) (input : List Char) :
    (numeralRun isExponent input).1 ++ (numeralRun isExponent input).2 = input := by
  fun_induction numeralRun isExponent input <;> simp_all

def isDecimalExponent (c : Char) : Bool := c == 'e' || c == 'E'

def isHexExponent (c : Char) : Bool := c == 'p' || c == 'P'

/-- What belongs to a numeral after its first character. -/
def numeralRest (c : Char) : List Char → List Char × List Char
  | [] => ([], [])
  | d :: r =>
    if c = '0' ∧ (d = 'x' ∨ d = 'X') then onto d (numeralRun isHexExponent r)
    else numeralRun isDecimalExponent (d :: r)

theorem numeralRest_append (c : Char) (r : List Char) :
    (numeralRest c r).1 ++ (numeralRest c r).2 = r := by
  unfold numeralRest
  split
  · rfl
  · split <;> simp [numeralRun_append]

/-- A comment after its two dashes: a long bracket, or the rest of the line. -/
def commentRest (r : List Char) : Except LexFault (List Char × List Char) :=
  match longLevel? r with
  | some level =>
    match longBracket? level r with
    | some split => .ok split
    | none => .error (.unfinished .longComment)
  | none => .ok (r.takeWhile (· != '\n'), r.dropWhile (· != '\n'))

theorem commentRest_append {r : List Char} {split : List Char × List Char}
    (h : commentRest r = .ok split) : split.1 ++ split.2 = r := by
  unfold commentRest at h
  split at h
  · split at h
    · next hl => cases h; exact longBracket?_append hl
    · cases h
  · cases h; exact List.takeWhile_append_dropWhile

def ofWord (word : List Char) : Token :=
  match Keyword.ofText? word with
  | some k => .keyword k
  | none => .name word

@[simp] theorem ofWord_text (word : List Char) : (ofWord word).text = word := by
  unfold ofWord
  split
  · next h => exact Keyword.text_of_ofText? h
  · rfl

/-- The token at the front of `c :: r`, where `c` is no blank, and what follows it. -/
def nextToken (c : Char) (r : List Char) : Except LexFault (Token × List Char) :=
  if c = '-' ∧ r.head? = some '-' then
    match commentRest r.tail with
    | .ok split => .ok (.comment ('-' :: '-' :: split.1), split.2)
    | .error fault => .error fault
  else if let some level := longLevel? (c :: r) then
    match longBracket? level (c :: r) with
    | some split => .ok (.string split.1, split.2)
    | none => .error (.unfinished .longString)
  else if c = '"' ∨ c = '\'' then
    match shortRest? c r with
    | some split => .ok (.string (c :: split.1), split.2)
    | none => .error (.unfinished .shortString)
  else if c.isDigit ∨ c = '.' ∧ r.head?.any Char.isDigit then
    .ok (.number (c :: (numeralRest c r).1), (numeralRest c r).2)
  else if isNameStart c then
    .ok (ofWord (c :: r.takeWhile isWordChar), r.dropWhile isWordChar)
  else
    match Symbol.leading? (c :: r) with
    | some s => .ok (.symbol s, (c :: r).drop s.text.length)
    | none => .error (.unexpected c)

/-- A token's text is not empty, and with the rest it makes up the input. -/
theorem nextToken_spec {c : Char} {r rest : List Char} {t : Token}
    (h : nextToken c r = .ok (t, rest)) : t.text ≠ [] ∧ t.text ++ rest = c :: r := by
  unfold nextToken at h
  split at h
  · next hc =>
    split at h
    · next split hs =>
      cases h
      refine ⟨by simp [Token.text], ?_⟩
      cases r with
      | nil => simp at hc
      | cons d r' =>
        obtain ⟨hc, hd⟩ := hc
        have hd : d = '-' := by simpa using hd
        simpa [Token.text, hc, hd] using commentRest_append hs
    · cases h
  split at h
  · split at h
    · next hl =>
      cases h
      exact ⟨longBracket?_ne_nil hl, longBracket?_append hl⟩
    · cases h
  split at h
  · split at h
    · next hs =>
      cases h
      exact ⟨by simp [Token.text], by simp [Token.text, shortRest?_append hs]⟩
    · cases h
  split at h
  · cases h
    exact ⟨by simp [Token.text], by simp [Token.text, numeralRest_append]⟩
  split at h
  · cases h
    exact ⟨by simp, by simp [List.takeWhile_append_dropWhile]⟩
  split at h
  · next hs =>
    cases h
    exact ⟨Symbol.text_ne_nil _, Symbol.text_append_drop hs⟩
  · cases h

theorem nextToken_length {c : Char} {r rest : List Char} {t : Token}
    (h : nextToken c r = .ok (t, rest)) : rest.length < (c :: r).length := by
  obtain ⟨hne, happ⟩ := nextToken_spec h
  have hl := congrArg List.length happ
  have hp := List.length_pos_iff.mpr hne
  rw [List.length_append] at hl
  omega

/-- Scan on from a byte offset and a line number. -/
def scan (offset line : Nat) : List Char → Except LexError (List Lexeme)
  | [] => .ok []
  | c :: r =>
    if isBlank c then scan (offset + 1) (if c = '\n' then line + 1 else line) r
    else
      match _h : nextToken c r with
      | .error fault => .error ⟨fault, line⟩
      | .ok (t, rest) =>
        match scan (offset + utf8Size t.text) (line + t.text.count '\n') rest with
        | .ok found => .ok (⟨t, offset⟩ :: found)
        | .error e => .error e
termination_by input => input.length
decreasing_by
  · simp
  · exact nextToken_length _h

/-- The tokens of a text, comments included. A first line that begins with `#` is no code. -/
def tokenize (source : List Char) : Except LexError (List Lexeme) :=
  if source.head? = some '#' then
    scan (utf8Size (source.takeWhile (· != '\n'))) 1 (source.dropWhile (· != '\n'))
  else scan 0 1 source

/-- The tokens that the printers and the scope walk look at. -/
def codeTokens (source : List Char) : Except LexError (List Token) :=
  (tokenize source).map fun found => (found.map Lexeme.token).filter (!·.isComment)

end LuaBundle.Lua
