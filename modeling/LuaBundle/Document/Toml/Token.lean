import LuaBundle.Document.Toml.Quoted

/-!
# Tokens of TOML

Strings are read to their values. Bare keys and unquoted scalars are words; a scalar that has a point
or a space in it goes over several tokens.
-/
namespace LuaBundle.Document.Toml

inductive Token where
  | newline
  | space (text : List Char)
  | dot
  | equals
  | comma
  /-- Whether another bracket of the kind follows at once. -/
  | bracketOpen (doubled : Bool)
  | bracketClose (doubled : Bool)
  | braceOpen
  | braceClose
  | word (text : List Char)
  | quoted (q : Quoted)
  deriving DecidableEq, Repr

/-- Every carriage return stands right before a line feed. -/
def returnsPaired : List Char → Bool
  | [] => true
  | '\r' :: r => r.head? == some '\n' && returnsPaired r
  | _ :: r => returnsPaired r

def isWordChar (c : Char) : Bool := c.isAlphanum || c == '_' || c == '-' || c == '+' || c == ':'

def symbol? (following : Option Char) : Char → Option Token
  | '\n' => some .newline
  | '.' => some .dot
  | '=' => some .equals
  | ',' => some .comma
  | '[' => some (.bracketOpen (following == some '['))
  | ']' => some (.bracketClose (following == some ']'))
  | '\x7b' => some .braceOpen
  | '\x7d' => some .braceClose
  | _ => none

/-- What a token adds to an unquoted scalar. -/
def Token.scalarPart? : Token → Option (List Char)
  | .word text | .space text => some text
  | .dot => some ['.']
  | _ => none

/-- One token, with the text after it. -/
def token? : List Char → Option (Token × List Char)
  | [] => none
  | c :: r =>
    match symbol? r.head? c with
    | some t => some (t, r)
    | none =>
      if isSpace c then some (.space (c :: r.takeWhile isSpace), r.dropWhile isSpace)
      else if isWordChar c then some (.word (c :: r.takeWhile isWordChar), r.dropWhile isWordChar)
      else (string? (c :: r)).map fun (q, rest) => (.quoted q, rest)

theorem token?_length {text rest : List Char} {t : Token} (h : token? text = some (t, rest)) :
    rest.length < text.length := by
  unfold token? at h
  split at h
  · cases h
  · next c r =>
    split at h
    · cases h; simp
    · split at h
      · cases h
        have := (List.dropWhile_suffix (l := r) isSpace).length_le
        simp
        omega
      split at h
      · cases h
        have := (List.dropWhile_suffix (l := r) isWordChar).length_le
        simp
        omega
      · obtain ⟨⟨q, r'⟩, hq, he⟩ := Option.map_eq_some_iff.mp h
        cases he
        exact string?_length hq

def tokens? : List Char → Option (List Token)
  | [] => some []
  | c :: r =>
    if c = '#' then
      if (r.takeWhile (· != '\n')).all fun c => isPlain c || c == '\r' then tokens? (r.dropWhile (· != '\n')) else none
    else
      match _h : token? (c :: r) with
      | some (t, rest) => (tokens? rest).map (t :: ·)
      | none => none
termination_by text => text.length
decreasing_by
  · exact Nat.lt_succ_of_le (List.dropWhile_suffix _).length_le
  · exact token?_length _h

end LuaBundle.Document.Toml
