import LuaBundle.Text.Hex

/-!
# Strings of TOML

Strings are written in one or three quotes of either kind. A backslash escapes only between double
quotes. Every scanner gives what it leaves of the text.
-/
namespace LuaBundle.Document.Toml

structure Quoted where
  text : String
  multiline : Bool
  deriving DecidableEq, Repr

/-- A carriage return stands only before a line feed, and counts as a space there. -/
def isSpace (c : Char) : Bool := c == ' ' || c == '\t' || c == '\r'

/-- What may stand in a comment, and unescaped in a string on one line. -/
def isPlain (c : Char) : Bool := c == '\t' || 0x20 ≤ c.toNat && c != '\x7f'

/-- What may stand unescaped in a string over several lines. -/
def isPlainOrBreak (c : Char) : Bool := isPlain c || c == '\r' || c == '\n'

def onto (c : Char) (found : Option (List Char × List Char)) : Option (List Char × List Char) :=
  found.map fun (text, rest) => (c :: text, rest)

/-- An escaped character, and what is left after it. -/
def escape? : List Char → Option (Char × List Char)
  | 'u' :: a :: b :: c :: d :: r => (Text.ofHex? [a, b, c, d]).map (·, r)
  | 'U' :: a :: b :: c :: d :: e :: f :: g :: h :: r => (Text.ofHex? [a, b, c, d, e, f, g, h]).map (·, r)
  | 'x' :: a :: b :: r => (Text.ofHex? [a, b]).map (·, r)
  | '"' :: r => some ('"', r)
  | '\\' :: r => some ('\\', r)
  | 'b' :: r => some ('\x08', r)
  | 'e' :: r => some ('\x1b', r)
  | 'f' :: r => some ('\x0c', r)
  | 'n' :: r => some ('\n', r)
  | 'r' :: r => some ('\r', r)
  | 't' :: r => some ('\t', r)
  | _ => none

theorem escape?_length {text rest : List Char} {c : Char} (h : escape? text = some (c, rest)) :
    rest.length < text.length := by
  unfold escape? at h
  split at h <;> simp_all <;> grind

/-- The rest of a string in double quotes. -/
def basic? : List Char → Option (List Char × List Char)
  | [] => none
  | c :: r =>
    if c = '"' then some ([], r)
    else if c = '\\' then
      match _h : escape? r with
      | some (e, rest) => onto e (basic? rest)
      | none => none
    else if isPlain c then onto c (basic? r)
    else none
termination_by text => text.length
decreasing_by
  · have := escape?_length _h; simp; omega
  · simp

/-- The rest of a string in single quotes. -/
def literal? : List Char → Option (List Char × List Char)
  | [] => none
  | c :: r =>
    if c = '\'' then some ([], r) else if isPlain c then onto c (literal? r) else none

/-- Up to two quotes may stand right before the three that close a string. -/
def closing? (quote : Char) (text : List Char) : Option (List Char × List Char) :=
  let quotes := (text.takeWhile (· == quote)).length
  if quotes < 3 then none
  else
    let inner := Nat.min (quotes - 3) 2
    some (List.replicate inner quote, text.drop (inner + 3))

/-- What follows a backslash at the end of a line, without the white space up to the next word. -/
def joinedLine? (text : List Char) : Option (List Char) :=
  match text.dropWhile isSpace with
  | '\n' :: r => some (r.dropWhile fun c => isSpace c || c == '\n')
  | _ => none

theorem joinedLine?_length {text rest : List Char} (h : joinedLine? text = some rest) :
    rest.length < text.length := by
  unfold joinedLine? at h
  have hd := (List.dropWhile_suffix (l := text) isSpace).length_le
  split at h
  · next r hr =>
    have hr' := (List.dropWhile_suffix (l := r) fun c => isSpace c || c == '\n').length_le
    simp only [Option.some.injEq] at h
    rw [hr] at hd
    simp only [List.length_cons] at hd
    rw [h] at hr'
    omega
  · cases h

def multilineBasic? : List Char → Option (List Char × List Char)
  | [] => none
  | c :: r =>
    match closing? '"' (c :: r) with
    | some found => some found
    | none =>
      if c = '\\' then
        match _hj : joinedLine? r with
        | some rest => multilineBasic? rest
        | none =>
          match _he : escape? r with
          | some (e, rest) => onto e (multilineBasic? rest)
          | none => none
      else if isPlainOrBreak c then onto c (multilineBasic? r)
      else none
termination_by text => text.length
decreasing_by
  · have := joinedLine?_length _hj; simp; omega
  · have := escape?_length _he; simp; omega
  · simp

def multilineLiteral? : List Char → Option (List Char × List Char)
  | [] => none
  | c :: r =>
    match closing? '\'' (c :: r) with
    | some found => some found
    | none => if isPlainOrBreak c then onto c (multilineLiteral? r) else none

def dropNewline : List Char → List Char
  | '\n' :: r | '\r' :: '\n' :: r => r
  | r => r

def withText (multiline : Bool) (found : Option (List Char × List Char)) :
    Option (Quoted × List Char) :=
  found.map fun (s, rest) => (⟨String.ofList s, multiline⟩, rest)

/-- A string of any kind. A line break right after three quotes does not count. -/
def string? : List Char → Option (Quoted × List Char)
  | '"' :: '"' :: '"' :: r => withText true (multilineBasic? (dropNewline r))
  | '\'' :: '\'' :: '\'' :: r => withText true (multilineLiteral? (dropNewline r))
  | '"' :: r => withText false (basic? r)
  | '\'' :: r => withText false (literal? r)
  | _ => none

theorem onto_length {c : Char} {found : Option (List Char × List Char)} {s rest : List Char}
    (h : onto c found = some (s, rest)) : ∃ s', found = some (s', rest) := by
  cases found with
  | none => cases h
  | some p => obtain ⟨a, b⟩ := p; simp [onto] at h; exact ⟨a, by rw [h.2]⟩

theorem closing?_length {quote : Char} {text s rest : List Char}
    (h : closing? quote text = some (s, rest)) : rest.length ≤ text.length := by
  simp only [closing?] at h
  split at h
  · cases h
  · simp only [Option.some.injEq, Prod.mk.injEq] at h
    rw [← h.2, List.length_drop]
    omega

theorem basic?_length {text s rest : List Char} (h : basic? text = some (s, rest)) :
    rest.length ≤ text.length := by
  fun_induction basic? text generalizing s with
  | case1 => cases h
  | case2 => simp_all
  | case3 r e r' he _ ih =>
    obtain ⟨s', hs⟩ := onto_length h
    have := ih hs
    have := escape?_length he
    simp
    omega
  | case4 => cases h
  | case5 c r _ _ _ ih =>
    obtain ⟨s', hs⟩ := onto_length h
    have := ih hs
    simp
    omega
  | case6 => cases h

theorem literal?_length {text s rest : List Char} (h : literal? text = some (s, rest)) :
    rest.length ≤ text.length := by
  fun_induction literal? text generalizing s with
  | case1 => cases h
  | case2 => simp_all
  | case3 c r _ _ ih =>
    obtain ⟨s', hs⟩ := onto_length h
    have := ih hs
    simp
    omega
  | case4 => cases h

theorem multilineBasic?_length {text s rest : List Char}
    (h : multilineBasic? text = some (s, rest)) : rest.length ≤ text.length := by
  fun_induction multilineBasic? text generalizing s with
  | case1 => cases h
  | case2 c r found hc => cases h; exact closing?_length hc
  | case3 r r' hj _ ih =>
    have := ih h
    have := joinedLine?_length hj
    simp
    omega
  | case4 r _ e r' he _ ih =>
    obtain ⟨s', hs⟩ := onto_length h
    have := ih hs
    have := escape?_length he
    simp
    omega
  | case5 => cases h
  | case6 c r _ _ _ ih =>
    obtain ⟨s', hs⟩ := onto_length h
    have := ih hs
    simp
    omega
  | case7 => cases h

theorem multilineLiteral?_length {text s rest : List Char}
    (h : multilineLiteral? text = some (s, rest)) : rest.length ≤ text.length := by
  fun_induction multilineLiteral? text generalizing s with
  | case1 => cases h
  | case2 c r found hc => cases h; exact closing?_length hc
  | case3 c r _ _ ih =>
    obtain ⟨s', hs⟩ := onto_length h
    have := ih hs
    simp
    omega
  | case4 => cases h

theorem withText_eq_some {multiline : Bool} {found : Option (List Char × List Char)} {q : Quoted}
    {rest : List Char} (h : withText multiline found = some (q, rest)) :
    ∃ s, found = some (s, rest) := by
  cases found with
  | none => cases h
  | some p => obtain ⟨a, b⟩ := p; simp [withText] at h; exact ⟨a, by rw [h.2]⟩

theorem dropNewline_length (text : List Char) : (dropNewline text).length ≤ text.length := by
  unfold dropNewline
  split <;> grind

theorem string?_length {text rest : List Char} {q : Quoted} (h : string? text = some (q, rest)) :
    rest.length < text.length := by
  unfold string? at h
  split at h
  · next r =>
    obtain ⟨s, hs⟩ := withText_eq_some h
    have := multilineBasic?_length hs
    have := dropNewline_length r
    simp
    omega
  · next r =>
    obtain ⟨s, hs⟩ := withText_eq_some h
    have := multilineLiteral?_length hs
    have := dropNewline_length r
    simp
    omega
  · obtain ⟨s, hs⟩ := withText_eq_some h
    have := basic?_length hs
    simp
    omega
  · obtain ⟨s, hs⟩ := withText_eq_some h
    have := literal?_length hs
    simp
    omega
  · cases h

end LuaBundle.Document.Toml
