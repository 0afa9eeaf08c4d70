import LuaBundle.Text.Blank
import LuaBundle.Text.WordChar

/-!
# Require calls

The identifiers that a text requires by literal calls with parentheses. The scan looks at the text
alone: a call inside a comment or a string counts too.
-/
namespace LuaBundle.Lua

def isIdChar (c : Char) : Bool := Text.isWord c || c == '.' || c == '/' || c == '-'

def afterMark? (mark text : List Char) : Option (List Char) :=
  if mark.isPrefixOf text then some (text.drop mark.length) else none

/-- What follows a quote of either kind; the two quotes of a call need not agree. -/
def afterQuote? : List Char → Option (List Char)
  | c :: r => if c = '\'' ∨ c = '"' then some r else none
  | [] => none

/-- The identifier at the front of the text, if it is not empty, and what follows it. -/
def identifier? (text : List Char) : Option (List Char × List Char) :=
  match text.takeWhile isIdChar with
  | [] => none
  | c :: id => some (c :: id, text.dropWhile isIdChar)

/-- The identifier of the call at the front of the text, and what follows the call. -/
def requireCall? (text : List Char) : Option (List Char × List Char) := do
  let r ← afterMark? ['r', 'e', 'q', 'u', 'i', 'r', 'e'] text
  let r ← afterMark? ['('] (r.dropWhile Text.isBlank)
  let r ← afterQuote? (r.dropWhile Text.isBlank)
  let (id, r) ← identifier? r
  let r ← afterQuote? r
  let r ← afterMark? [')'] (r.dropWhile Text.isBlank)
  pure (id, r)

theorem afterMark?_length {mark text rest : List Char} (h : afterMark? mark text = some rest) :
    rest.length ≤ text.length := by
  unfold afterMark? at h
  split at h <;> grind

theorem afterQuote?_length {text rest : List Char} (h : afterQuote? text = some rest) :
    rest.length < text.length := by
  unfold afterQuote? at h
  grind

theorem dropWhile_length_le {α : Type} (p : α → Bool) (l : List α) :
    (l.dropWhile p).length ≤ l.length := (List.dropWhile_suffix p).length_le

theorem identifier?_length {text id rest : List Char} (h : identifier? text = some (id, rest)) :
    rest.length ≤ text.length := by
  unfold identifier? at h
  split at h
  · cases h
  · cases h; exact dropWhile_length_le ..

theorem requireCall?_length {text id rest : List Char} (h : requireCall? text = some (id, rest)) :
    rest.length < text.length := by
  simp only [requireCall?, Option.bind_eq_bind, Option.bind_eq_some_iff] at h
  obtain ⟨a, ha, b, hb, c, hc, ⟨i, r⟩, hi, d, hd, e, he, heq⟩ := h
  cases heq
  have h1 := afterMark?_length ha
  have h2 := Nat.le_trans (afterMark?_length hb) (dropWhile_length_le ..)
  have h3 := Nat.lt_of_lt_of_le (afterQuote?_length hc) (dropWhile_length_le ..)
  have h4 := identifier?_length hi
  have h5 : d.length < r.length := afterQuote?_length hd
  have h6 := Nat.le_trans (afterMark?_length he) (dropWhile_length_le ..)
  omega

/-- The required identifiers from left to right, repeated ones included. -/
def findRequires : List Char → List (List Char)
  | [] => []
  | c :: r =>
    match _h : requireCall? (c :: r) with
    | some (id, rest) => id :: findRequires rest
    | none => findRequires r
termination_by text => text.length
decreasing_by
  · exact requireCall?_length _h
  · simp

end LuaBundle.Lua
