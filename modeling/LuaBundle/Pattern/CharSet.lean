import LuaBundle.Text.Blank
import LuaBundle.Text.Case
import LuaBundle.Text.DecimalDigit
import LuaBundle.Text.WordChar

/-!
# Sets of characters

Sets are built from ranges and from properties of characters. The classes of ASCII characters that
have names are sets of ranges.
-/
namespace LuaBundle.Pattern

inductive CharSet where
  | nothing
  | range (first last : Char)
  | digit
  | blank
  | word
  /-- The characters that fold to another one. -/
  | capital
  | complement (s : CharSet)
  | union (s t : CharSet)
  | intersection (s t : CharSet)
  | difference (s t : CharSet)
  | symmetricDifference (s t : CharSet)
  /-- The set with all characters that differ from one of it only in case. -/
  | caseless (s : CharSet)
  | caselessAscii (s : CharSet)
  deriving DecidableEq, Repr

namespace CharSet

def holds : CharSet → Char → Bool
  | nothing, _ => false
  | range first last, c => first ≤ c && c ≤ last
  | digit, c => Text.isDecimalDigit c
  | blank, c => Text.isBlank c
  | word, c => Text.isWord c
  | capital, c => Text.foldCode c.toNat != c.toNat
  | complement s, c => !s.holds c
  | union s t, c => s.holds c || t.holds c
  | intersection s t, c => s.holds c && t.holds c
  | difference s t, c => s.holds c && !t.holds c
  | symmetricDifference s t, c => s.holds c != t.holds c
  | caseless s, c => (Text.sameCase c).any s.holds
  | caselessAscii s, c => (Text.sameCaseAscii c).any s.holds

def single (c : Char) : CharSet := range c c

def everything : CharSet := complement nothing

def ofRanges (ranges : List (Char × Char)) : CharSet :=
  ranges.foldr (fun r s => union (range r.1 r.2) s) nothing

@[simp] theorem holds_single (c d : Char) : (single c).holds d = decide (d = c) := by
  have : c ≤ d ∧ d ≤ c ↔ d = c := by
    rw [Char.le_def, Char.le_def, ← Char.val_inj]
    exact ⟨fun ⟨h, k⟩ => UInt32.le_antisymm k h, fun h => by simp [h]⟩
  simp only [single, holds, ← this, Bool.decide_and]

@[simp] theorem holds_everything (c : Char) : everything.holds c = true := rfl

theorem holds_ofRanges (ranges : List (Char × Char)) (c : Char) :
    (ofRanges ranges).holds c = ranges.any fun r => r.1 ≤ c && c ≤ r.2 := by
  induction ranges with
  | nil => rfl
  | cons r rest ih => simp [ofRanges, holds, ← ih]

def ascii : CharSet := range '\x00' '\x7f'

def asciiDigit : CharSet := range '0' '9'

def asciiUpper : CharSet := range 'A' 'Z'

def asciiLower : CharSet := range 'a' 'z'

def asciiLetter : CharSet := union asciiUpper asciiLower

def asciiWord : CharSet := ofRanges [('0', '9'), ('A', 'Z'), ('_', '_'), ('a', 'z')]

def asciiBlank : CharSet := ofRanges [('\t', '\r'), (' ', ' ')]

def punctuationMarks : CharSet := ofRanges [('!', '/'), (':', '@'), ('[', '\x60'), ('\x7b', '~')]

/-- The classes that are written by name between colons in brackets. -/
def named : List (String × CharSet) :=
  [("alnum", union asciiDigit asciiLetter), ("alpha", asciiLetter), ("ascii", ascii),
    ("blank", ofRanges [('\t', '\t'), (' ', ' ')]),
    ("cntrl", ofRanges [('\x00', '\x1f'), ('\x7f', '\x7f')]), ("digit", asciiDigit),
    ("graph", range '!' '~'), ("lower", asciiLower), ("print", range ' ' '~'),
    ("punct", punctuationMarks), ("space", asciiBlank), ("upper", asciiUpper),
    ("word", asciiWord), ("xdigit", ofRanges [('0', '9'), ('A', 'F'), ('a', 'f')])]

/-- Beyond ASCII, a letter is a word character that is no digit. -/
def letter : CharSet :=
  union asciiLetter (difference (difference word digit) ascii)

/-- Symbols among the marks of ASCII; the others are punctuation. -/
def symbolMarks : CharSet :=
  ofRanges [('$', '$'), ('+', '+'), ('<', '>'), ('^', '^'), ('\x60', '\x60'), ('|', '|'), ('~', '~')]

/-- The properties that a pattern can name. Punctuation and symbols are known in ASCII only. -/
def properties : List (List String × CharSet) :=
  [(["any"], everything), (["ascii"], ascii),
    (["l", "letter", "alphabetic", "alpha"], letter),
    (["lu", "uppercaseletter", "uppercase", "upper"], intersection letter capital),
    (["ll", "lowercaseletter", "lowercase", "lower"],
      difference (caseless (intersection letter capital)) capital),
    (["n", "number", "nd", "decimalnumber", "digit"], digit),
    (["whitespace", "space", "wspace"], blank),
    (["z", "separator", "zs", "spaceseparator"],
      difference blank (ofRanges [('\t', '\r'), ('\x85', '\x85')])),
    (["p", "punctuation", "punct"], difference punctuationMarks symbolMarks),
    (["s", "symbol"], symbolMarks),
    (["cc", "control", "cntrl"], ofRanges [('\x00', '\x1f'), ('\x7f', '\x9f')])]

/-- The case of a property's name does not count, nor do spaces, hyphens and underscores in it. -/
def property? (name : List Char) : Option CharSet :=
  let plain := (name.filter fun c => !(c == ' ' || c == '-' || c == '_')).map Char.toLower
  (properties.find? fun p => p.1.any (·.toList == plain)).map Prod.snd

end CharSet

end LuaBundle.Pattern
