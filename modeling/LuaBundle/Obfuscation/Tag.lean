import LuaBundle.Text.DecimalDigit
import LuaBundle.Text.WordChar

/-!
# The shape of a tag

A tag is `L` or `G`, an underscore, decimal digits, an underscore, and any further word characters,
with no word character before it.
-/
namespace LuaBundle.Obfuscation

def beginsTag : List Char → Bool
  | c :: '_' :: r =>
    (c == 'L' || c == 'G') && !(r.takeWhile Text.isDecimalDigit).isEmpty &&
      (r.dropWhile Text.isDecimalDigit).head? == some '_'
  | _ => false

/-- Whether a tag begins somewhere in the text, where `inWord` tells of a word character before. -/
def hasTagsFrom (inWord : Bool) : List Char → Bool
  | [] => false
  | c :: r => !inWord && beginsTag (c :: r) || hasTagsFrom (Text.isWord c) r

def hasTags (text : List Char) : Bool := hasTagsFrom false text

/-- Whether the whole of a name is one tag. -/
def isTag (name : List Char) : Bool := beginsTag name && name.all Text.isWord

theorem hasTags_of_isTag {name : List Char} (h : isTag name) : hasTags name := by
  cases name with
  | nil => simp [isTag, beginsTag] at h
  | cons c r =>
    simp only [isTag, Bool.and_eq_true] at h
    simp [hasTags, hasTagsFrom, h.1]

end LuaBundle.Obfuscation
