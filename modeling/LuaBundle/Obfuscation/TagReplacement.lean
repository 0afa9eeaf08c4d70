import LuaBundle.Failure
import LuaBundle.Lua.Lexer
import LuaBundle.Obfuscation.Identifier

/-!
# Replacing tags

Every name token that is a tag is replaced by a generated name, the same one wherever the tag
occurs. All other text stays as it is, tags in strings and comments included.
-/
namespace LuaBundle.Obfuscation

open Lua (Lexeme Token)

/-- Split a text after its first `bytes` bytes, which end at a character's end. -/
def splitBytes (bytes : Nat) : List Char → List Char × List Char
  | [] => ([], [])
  | c :: r =>
    if bytes = 0 then ([], c :: r)
    else Lua.onto c (splitBytes (bytes - c.utf8Size) r)

/-- Put new texts in the place of lexemes, where the text begins at byte `pos` of the source. -/
def splice (pos : Nat) : List (Lexeme × List Char) → List Char → List Char
  | [], text => text
  | (x, new) :: edits, text =>
    let (copied, rest) := splitBytes (x.offset - pos) text
    copied ++ new ++
      splice (x.offset + Lua.utf8Size x.token.text) edits (rest.drop x.token.text.length)

/-- A generated name for each tag, in the order in which the tags first occur. -/
def assignNames (g : Generator) (assigned : List (List Char × List Char)) :
    List (List Char) → Option (List (List Char × List Char)) × Generator
  | [] => (some assigned, g)
  | tag :: tags =>
    if (assigned.lookup tag).isSome then assignNames g assigned tags
    else
      match g.generate with
      | (some name, g) => assignNames g (assigned ++ [(tag, name)]) tags
      | (none, g) => (none, g)

def nameLexemes (found : List Lexeme) : List Lexeme := found.filter (·.token.isName)

/-- Names of the text that are no tags are reserved before the first name is generated. A text
without tags draws nothing. -/
def replaceTags (text : List Char) (g : Generator) : Except Failure (List Char) × Generator :=
  if hasTags text then
    match Lua.tokenize text with
    | .error e => (.error (.format e.message), g)
    | .ok found =>
      let (tags, names) := (nameLexemes found).partition (isTag ·.token.text)
      if tags.isEmpty then (.ok text, g)
      else
        match assignNames (g.reserve (names.map (·.token.text))) [] (tags.map (·.token.text)) with
        | (none, g) => (.error (.generationExhausted maxAttempts), g)
        | (some assigned, g) =>
          (.ok (splice 0 (tags.map fun x => (x, (assigned.lookup x.token.text).getD [])) text), g)
  else (.ok text, g)

end LuaBundle.Obfuscation
