import LuaBundle.Lua.Lexer

/-!
# Spaces between tokens

`needsSpace` is decided on the spellings of two neighbours, `readsWithSpace` on the tokens: the
second only adds spaces that make a line easier to read.
-/
namespace LuaBundle.Lua

def looksNumeric : List Char → Bool
  | '.' :: d :: _ => d.isDigit
  | c :: _ => c.isDigit
  | [] => false

/-- Two characters that read as one symbol when nothing stands between them. -/
def fuses (last first : Char) : Bool :=
  match first with
  | '=' => last == '=' || last == '~' || last == '<' || last == '>' || last == '['
  | '<' => last == '<'
  | '>' => last == '>'
  | '/' => last == '/'
  | ':' => last == ':'
  | '.' => last == '.'
  | '-' => last == '-'
  | '[' => last == '['
  | _ => false

/-- Whether two spellings, written without a space, would be read differently. -/
def needsSpace (a b : List Char) : Bool :=
  match a.getLast?, b.head? with
  | some last, some first =>
    isWordChar last && isWordChar first || first == '.' && looksNumeric a || fuses last first
  | _, _ => false

/-- A token to print: its spelling may be a new name. -/
structure Piece where
  token : Token
  text : List Char
  deriving DecidableEq, Repr

def hugsLeft : Token → Bool
  | .symbol .comma | .symbol .semicolon | .symbol .parenClose | .symbol .bracketClose
  | .symbol .dot | .symbol .colon => true
  | _ => false

def hugsRight : Token → Bool
  | .symbol .parenOpen | .symbol .bracketOpen | .symbol .dot | .symbol .colon
  | .symbol .hash => true
  | _ => false

/-- Whether a space stands between `prev` and `piece` on a line, where `earlier` stands before
`prev`. A call or an index follows its callee directly, and so does an operand its unary minus. -/
def readsWithSpace (earlier : Option Token) (prev piece : Piece) : Bool :=
  if needsSpace prev.text piece.text then true
  else if hugsLeft piece.token || hugsRight prev.token then false
  else if (piece.token == .symbol .parenOpen || piece.token == .symbol .bracketOpen) &&
      !(prev.token matches .keyword _) then !prev.token.endsExpression
  else !(prev.token == .symbol .minus && !earlier.any Token.endsExpression)

end LuaBundle.Lua
