import LuaBundle.Lua.Rename
import LuaBundle.Lua.Spacing

/-!
# Printing a chunk

Two printers over one token stream, both without comments: `minify` leaves out every space that the
lexer does not need, `beautify` writes one statement on a line under a banner.
-/
namespace LuaBundle.Lua

inductive FormatFault where
  | lexical (error : LexError)
  | scope (fault : ScopeFault)
  deriving DecidableEq, Repr

def FormatFault.message : FormatFault → String
  | lexical e => e.message
  | scope f => f.message

/-- Pair each token with its new spelling, if it has one. -/
def pieces (tokens : List Token) (renamed : List (Option (List Char))) : List Piece :=
  List.zipWith (fun t r => ⟨t, r.getD t.text⟩) tokens renamed

/-- The tokens of a source and how to spell them. -/
def prepare (options : RenameOptions) (source : List Char) :
    Except FormatFault (List Token × List Piece) :=
  match codeTokens source with
  | .error e => .error (.lexical e)
  | .ok tokens =>
    match plan options tokens with
    | .error f => .error (.scope f)
    | .ok renamed => .ok (tokens, pieces tokens renamed)

def packed : List (List Char) → List Char
  | [] => []
  | [a] => a
  | a :: b :: rest => a ++ (if needsSpace a b then [' '] else []) ++ packed (b :: rest)

def minify (options : RenameOptions) (source : List Char) : Except FormatFault (List Char) :=
  (prepare options source).map fun (_, ps) => packed (ps.map Piece.text)

def bannerText : String := "--[[ formatted by luapack ]]\n"

def indent (depth : Nat) : List Char := List.replicate (4 * depth) ' '

/-- What is written before a token: a line break and indentation where a statement starts. -/
def lead (earlier : Option Token) (prev : Option Piece) (piece : Piece) (m : Mark) : List Char :=
  if m.start then (if prev.isSome then ['\n'] else []) ++ indent m.depth
  else
    match prev with
    | some p => if readsWithSpace earlier p piece then [' '] else []
    | none => []

def lines (earlier : Option Token) (prev : Option Piece) : List Piece → List Mark → List Char
  | p :: ps, m :: ms =>
    lead earlier prev p m ++ p.text ++ lines (prev.map Piece.token) (some p) ps ms
  | _, _ => []

def beautify (options : RenameOptions) (source : List Char) : Except FormatFault (List Char) :=
  (prepare options source).map fun (tokens, ps) =>
    bannerText.toList ++ lines none none ps (layout tokens) ++ ['\n']

end LuaBundle.Lua
