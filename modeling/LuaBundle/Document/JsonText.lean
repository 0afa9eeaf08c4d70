import LuaBundle.Document.Value

/-!
# Writing JSON

Strings are escaped only where the format demands it. The pretty form puts every item and member on
a line of its own, two spaces deeper than its container, and leaves empty containers on one line.
-/
namespace LuaBundle.Document.JsonText

def hexDigits : List Char :=
  ['0', '1', '2', '3', '4', '5', '6', '7', '8', '9', 'a', 'b', 'c', 'd', 'e', 'f']

def escapeChar (c : Char) : List Char :=
  match c with
  | '"' => ['\\', '"']
  | '\\' => ['\\', '\\']
  | '\x08' => ['\\', 'b']
  | '\x0c' => ['\\', 'f']
  | '\n' => ['\\', 'n']
  | '\r' => ['\\', 'r']
  | '\t' => ['\\', 't']
  | _ =>
    if c.toNat < 0x20 then
      ['\\', 'u', '0', '0'] ++
        [hexDigits.getD (c.toNat / 16) '0', hexDigits.getD (c.toNat % 16) '0']
    else [c]

def quote (s : String) : List Char := '"' :: s.toList.flatMap escapeChar ++ ['"']

/-- The digits of a decimal with its point moved by a power of ten that is not positive. -/
def pointed (digits : List Char) (places : Nat) : List Char :=
  let padded := List.replicate (places + 1 - digits.length) '0' ++ digits
  padded.take (padded.length - places) ++ '.' :: padded.drop (padded.length - places)

/-- A decimal in positional notation, with at least one digit on each side of its point. -/
def decimalText (mantissa exponent : Int) : List Char :=
  let digits := Nat.toDigits 10 mantissa.natAbs
  let body :=
    if exponent < 0 then pointed digits exponent.natAbs
    else digits ++ List.replicate exponent.natAbs '0' ++ ['.', '0']
  if mantissa < 0 then '-' :: body else body

def integerText (i : Int) : List Char :=
  if i < 0 then '-' :: Nat.toDigits 10 i.natAbs else Nat.toDigits 10 i.natAbs

def newline (depth : Nat) : List Char := '\n' :: List.replicate (2 * depth) ' '

mutual

def pretty (depth : Nat) : Value → List Char
  | .null => ['n', 'u', 'l', 'l']
  | .bool b => if b then ['t', 'r', 'u', 'e'] else ['f', 'a', 'l', 's', 'e']
  | .integer i => integerText i
  | .decimal m e => decimalText m e
  | .string s | .literal s => quote s
  | .list [] => ['[', ']']
  | .list (v :: vs) =>
    '[' :: newline (depth + 1) ++ pretty (depth + 1) v ++ prettyItems (depth + 1) vs ++
      newline depth ++ [']']
  | .table [] => ['\x7b', '\x7d']
  | .table ((name, v) :: ms) =>
    '\x7b' :: newline (depth + 1) ++ quote name ++ ':' :: ' ' :: pretty (depth + 1) v ++
      prettyMembers (depth + 1) ms ++ newline depth ++ ['\x7d']

def prettyItems (depth : Nat) : List Value → List Char
  | [] => []
  | v :: vs => ',' :: newline depth ++ pretty depth v ++ prettyItems depth vs

def prettyMembers (depth : Nat) : List (String × Value) → List Char
  | [] => []
  | (name, v) :: ms =>
    ',' :: newline depth ++ quote name ++ ':' :: ' ' :: pretty depth v ++ prettyMembers depth ms

end

mutual

/-- The whole value on one line, without spaces. -/
def compact : Value → List Char
  | .null => ['n', 'u', 'l', 'l']
  | .bool b => if b then ['t', 'r', 'u', 'e'] else ['f', 'a', 'l', 's', 'e']
  | .integer i => integerText i
  | .decimal m e => decimalText m e
  | .string s | .literal s => quote s
  | .list [] => ['[', ']']
  | .list (v :: vs) => '[' :: compact v ++ compactItems vs ++ [']']
  | .table [] => ['\x7b', '\x7d']
  | .table ((name, v) :: ms) =>
    '\x7b' :: quote name ++ ':' :: compact v ++ compactMembers ms ++ ['\x7d']

def compactItems : List Value → List Char
  | [] => []
  | v :: vs => ',' :: compact v ++ compactItems vs

def compactMembers : List (String × Value) → List Char
  | [] => []
  | (name, v) :: ms => ',' :: quote name ++ ':' :: compact v ++ compactMembers ms

end

end LuaBundle.Document.JsonText
