/-!
# Tokens of Lua 5.4

A token is told apart by its kind, and the kinds with a fixed spelling (keywords and symbols) are
enumerations. `Token.text` is the spelling that a printer writes.
-/
namespace LuaBundle.Lua

inductive Keyword where
  | andKw | breakKw | doKw | elseKw | elseifKw | endKw | falseKw | forKw | functionKw | gotoKw
  | ifKw | inKw | localKw | nilKw | notKw | orKw | repeatKw | returnKw | thenKw | trueKw
  | untilKw | whileKw
  deriving DecidableEq, Repr

namespace Keyword

def text : Keyword → List Char
  | andKw => ['a', 'n', 'd']
  | breakKw => ['b', 'r', 'e', 'a', 'k']
  | doKw => ['d', 'o']
  | elseKw => ['e', 'l', 's', 'e']
  | elseifKw => ['e', 'l', 's', 'e', 'i', 'f']
  | endKw => ['e', 'n', 'd']
  | falseKw => ['f', 'a', 'l', 's', 'e']
  | forKw => ['f', 'o', 'r']
  | functionKw => ['f', 'u', 'n', 'c', 't', 'i', 'o', 'n']
  | gotoKw => ['g', 'o', 't', 'o']
  | ifKw => ['i', 'f']
  | inKw => ['i', 'n']
  | localKw => ['l', 'o', 'c', 'a', 'l']
  | nilKw => ['n', 'i', 'l']
  | notKw => ['n', 'o', 't']
  | orKw => ['o', 'r']
  | repeatKw => ['r', 'e', 'p', 'e', 'a', 't']
  | returnKw => ['r', 'e', 't', 'u', 'r', 'n']
  | thenKw => ['t', 'h', 'e', 'n']
  | trueKw => ['t', 'r', 'u', 'e']
  | untilKw => ['u', 'n', 't', 'i', 'l']
  | whileKw => ['w', 'h', 'i', 'l', 'e']

def all : List Keyword :=
  [andKw, breakKw, doKw, elseKw, elseifKw, endKw, falseKw, forKw, functionKw, gotoKw, ifKw, inKw,
    localKw, nilKw, notKw, orKw, repeatKw, returnKw, thenKw, trueKw, untilKw, whileKw]

theorem mem_all (k : Keyword) : k ∈ all := by cases k <;> decide

def ofText? (word : List Char) : Option Keyword := all.find? (·.text = word)

theorem text_of_ofText? {word : List Char} {k : Keyword} (h : ofText? word = some k) :
    k.text = word := by
  simpa using List.find?_some h

@[simp] theorem ofText?_text (k : Keyword) : ofText? k.text = some k := by cases k <;> decide

end Keyword

def isKeyword (word : List Char) : Bool := (Keyword.ofText? word).isSome

inductive Symbol where
  | ellipsis | concat | equal | notEqual | lessEqual | greaterEqual | shiftLeft | shiftRight
  | floorDivide | doubleColon | plus | minus | star | slash | percent | caret | hash | ampersand
  | tilde | pipe | less | greater | assign | parenOpen | parenClose | braceOpen | braceClose
  | bracketOpen | bracketClose | semicolon | colon | comma | dot
  deriving DecidableEq, Repr

namespace Symbol

def text : Symbol → List Char
  | ellipsis => ['.', '.', '.']
  | concat => ['.', '.']
  | equal => ['=', '=']
  | notEqual => ['~', '=']
  | lessEqual => ['<', '=']
  | greaterEqual => ['>', '=']
  | shiftLeft => ['<', '<']
  | shiftRight => ['>', '>']
  | floorDivide => ['/', '/']
  | doubleColon => [':', ':']
  | plus => ['+']
  | minus => ['-']
  | star => ['*']
  | slash => ['/']
  | percent => ['%']
  | caret => ['^']
  | hash => ['#']
  | ampersand => ['&']
  | tilde => ['~']
  | pipe => ['|']
  | less => ['<']
  | greater => ['>']
  | assign => ['=']
  | parenOpen => ['(']
  | parenClose => [')']
  | braceOpen => ['\x7b']
  | braceClose => ['\x7d']
  | bracketOpen => ['[']
  | bracketClose => [']']
  | semicolon => [';']
  | colon => [':']
  | comma => [',']
  | dot => ['.']

/-- Longer spellings come before the ones they begin with, so the first match is the longest. -/
def all : List Symbol :=
  [ellipsis, concat, equal, notEqual, lessEqual, greaterEqual, shiftLeft, shiftRight, floorDivide,
    doubleColon, plus, minus, star, slash, percent, caret, hash, ampersand, tilde, pipe, less,
    greater, assign, parenOpen, parenClose, braceOpen, braceClose, bracketOpen, bracketClose,
    semicolon, colon, comma, dot]

theorem mem_all (s : Symbol) : s ∈ all := by cases s <;> decide

def leading? (input : List Char) : Option Symbol := all.find? (·.text.isPrefixOf input)

theorem text_ne_nil (s : Symbol) : s.text ≠ [] := by cases s <;> decide

theorem text_append_drop {input : List Char} {s : Symbol} (h : leading? input = some s) :
    s.text ++ input.drop s.text.length = input := by
  rw [leading?] at h
  have hp : s.text.isPrefixOf input = true := by simpa using List.find?_some h
  obtain ⟨rest, rfl⟩ := List.isPrefixOf_iff_prefix.mp hp
  simp

end Symbol

inductive Token where
  | name (text : List Char)
  | keyword (word : Keyword)
  | number (text : List Char)
  | string (text : List Char)
  | comment (text : List Char)
  | symbol (mark : Symbol)
  deriving DecidableEq, Repr

namespace Token

def text : Token → List Char
  | name t | number t | string t | comment t => t
  | keyword k => k.text
  | symbol s => s.text

def isName : Token → Bool
  | name _ => true
  | _ => false

def isComment : Token → Bool
  | comment _ => true
  | _ => false

/-- Whether an expression, or a statement without a block, may end with this token. -/
def endsExpression : Token → Bool
  | name _ | number _ | string _ => true
  | keyword .endKw | keyword .trueKw | keyword .falseKw | keyword .nilKw | keyword .breakKw => true
  | symbol .parenClose | symbol .bracketClose | symbol .braceClose | symbol .ellipsis => true
  | _ => false

/-- Whether this token extends the expression before it. -/
def continuesExpression : Token → Bool
  | string _ => true
  | keyword .andKw | keyword .orKw => true
  | symbol .parenClose | symbol .bracketClose | symbol .braceClose | symbol .semicolon
  | symbol .doubleColon | symbol .hash | symbol .ellipsis => false
  | symbol _ => true
  | _ => false

/-- Tokens that close a block; a printer puts them one level out. -/
def closesBlock : Token → Bool
  | keyword .endKw | keyword .elseKw | keyword .elseifKw | keyword .untilKw => true
  | _ => false

end Token

end LuaBundle.Lua
