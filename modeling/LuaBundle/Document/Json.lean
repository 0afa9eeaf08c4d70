import LuaBundle.Document.Value
import LuaBundle.Text.Hex

/-!
# Reading JSON

A text is read character by character into tokens, and the tokens by a stack of open containers.
Both are folds, so reading ends whatever the text is. Only the format of RFC 8259 is accepted: no
comments, no trailing commas, no lone surrogates.
-/
namespace LuaBundle.Document.Json

inductive Token where
  | braceOpen
  | braceClose
  | bracketOpen
  | bracketClose
  | colon
  | comma
  | scalar (v : Value)
  deriving Repr, Inhabited

/-- What has been read of the token under way; characters are kept last first. -/
inductive Lexing where
  | idle
  | atom (chars : List Char)
  | text (chars : List Char)
  | escape (chars : List Char)
  /-- `left` hexadecimal digits of a code unit are to come; `high` is a surrogate before it. -/
  | unit (chars : List Char) (high : Option Nat) (left code : Nat)
  /-- After a high surrogate, the backslash and then the `u` of the low one. -/
  | pairEscape (chars : List Char) (high : Nat)
  | pairUnit (chars : List Char) (high : Nat)
  deriving Repr

def digitsValue (digits : List Char) : Nat :=
  digits.foldl (fun n c => 10 * n + (c.toNat - '0'.toNat)) 0

/-- Split off a sign; a plus sign only where `plus` allows it. -/
def splitSign (plus : Bool) : List Char → Bool × List Char
  | '-' :: r => (true, r)
  | '+' :: r => if plus then (false, r) else (false, '+' :: r)
  | r => (false, r)

def signed (negative : Bool) (n : Nat) : Int := if negative then -(n : Int) else n

/-- An exponent with its letter, or nothing. -/
def exponent? : List Char → Option Int
  | [] => some 0
  | c :: r =>
    let (negative, digits) := splitSign true r
    if (c = 'e' ∨ c = 'E') ∧ digits ≠ [] ∧ digits.all Char.isDigit then
      some (signed negative (digitsValue digits))
    else none

/-- A fraction with its dot, or nothing; its digits and what follows. -/
def fraction? : List Char → Option (List Char × List Char)
  | '.' :: r =>
    let digits := r.takeWhile Char.isDigit
    if digits = [] then none else some (digits, r.dropWhile Char.isDigit)
  | r => some ([], r)

/-- A number is an integer unless it has a fraction or an exponent; minus zero is a decimal too. -/
def number? (text : List Char) : Option Value := do
  let (negative, r) := splitSign false text
  let whole := r.takeWhile Char.isDigit
  guard (whole ≠ [] ∧ (whole.head? ≠ some '0' ∨ whole.length = 1))
  let r := r.dropWhile Char.isDigit
  let (digits, r) ← fraction? r
  let power ← exponent? r
  let n := digitsValue (whole ++ digits)
  if digits = [] ∧ r = [] ∧ ¬ (negative ∧ n = 0) then pure (.integer (signed negative n))
  else pure (.decimal (signed negative n) (power - digits.length))

def atom? (text : List Char) : Option Value :=
  if text = ['t', 'r', 'u', 'e'] then some (.bool true)
  else if text = ['f', 'a', 'l', 's', 'e'] then some (.bool false)
  else if text = ['n', 'u', 'l', 'l'] then some .null
  else number? text

def isHighSurrogate (code : Nat) : Bool := 0xD800 ≤ code && code < 0xDC00

def isLowSurrogate (code : Nat) : Bool := 0xDC00 ≤ code && code < 0xE000

/-- Take a finished code unit into a string. -/
def endUnit (chars : List Char) (high : Option Nat) (code : Nat) : Option Lexing :=
  match high with
  | some h =>
    if isLowSurrogate code then
      some (.text (Char.ofNat (0x10000 + (h - 0xD800) * 0x400 + (code - 0xDC00)) :: chars))
    else none
  | none =>
    if isHighSurrogate code then some (.pairEscape chars code)
    else if isLowSurrogate code then none
    else some (.text (Char.ofNat code :: chars))

def endEscape (chars : List Char) : Char → Option Lexing
  | '"' => some (.text ('"' :: chars))
  | '\\' => some (.text ('\\' :: chars))
  | '/' => some (.text ('/' :: chars))
  | 'b' => some (.text ('\x08' :: chars))
  | 'f' => some (.text ('\x0c' :: chars))
  | 'n' => some (.text ('\n' :: chars))
  | 'r' => some (.text ('\r' :: chars))
  | 't' => some (.text ('\t' :: chars))
  | 'u' => some (.unit chars none 4 0)
  | _ => none

def isSpace (c : Char) : Bool := c == ' ' || c == '\t' || c == '\n' || c == '\r'

def begin (found : List Token) (c : Char) : List Token × Lexing :=
  if isSpace c then (found, .idle)
  else
    match c with
    | '\x7b' => (.braceOpen :: found, .idle)
    | '\x7d' => (.braceClose :: found, .idle)
    | '[' => (.bracketOpen :: found, .idle)
    | ']' => (.bracketClose :: found, .idle)
    | ':' => (.colon :: found, .idle)
    | ',' => (.comma :: found, .idle)
    | '"' => (found, .text [])
    | _ => (found, .atom [c])

def isAtomChar (c : Char) : Bool := c.isAlphanum || c == '-' || c == '+' || c == '.'

/-- Read one more character. Tokens are kept last first. -/
def feed (state : List Token × Lexing) (c : Char) : Option (List Token × Lexing) :=
  let (found, mode) := state
  match mode with
  | .idle => some (begin found c)
  | .atom chars =>
    if isAtomChar c then some (found, .atom (c :: chars))
    else (atom? chars.reverse).map fun v => begin (.scalar v :: found) c
  | .text chars =>
    if c = '"' then some (.scalar (.string (String.ofList chars.reverse)) :: found, .idle)
    else if c = '\\' then some (found, .escape chars)
    else if c.toNat < 0x20 then none
    else some (found, .text (c :: chars))
  | .escape chars => (endEscape chars c).map fun m => (found, m)
  | .unit chars high left code => do
    let code := 16 * code + (← Text.hexDigit? c)
    if left = 1 then (endUnit chars high code).map fun m => (found, m)
    else pure (found, .unit chars high (left - 1) code)
  | .pairEscape chars high => if c = '\\' then some (found, .pairUnit chars high) else none
  | .pairUnit chars high => if c = 'u' then some (found, .unit chars (some high) 4 0) else none

def tokens? (text : List Char) : Option (List Token) := do
  let (found, mode) ← text.foldlM feed ([], .idle)
  match mode with
  | .idle => pure found.reverse
  | .atom chars => (atom? chars.reverse).map fun v => (.scalar v :: found).reverse
  | _ => none

/-- An open container with its content last first. A table holds the name whose value is due. -/
inductive Frame where
  | list (items : List Value)
  | table (members : List (String × Value)) (due : Option String)
  deriving Repr

inductive Expected where
  /-- A value; or, in a list that has just been opened, its end. -/
  | value (orClose : Bool)
  | name (orClose : Bool)
  | colon
  | separator
  | nothing (result : Value)
  deriving Repr

/-- A value is complete: put it into the container around it. -/
def complete (v : Value) : List Frame → Option (List Frame × Expected)
  | [] => some ([], .nothing v)
  | .list items :: rest => some (.list (v :: items) :: rest, .separator)
  | .table members (some name) :: rest =>
    some (.table ((name, v) :: members) none :: rest, .separator)
  | .table _ none :: _ => none

def close : Token → List Frame → Option (List Frame × Expected)
  | .bracketClose, .list items :: rest => complete (.list items.reverse) rest
  | .braceClose, .table members none :: rest => complete (.table members.reverse) rest
  | _, _ => none

def accept (state : List Frame × Expected) (t : Token) : Option (List Frame × Expected) :=
  let (stack, expected) := state
  match expected, t with
  | .value _, .scalar v => complete v stack
  | .value _, .bracketOpen => some (.list [] :: stack, .value true)
  | .value _, .braceOpen => some (.table [] none :: stack, .name true)
  | .value true, .bracketClose => close t stack
  | .name _, .scalar (.string name) =>
    match stack with
    | .table members none :: rest => some (.table members (some name) :: rest, .colon)
    | _ => none
  | .name true, .braceClose => close t stack
  | .colon, .colon => some (stack, .value false)
  | .separator, .comma =>
    match stack with
    | .list _ :: _ => some (stack, .value false)
    | .table .. :: _ => some (stack, .name false)
    | [] => none
  | .separator, .bracketClose | .separator, .braceClose => close t stack
  | _, _ => none

def read? (text : String) : Option Value := do
  let found ← tokens? text.toList
  match ← found.foldlM accept ([], .value false) with
  | ([], .nothing v) => pure v
  | _ => none

end LuaBundle.Document.Json
