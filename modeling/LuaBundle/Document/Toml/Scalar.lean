import LuaBundle.Document.Json
import LuaBundle.Text.Split

/-!
# Unquoted scalars of TOML

Booleans, numbers, dates and times. Single underscores may stand between the digits of a number. The
parts of a date or a time have fixed widths, and each lies within its range.
-/
namespace LuaBundle.Document.Toml

def digits? (base : Nat) (text : List Char) : Option (List Nat) := do
  let parts := Text.split '_' text
  guard (parts.all (· ≠ []))
  let digits ← parts.flatten.mapM Text.hexDigit?
  guard (digits.all (· < base))
  pure digits

def ofDigits (base : Nat) (digits : List Nat) : Nat := digits.foldl (fun n d => base * n + d) 0

/-- Decimal digits without leading zeros. -/
def whole? (text : List Char) : Option (List Nat) := do
  guard (text.head? ≠ some '0' ∨ text = ['0'])
  digits? 10 text

/-- Only decimal integers have a sign. -/
def integer? : List Char → Option Int
  | '0' :: 'x' :: r => (digits? 16 r).map fun ds => ofDigits 16 ds
  | '0' :: 'o' :: r => (digits? 8 r).map fun ds => ofDigits 8 ds
  | '0' :: 'b' :: r => (digits? 2 r).map fun ds => ofDigits 2 ds
  | r =>
    let (negative, r) := Json.splitSign true r
    (whole? r).map fun ds => Json.signed negative (ofDigits 10 ds)

/-- A fraction with its point, or nothing. -/
def fraction? : List Char → Option (List Nat)
  | [] => some []
  | _ :: r => digits? 10 r

/-- An exponent with its letter, or nothing. -/
def exponent? : List Char → Option Int
  | [] => some 0
  | _ :: r =>
    let (negative, r) := Json.splitSign true r
    (digits? 10 r).map fun ds => Json.signed negative (ofDigits 10 ds)

def decimal? (text : List Char) : Option Value := do
  let (negative, r) := Json.splitSign true text
  let (mantissa, exponent) := r.span fun c => c != 'e' && c != 'E'
  let (front, back) := mantissa.span (· != '.')
  let whole ← whole? front
  let places ← fraction? back
  let power ← exponent? exponent
  pure (.decimal (Json.signed negative (ofDigits 10 (whole ++ places))) (power - places.length))

/-- A number of exactly `width` digits, and what follows. -/
def fixedWidth? (width : Nat) (text : List Char) : Option (Nat × List Char) :=
  let digits := text.take width
  if digits.length = width ∧ digits.all Char.isDigit then
    some (Json.digitsValue digits, text.drop width)
  else none

def isLeapYear (year : Nat) : Bool := year % 4 == 0 && (year % 100 != 0 || year % 400 == 0)

def daysIn (year month : Nat) : Nat :=
  if month = 2 then if isLeapYear year then 29 else 28
  else if month ∈ [4, 6, 9, 11] then 30 else 31

def afterDate? (text : List Char) : Option (List Char) := do
  let (year, '-' :: r) ← fixedWidth? 4 text | none
  let (month, '-' :: r) ← fixedWidth? 2 r | none
  let (day, r) ← fixedWidth? 2 r
  guard (1 ≤ month ∧ month ≤ 12 ∧ 1 ≤ day ∧ day ≤ daysIn year month)
  pure r

def afterMinutes? (text : List Char) : Option (List Char) := do
  let (hour, ':' :: r) ← fixedWidth? 2 text | none
  let (minute, r) ← fixedWidth? 2 r
  guard (hour ≤ 23 ∧ minute ≤ 59)
  pure r

/-- What follows seconds, which may be left out, and parts of one. -/
def afterSeconds? : List Char → Option (List Char)
  | ':' :: r => do
    let (second, r) ← fixedWidth? 2 r
    guard (second ≤ 60)
    match r with
    | '.' :: r =>
      guard (r.takeWhile Char.isDigit ≠ [])
      pure (r.dropWhile Char.isDigit)
    | r => pure r
  | r => some r

def afterTime? (text : List Char) : Option (List Char) :=
  (afterMinutes? text).bind afterSeconds?

/-- The distance from universal time, or nothing. -/
def isOffset : List Char → Bool
  | [] | ['Z'] | ['z'] => true
  | c :: r => (c == '+' || c == '-') && afterMinutes? r == some []

def isMoment (text : List Char) : Bool :=
  match afterDate? text with
  | some [] => true
  | some (c :: r) => (c == 'T' || c == 't' || c == ' ') && (afterTime? r).any isOffset
  | none => afterTime? text == some []

def isNotFinite (text : List Char) : Bool :=
  let (_, r) := Json.splitSign true text
  r == ['i', 'n', 'f'] || r == ['n', 'a', 'n']

def scalar? (text : List Char) : Option Value :=
  if text = ['t', 'r', 'u', 'e'] then some (.bool true)
  else if text = ['f', 'a', 'l', 's', 'e'] then some (.bool false)
  else if isNotFinite text || isMoment text then some (.literal (String.ofList text))
  else
    match integer? text with
    | some i => some (.integer i)
    | none => decimal? text

end LuaBundle.Document.Toml
