import LuaBundle.Pattern.Basic
import LuaBundle.Text.Hex
import LuaBundle.Text.Split

/-!
# Reading patterns

A pattern is read from left to right into the groups and the sets in brackets that are open. What
begins at a character is read with the number of characters that it takes after that one. Flags hold
up to the end of the group in which they are set.
-/
namespace LuaBundle.Pattern

inductive Flag where
  | caseless
  /-- The anchors hold at every line. -/
  | multiline
  /-- A dot stands for a line feed too. -/
  | dotAll
  /-- Repetitions prefer fewer rounds. What occurs does not depend on it. -/
  | lazy
  | unicode
  | crlf
  /-- White space and comments do not count. -/
  | verbose
  deriving DecidableEq, Repr

abbrev Flags := List Flag

def Flag.ofChar? : Char → Option Flag
  | 'i' => some caseless
  | 'm' => some multiline
  | 's' => some dotAll
  | 'U' => some lazy
  | 'u' => some unicode
  | 'R' => some crlf
  | 'x' => some verbose
  | _ => none

namespace Flags

/-- Change flags as a text says: each letter stands there once, and those after a hyphen turn off. -/
def change? (flags : Flags) (text : List Char) : Option Flags := do
  let letters := text.filter (· ≠ '-')
  guard (letters.eraseDups = letters)
  match Text.split '-' text with
  | [on] => pure (flags ++ (← on.mapM Flag.ofChar?))
  | [on, off] =>
    guard (off ≠ [])
    let on ← on.mapM Flag.ofChar?
    let off ← off.mapM Flag.ofChar?
    pure ((flags ++ on).filter (· ∉ off))
  | _ => none

def fold (flags : Flags) (s : CharSet) : CharSet :=
  if .caseless ∉ flags then s else if .unicode ∈ flags then .caseless s else .caselessAscii s

/-- Without Unicode, no set holds characters beyond ASCII. -/
def admits (flags : Flags) (c : Char) : Bool := .unicode ∈ flags || c ≤ '\x7f'

def complement? (flags : Flags) (s : CharSet) : Option CharSet :=
  if .unicode ∈ flags then some (.complement s) else none

def dot? (flags : Flags) : Option CharSet :=
  if .unicode ∉ flags then none
  else if .dotAll ∈ flags then some .everything
  else if .crlf ∈ flags then some (.complement (.union (.single '\r') (.single '\n')))
  else some (.complement (.single '\n'))

def wordChars (flags : Flags) : CharSet := if .unicode ∈ flags then .word else .asciiWord

def lineStart (flags : Flags) : Assertion :=
  if .multiline ∈ flags then .lineStart (.crlf ∈ flags) else .textStart

def lineEnd (flags : Flags) : Assertion :=
  if .multiline ∈ flags then .lineEnd (.crlf ∈ flags) else .textEnd

end Flags

def blanksFrom (inComment : Bool) : List Char → Nat
  | [] => 0
  | c :: r =>
    if inComment then blanksFrom (c != '\n') r + 1
    else if c = '#' then blanksFrom true r + 1
    else if Text.isBlank c then blanksFrom false r + 1
    else 0

/-- How many characters in front of a text do not count. A comment goes to the end of its line. -/
def blanks (flags : Flags) (text : List Char) : Nat :=
  if .verbose ∈ flags then blanksFrom false text else 0

/-- What stands before a closing brace, without what does not count. -/
def braced? (flags : Flags) (text : List Char) : Option (List Char × Nat) :=
  let body := text.takeWhile (· != '\x7d')
  if body.length < text.length then
    some (if .verbose ∈ flags then body.filter (!Text.isBlank ·) else body, body.length + 1)
  else none

/-- What a character or an escape sequence stands for. -/
inductive Item where
  | char (c : Char)
  | set (s : CharSet)
  | assertion (a : Assertion)
  deriving DecidableEq, Repr

/-- A code point in a fixed number of digits, or in any number of them in braces. -/
def hexChar? (flags : Flags) (width : Nat) : List Char → Option (Item × Nat)
  | '\x7b' :: r => do
    let (digits, n) ← braced? flags r
    pure (.char (← Text.ofHex? digits), n + 1)
  | r => do
    guard (width ≤ r.length)
    let c ← Text.ofHex? (r.take width)
    guard (2 < width ∨ flags.admits c)
    pure (.char c, width)

/-- A property by a name in braces or of one letter. -/
def propertySet? (flags : Flags) (text : List Char) : Option (CharSet × Nat) := do
  guard (.unicode ∈ flags)
  match text with
  | [] => none
  | '\x7b' :: r =>
    let (name, n) ← braced? flags r
    pure (← CharSet.property? name, n + 1)
  | c :: _ => pure (← CharSet.property? [c], 1)

/-- A property, or where `negated` its complement. -/
def propertyItem? (flags : Flags) (negated : Bool) (text : List Char) : Option (Item × Nat) :=
  (propertySet? flags text).map fun (s, n) => (.set (if negated then .complement s else s), n)

def boundaryNames : List (String × Boundary) :=
  [("start", .start), ("end", .finish), ("start-half", .startHalf), ("end-half", .finishHalf)]

/-- The name of a special word boundary in braces, or nothing. Braces may also hold a count. -/
def boundary? (flags : Flags) : List Char → Option (Boundary × Nat)
  | '\x7b' :: r =>
    let inner := r.drop (blanks flags r)
    if inner.head?.any fun c => c.isAlpha || c == '-' then do
      let (name, n) ← braced? flags r
      let (_, b) ← boundaryNames.find? (·.1.toList == name)
      pure (b, n + 1)
    else some (.either, 0)
  | _ => some (.either, 0)

/-- The sets that a letter stands for, and that the letter in upper case is the complement of. -/
def classOf? (flags : Flags) : Char → Option CharSet
  | 'd' => some (if .unicode ∈ flags then .digit else .asciiDigit)
  | 's' => some (if .unicode ∈ flags then .blank else .asciiBlank)
  | 'w' => some flags.wordChars
  | _ => none

def controls : List (Char × Char) :=
  [('a', '\x07'), ('f', '\x0c'), ('t', '\t'), ('n', '\n'), ('r', '\r'), ('v', '\x0b')]

def isQuotable (c : Char) : Bool := c ≤ '\x7f' && !c.isAlphanum && c != '<' && c != '>'

/-- An escape sequence of one letter, or a character that is quoted. -/
def shortEscape? (flags : Flags) (c : Char) : Option Item :=
  match c with
  | 'A' => some (.assertion .textStart)
  | 'z' => some (.assertion .textEnd)
  | 'B' => some (.assertion (.word .neither flags.wordChars))
  | '<' => some (.assertion (.word .start flags.wordChars))
  | '>' => some (.assertion (.word .finish flags.wordChars))
  | _ =>
    if isQuotable c then some (.char c)
    else
      match controls.lookup c, classOf? flags c, classOf? flags c.toLower with
      | some control, _, _ => some (.char control)
      | _, some s, _ => some (.set s)
      | _, _, some s => (flags.complement? s).map .set
      | _, _, _ => none

def escape? (flags : Flags) : List Char → Option (Item × Nat)
  | [] => none
  | c :: r =>
    let found :=
      match c with
      | 'x' => hexChar? flags 2 r
      | 'u' => hexChar? flags 4 r
      | 'U' => hexChar? flags 8 r
      | 'p' => propertyItem? flags false r
      | 'P' => propertyItem? flags true r
      | 'b' => (boundary? flags r).map fun (b, n) => (.assertion (.word b flags.wordChars), n)
      | _ => (shortEscape? flags c).map (·, 0)
    found.map fun (item, n) => (item, n + 1)

/-! ### Sets in brackets -/

inductive SetOp where
  | intersection
  | difference
  | symmetricDifference
  deriving DecidableEq, Repr

def SetOp.ofChar? : Char → Option SetOp
  | '&' => some intersection
  | '-' => some difference
  | '~' => some symmetricDifference
  | _ => none

def SetOp.apply : SetOp → CharSet → CharSet → CharSet
  | intersection => .intersection
  | difference => .difference
  | symmetricDifference => .symmetricDifference

/-- Where the reading of a set stands: hyphens and a bracket count as characters at its front. -/
inductive Front where
  | opened
  | negated
  | hyphens
  | passed
  deriving DecidableEq, Repr

structure OpenSet where
  negated : Bool
  front : Front
  /-- The left side of the operator under way. -/
  left : Option (SetOp × CharSet)
  chars : CharSet
  deriving DecidableEq, Repr

namespace OpenSet

def start : OpenSet := ⟨false, .opened, none, .nothing⟩

def add (s : OpenSet) (chars : CharSet) : OpenSet := { s with chars := .union s.chars chars }

/-- Operators hold from left to right. -/
def value (flags : Flags) (s : OpenSet) : CharSet :=
  match s.left with
  | none => s.chars
  | some (op, left) => op.apply (flags.fold left) (flags.fold s.chars)

def operate (flags : Flags) (op : SetOp) (s : OpenSet) : OpenSet :=
  { s with left := some (op, s.value flags), chars := .nothing }

def close? (flags : Flags) (s : OpenSet) : Option CharSet :=
  let all := flags.fold (s.value flags)
  if s.negated then flags.complement? all else some all

/-- What a character at the front of a set means there only. -/
def atFront? (s : OpenSet) (c : Char) : Option OpenSet :=
  match s.front, c with
  | .opened, '^' => some { s with negated := true, front := .negated }
  | .passed, _ => none
  | _, '-' => some { s.add (.single '-') with front := .hyphens }
  | .hyphens, _ => none
  | _, ']' => some { s.add (.single ']') with front := .passed }
  | _, _ => none

end OpenSet

/-- A named class after its first bracket. -/
def namedSet? (flags : Flags) : List Char → Option (CharSet × Nat)
  | ':' :: '^' :: r => do
    let (name, s) ← CharSet.named.find? fun e => (e.1.toList ++ [':', ']']).isPrefixOf r
    pure (← flags.complement? s, name.length + 4)
  | ':' :: r => do
    let (name, s) ← CharSet.named.find? fun e => (e.1.toList ++ [':', ']']).isPrefixOf r
    pure (s, name.length + 3)
  | _ => none

def itemAt? (flags : Flags) (c : Char) (r : List Char) : Option (Item × Nat) :=
  if c = '\\' then escape? flags r else some (.char c, 0)

def Item.toSet? (flags : Flags) : Item → Option CharSet
  | char c => if flags.admits c then some (.single c) else none
  | set s => some s
  | assertion _ => none

/-- The character after the hyphen of a range, if the text goes on with one. -/
def rangeEnd? (flags : Flags) : List Char → Option (Char × Nat)
  | '-' :: r =>
    let n := blanks flags r
    match r.drop n with
    | [] | ']' :: _ | '-' :: _ => none
    | c :: _ => some (c, n + 1)
  | _ => none

/-- A member of a set: a range, a character or a class. -/
def member? (flags : Flags) (c : Char) (r : List Char) : Option (CharSet × Nat) := do
  let (first, n) ← itemAt? flags c r
  let before := n + blanks flags (r.drop n)
  match rangeEnd? flags (r.drop before) with
  | none => pure (← first.toSet? flags, n)
  | some (c, hyphen) =>
    let upTo := before + hyphen + 1
    let (last, m) ← itemAt? flags c (r.drop upTo)
    match first, last with
    | .char a, .char z =>
      guard (a ≤ z ∧ flags.admits z)
      pure (.range a z, upTo + m)
    | _, _ => none

/-! ### Groups -/

/-- What stands between an opening parenthesis and the content of its group. -/
inductive Opening where
  | group (flags : Flags) (name : Option (List Char))
  /-- Flags for the rest of the group around. -/
  | flags (flags : Flags)
  deriving DecidableEq, Repr

def isNameStart (c : Char) : Bool := c == '_' || CharSet.letter.holds c

def isNameChar (c : Char) : Bool :=
  c == '_' || c == '.' || c == '[' || c == ']' || CharSet.letter.holds c || Text.isDecimalDigit c

def groupName? (text : List Char) : Option (List Char) :=
  let name := text.takeWhile (· != '>')
  if name.length < text.length ∧ name.head?.any isNameStart ∧ name.all isNameChar then some name
  else none

/-- Text around a group cannot be asked for. -/
def opening? (flags : Flags) : List Char → Option (Opening × Nat)
  | '?' :: '<' :: '=' :: _ | '?' :: '<' :: '!' :: _ => none
  | '?' :: 'P' :: '<' :: r =>
    (groupName? r).map fun name => (.group flags (some name), name.length + 4)
  | '?' :: '<' :: r => (groupName? r).map fun name => (.group flags (some name), name.length + 3)
  | '?' :: r => do
    let body := r.takeWhile fun c => c != ':' && c != ')'
    let changed ← flags.change? body
    match r.drop body.length with
    | ':' :: _ => pure (.group changed none, body.length + 2)
    | ')' :: _ =>
      guard (body ≠ [])
      pure (.flags changed, body.length + 2)
    | _ => none
  | _ => some (.group flags none, 0)

/-! ### Repetitions -/

/-- A number of rounds fits into 32 bits. -/
def rounds? (text : List Char) : Option Nat :=
  let digits := Text.trim text
  let n := digits.foldl (fun n c => 10 * n + (c.toNat - '0'.toNat)) 0
  if digits ≠ [] ∧ digits.all Char.isDigit ∧ n < UInt32.size then some n else none

def bounds? (text : List Char) : Option (Nat × Option Nat) := do
  match Text.split ',' text with
  | [n] =>
    let n ← rounds? n
    pure (n, some n)
  | [least, []] => pure (← rounds? least, none)
  | [least, most] =>
    let least ← rounds? least
    let most ← rounds? most
    guard (least ≤ most)
    pure (least, some most)
  | _ => none

/-- A question mark after a repetition changes only which rounds it prefers. -/
def preference (text : List Char) : Nat := if text.head? = some '?' then 1 else 0

/-- The branches of a group; everything is kept last first. -/
structure Branches where
  done : List Pattern
  /-- The items of the branch under way. Where flags were set, nothing can be repeated. -/
  items : List (Option Pattern)
  deriving DecidableEq, Repr

namespace Branches

def start : Branches := ⟨[], []⟩

def add (b : Branches) (item : Option Pattern) : Branches := { b with items := item :: b.items }

def current (b : Branches) : Pattern :=
  (b.items.filterMap id).foldl (fun after p => if after = .empty then p else .seq p after) .empty

def next (b : Branches) : Branches := ⟨b.current :: b.done, []⟩

def toPattern (b : Branches) : Pattern :=
  b.done.foldl (fun later p => .either p later) b.current

def repeatLast? (b : Branches) (least : Nat) (most : Option Nat) : Option Branches :=
  match b.items with
  | some p :: rest => some { b with items := some (.repeated p least most) :: rest }
  | _ => none

end Branches

/-- A group whose end is still to come, with what is in force around it. -/
structure OpenGroup where
  flags : Flags
  outside : Branches
  deriving DecidableEq, Repr

structure Reading where
  flags : Flags
  /-- The names of groups, which are given once each. -/
  names : List (List Char)
  branches : Branches
  groups : List OpenGroup
  sets : List OpenSet
  deriving DecidableEq, Repr

namespace Reading

def start : Reading := ⟨[.unicode], [], .start, [], []⟩

def add (s : Reading) (p : Pattern) : Reading := { s with branches := s.branches.add (some p) }

def addItem (s : Reading) : Item → Reading
  | .char c => s.add (.char (s.flags.fold (.single c)))
  | .set chars => s.add (.char chars)
  | .assertion a => s.add (.assertion a)

def openGroup? (s : Reading) (flags : Flags) (name : Option (List Char)) : Option Reading :=
  if name.any s.names.contains then none
  else some { s with
    flags
    names := name.toList ++ s.names
    branches := .start
    groups := ⟨s.flags, s.branches⟩ :: s.groups }

def closeGroup? (s : Reading) : Option Reading :=
  match s.groups with
  | [] => none
  | g :: groups => some { s with
    flags := g.flags
    branches := g.outside.add (some s.branches.toPattern)
    groups }

def repeatLast? (s : Reading) (least : Nat) (most : Option Nat) : Option Reading :=
  (s.branches.repeatLast? least most).map fun branches => { s with branches }

/-- The innermost set ends and becomes a member of the one around it, or an item. -/
def closeSet? (s : Reading) (set : OpenSet) (outer : List OpenSet) : Option Reading := do
  let chars ← set.close? s.flags
  match outer with
  | [] => pure { s.add (.char chars) with sets := [] }
  | around :: rest => pure { s with sets := around.add chars :: rest }

def inSet? (s : Reading) (set : OpenSet) (outer : List OpenSet) (c : Char) (r : List Char) :
    Option (Reading × Nat) :=
  match set.atFront? c with
  | some set => some ({ s with sets := set :: outer }, 0)
  | none =>
    let set := { set with front := .passed }
    match c, if r.head? = some c then SetOp.ofChar? c else none with
    | '[', _ =>
      match namedSet? s.flags r with
      | some (chars, n) => some ({ s with sets := set.add chars :: outer }, n)
      | none => some ({ s with sets := .start :: set :: outer }, 0)
    | ']', _ => (s.closeSet? set outer).map (·, 0)
    | _, some op => some ({ s with sets := set.operate s.flags op :: outer }, 1)
    | _, none => (member? s.flags c r).map fun (chars, n) =>
      ({ s with sets := set.add chars :: outer }, n)

def outsideSets? (s : Reading) (c : Char) (r : List Char) : Option (Reading × Nat) :=
  match c with
  | '(' => do
    let n := blanks s.flags r
    match ← opening? s.flags (r.drop n) with
    | (.group flags name, m) => pure (← s.openGroup? flags name, n + m)
    | (.flags flags, m) => pure ({ s with flags, branches := s.branches.add none }, n + m)
  | ')' => s.closeGroup?.map (·, 0)
  | '|' => some ({ s with branches := s.branches.next }, 0)
  | '[' => some ({ s with sets := [.start] }, 0)
  | '?' => (s.repeatLast? 0 (some 1)).map (·, preference r)
  | '*' => (s.repeatLast? 0 none).map (·, preference r)
  | '+' => (s.repeatLast? 1 none).map (·, preference r)
  | '\x7b' => do
    let (body, n) ← braced? s.flags r
    let (least, most) ← bounds? body
    let ignored := blanks s.flags (r.drop n)
    pure (← s.repeatLast? least most, n + ignored + preference (r.drop (n + ignored)))
  | '\\' => (escape? s.flags r).map fun (item, n) => (s.addItem item, n)
  | '.' => s.flags.dot?.map fun chars => (s.add (.char chars), 0)
  | '^' => some (s.add (.assertion s.flags.lineStart), 0)
  | '$' => some (s.add (.assertion s.flags.lineEnd), 0)
  | _ => some (s.addItem (.char c), 0)

/-- One more character, with how many characters after it are read too. -/
def step? (s : Reading) (c : Char) (r : List Char) : Option (Reading × Nat) :=
  match blanks s.flags (c :: r), s.sets with
  | n + 1, _ => some (s, n)
  | 0, [] => s.outsideSets? c r
  | 0, set :: outer => s.inSet? set outer c r

def readAll? (s : Reading) : List Char → Option Reading
  | [] => some s
  | c :: r =>
    match s.step? c r with
    | some (s, n) => s.readAll? (r.drop n)
    | none => none
termination_by text => text.length
decreasing_by
  simp only [List.length_drop, List.length_cons]
  omega

end Reading

/-- The pattern that a text denotes. All groups and sets have to be closed. -/
def read? (text : List Char) : Option Pattern := do
  let s ← Reading.start.readAll? text
  if s.groups = [] ∧ s.sets = [] then some s.branches.toPattern else none

end LuaBundle.Pattern
