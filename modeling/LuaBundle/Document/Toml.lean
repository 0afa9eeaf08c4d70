import LuaBundle.Document.Toml.Scalar
import LuaBundle.Document.Toml.Table
import LuaBundle.Document.Toml.Token

/-!
# Reading TOML

The tokens of a document are folded over a state: the tables so far, the statement under way and a
stack of open lists and inline tables. Between the parts of a list or an inline table, line breaks
count for nothing; both may end with a comma.
-/
namespace LuaBundle.Document.Toml

def isKeyChar (c : Char) : Bool := c.isAlphanum || c == '_' || c == '-'

def keyPart? : Token → Option String
  | .word text => if text.all isKeyChar then some (String.ofList text) else none
  | .quoted q => if q.multiline then none else some q.text
  | _ => none

/-- What the key under way is for. -/
inductive Goal where
  | assignment
  | table
  | row
  | member
  deriving DecidableEq, Repr

inductive Expected where
  | statement
  /-- The second bracket of a doubled header. -/
  | rowOpen
  | rowClose
  | key (goal : Goal)
  /-- A dot, or what ends the key. -/
  | keyEnd (goal : Goal)
  /-- An equals sign, which a line break has parted from the key of a member. -/
  | memberEquals
  | value
  | memberValue
  /-- What has been read of an unquoted scalar. -/
  | scalar (text : List Char)
  /-- An item of a list, or its end. -/
  | item
  | itemEnd
  /-- A member of an inline table, or its end. -/
  | member
  | memberEnd
  | lineEnd
  deriving DecidableEq, Repr

/-- An open container. An inline table keeps the key whose value is due. -/
inductive Frame where
  | list (items : List Value)
  | table (members : Members) (keys : List String)
  deriving Repr

structure Reading where
  root : Members
  /-- The path of the table that assignments go into. -/
  header : List String
  /-- The parts of the key under way, last first. -/
  keys : List String
  /-- The key of the assignment whose value is due. -/
  target : List String
  stack : List Frame
  expected : Expected
  deriving Repr

namespace Reading

def start : Reading := ⟨[], [], [], [], [], .statement⟩

/-- A value is complete: put it where it belongs. -/
def complete (s : Reading) (v : Value) : Option Reading :=
  match s.stack with
  | [] => (putBelow v s.target s.header s.root).map fun root =>
    { s with root, expected := .lineEnd }
  | .list items :: rest => some { s with stack := .list (v :: items) :: rest, expected := .itemEnd }
  | .table members keys :: rest => (put v keys members).map fun members =>
    { s with stack := .table members [] :: rest, expected := .memberEnd }

def closeList (s : Reading) : Option Reading :=
  match s.stack with
  | .list items :: rest => complete { s with stack := rest } (.list items.reverse)
  | _ => none

def closeTable (s : Reading) : Option Reading :=
  match s.stack with
  | .table members _ :: rest => complete { s with stack := rest } (.table (toMembers members))
  | _ => none

def enter (s : Reading) (change : Option Node → Option Node) : Option Reading :=
  (openHeader change s.keys.reverse s.root).map fun root =>
    { s with root, header := s.keys.reverse, keys := [], expected := .lineEnd }

/-- The first or a further part of a key. -/
def addKey (s : Reading) (goal : Goal) (t : Token) : Option Reading :=
  (keyPart? t).map fun part => { s with keys := part :: s.keys, expected := .keyEnd goal }

/-- The equals sign after a key. In an inline table the key is kept with the table. -/
def assign (s : Reading) (goal : Goal) : Option Reading :=
  match goal, s.stack with
  | .assignment, _ => some { s with keys := [], target := s.keys.reverse, expected := .value }
  | .member, .table members _ :: rest => some
    { s with keys := [], stack := .table members s.keys.reverse :: rest, expected := .memberValue }
  | _, _ => none

/-- As many lists and inline tables may be open at once. -/
def maxDepth : Nat := 80

def beginContainer (s : Reading) (frame : Frame) (expected : Expected) : Option Reading :=
  if s.stack.length < maxDepth then some { s with stack := frame :: s.stack, expected } else none

def beginValue (s : Reading) : Token → Option Reading
  | .bracketOpen _ => s.beginContainer (.list []) .item
  | .braceOpen => s.beginContainer (.table [] []) .member
  | .quoted q => s.complete (.string q.text)
  | .word text => some { s with expected := .scalar text }
  | _ => none

/-- A token that is no part of an unquoted scalar. -/
def advance (s : Reading) (t : Token) : Option Reading :=
  match s.expected, t with
  | _, .space _ => some s
  | .statement, .newline | .lineEnd, .newline => some { s with expected := .statement }
  | .statement, .bracketOpen doubled =>
    some { s with expected := if doubled then .rowOpen else .key .table }
  | .statement, _ => addKey s .assignment t
  | .rowOpen, .bracketOpen _ => some { s with expected := .key .row }
  | .key goal, _ => addKey s goal t
  | .keyEnd goal, .dot => some { s with expected := .key goal }
  | .keyEnd .member, .newline => some { s with expected := .memberEquals }
  | .keyEnd goal, .equals => assign s goal
  | .keyEnd .table, .bracketClose _ => enter s openTable
  | .keyEnd .row, .bracketClose true => some { s with expected := .rowClose }
  | .rowClose, .bracketClose _ => enter s openRow
  | .memberEquals, .equals => assign s .member
  | .memberEquals, .newline | .memberValue, .newline => some s
  | .value, _ | .memberValue, _ => beginValue s t
  | .item, .newline | .itemEnd, .newline | .member, .newline | .memberEnd, .newline => some s
  | .item, .bracketClose _ | .itemEnd, .bracketClose _ => closeList s
  | .itemEnd, .comma => some { s with expected := .item }
  | .item, _ => beginValue s t
  | .member, .braceClose | .memberEnd, .braceClose => closeTable s
  | .memberEnd, .comma => some { s with expected := .member }
  | .member, _ => addKey s .member t
  | _, _ => none

/-- An unquoted scalar, with the spaces after it, goes on up to a token that cannot belong to it. -/
def accept (s : Reading) (t : Token) : Option Reading :=
  match s.expected with
  | .scalar text =>
    match t.scalarPart? with
    | some more => some { s with expected := .scalar (text ++ more) }
    | none => do
      let v ← scalar? (text.reverse.dropWhile isSpace).reverse
      (← s.complete v).advance t
  | _ => s.advance t

end Reading

/-- A byte order mark at the front is no part of the document. -/
def dropMark : List Char → List Char
  | '\ufeff' :: r => r
  | r => r

/-- The table that a TOML text denotes. The end of the text ends its last line. -/
def read? (text : String) : Option Value := do
  let text := dropMark text.toList
  guard (returnsPaired text)
  let found ← tokens? text
  let s ← (found ++ [Token.newline]).foldlM Reading.accept Reading.start
  if s.expected = .statement then pure (.table (toMembers s.root)) else none

end LuaBundle.Document.Toml
