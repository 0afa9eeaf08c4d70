import LuaBundle.Lua.Token

/-!
# Statement starts and block depth

No syntax tree is built: a stack of blocks and a stack of brackets are enough to tell where a
statement starts and how deep it is nested. The tokens are those of a chunk without its comments.
-/
namespace LuaBundle.Lua

structure Mark where
  /-- The token begins a statement or closes a block. -/
  start : Bool
  depth : Nat
  deriving DecidableEq, Repr

structure Nesting where
  /-- For each open block, innermost first, the number of brackets open around its statements. -/
  blocks : List Nat
  /-- Open brackets, innermost first; `true` for the parenthesis of a parameter list. -/
  brackets : List Bool
  /-- A `function` keyword waits for its parameter list. -/
  expectParams : Bool
  /-- Headers of `while` and `for` whose `do` has not come yet. -/
  loopHeaders : Nat
  openedBlock : Bool
  deriving DecidableEq, Repr

namespace Nesting

def outermost : Nesting := ⟨[], [], false, 0, false⟩

def atStatementLevel (s : Nesting) : Bool := s.brackets.length == s.blocks.head?.getD 0

/-- Keywords that go on with a statement although they follow an expression. -/
def goesOn (s : Nesting) : Token → Bool
  | .keyword .thenKw | .keyword .inKw => true
  | .keyword .doKw => s.loopHeaders > 0
  | _ => false

def starts (s : Nesting) (before : Option Token) (t : Token) : Bool :=
  match before with
  | none => true
  | some p =>
    s.atStatementLevel &&
      (t.closesBlock || s.openedBlock || p == .symbol .semicolon ||
        p.endsExpression && !t.continuesExpression && !s.goesOn t)

def depthOf (s : Nesting) (t : Token) : Nat :=
  if t.closesBlock then s.blocks.length - 1 else s.blocks.length

def mark (s : Nesting) (before : Option Token) (t : Token) : Mark :=
  ⟨s.starts before t, s.depthOf t⟩

def openBlock (s : Nesting) : Nesting :=
  { s with blocks := s.brackets.length :: s.blocks, openedBlock := true }

def closeBlock (s : Nesting) : Nesting := { s with blocks := s.blocks.tail }

/-- The nesting after a token, given whether that token started a statement. A `do` that starts
none is the body of the loop header before it. -/
def after (s : Nesting) (start : Bool) (t : Token) : Nesting :=
  let s := { s with openedBlock := false }
  match t with
  | .symbol .parenOpen => { s with brackets := s.expectParams :: s.brackets, expectParams := false }
  | .symbol .bracketOpen | .symbol .braceOpen => { s with brackets := false :: s.brackets }
  | .symbol .parenClose | .symbol .bracketClose | .symbol .braceClose =>
    let closed := { s with brackets := s.brackets.tail }
    if s.brackets.head? = some true then closed.openBlock else closed
  | .keyword .functionKw => { s with expectParams := true }
  | .keyword .whileKw | .keyword .forKw => { s with loopHeaders := s.loopHeaders + 1 }
  | .keyword .doKw =>
    { s with loopHeaders := if start then s.loopHeaders else s.loopHeaders - 1 }.openBlock
  | .keyword .thenKw | .keyword .repeatKw => s.openBlock
  | .keyword .elseKw => s.closeBlock.openBlock
  | .keyword .endKw | .keyword .elseifKw | .keyword .untilKw => s.closeBlock
  | _ => s

def marks (s : Nesting) (before : Option Token) : List Token → List Mark
  | [] => []
  | t :: ts => s.mark before t :: marks (s.after (s.starts before t) t) (some t) ts

@[simp] theorem marks_length (s : Nesting) (before : Option Token) (ts : List Token) :
    (s.marks before ts).length = ts.length := by
  induction ts generalizing s before with
  | nil => rfl
  | cons t ts ih => simp [marks, ih]

end Nesting

def layout (tokens : List Token) : List Mark := Nesting.outermost.marks none tokens

@[simp] theorem layout_length (tokens : List Token) : (layout tokens).length = tokens.length :=
  Nesting.marks_length ..

/-- The mark starts a statement or a closer no deeper than `depth`. -/
def Mark.endsAt (depth : Nat) (m : Mark) : Bool := m.start && m.depth ≤ depth

/-- Where the statement that holds token `index` ends: at the next start no deeper than it. -/
def statementEndAfter (marks : List Mark) (index : Nat) : Option Nat := do
  let m ← marks[index]?
  let ahead ← (marks.drop (index + 1)).findIdx? (·.endsAt m.depth)
  pure (index + 1 + ahead)

/-- A token in its place: what stands before it, and its layout. -/
structure Site where
  index : Nat
  before : Option Token
  token : Token
  mark : Mark
  deriving DecidableEq, Repr

def sitesFrom (index : Nat) (before : Option Token) : List Token → List Mark → List Site
  | t :: ts, m :: ms => ⟨index, before, t, m⟩ :: sitesFrom (index + 1) (some t) ts ms
  | _, _ => []

def sites (tokens : List Token) : List Site := sitesFrom 0 none tokens (layout tokens)

theorem sitesFrom_length (index : Nat) (before : Option Token) (ts : List Token) (ms : List Mark) :
    (sitesFrom index before ts ms).length = min ts.length ms.length := by
  induction ts generalizing index before ms with
  | nil => simp [sitesFrom]
  | cons t ts ih => cases ms <;> simp [sitesFrom, ih]

@[simp] theorem sites_length (tokens : List Token) : (sites tokens).length = tokens.length := by
  simp [sites, sitesFrom_length]

end LuaBundle.Lua
