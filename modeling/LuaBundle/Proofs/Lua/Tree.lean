import LuaBundle.Lua.Token

/-!
# Chunks of Lua 5.4 and their scopes

The grammar of the reference manual as trees, with the tokens that a tree is written with and what
every token of it refers to. Precedence only groups operators, so trees of all groupings are allowed.
-/
namespace LuaBundle.Lua

abbrev Name := List Char

namespace Token

/-- Expressions of one token that are no names. -/
def isLiteral : Token → Bool
  | number _ | string _ => true
  | keyword .nilKw | keyword .trueKw | keyword .falseKw | symbol .ellipsis => true
  | _ => false

def isUnary : Token → Bool
  | keyword .notKw | symbol .minus | symbol .hash | symbol .tilde => true
  | _ => false

def isBinary : Token → Bool
  | keyword .andKw | keyword .orKw => true
  | symbol .concat | symbol .equal | symbol .notEqual | symbol .lessEqual => true
  | symbol .greaterEqual | symbol .shiftLeft | symbol .shiftRight | symbol .floorDivide => true
  | symbol .plus | symbol .minus | symbol .star | symbol .slash | symbol .percent => true
  | symbol .caret | symbol .ampersand | symbol .tilde | symbol .pipe => true
  | symbol .less | symbol .greater => true
  | _ => false

/-- What stands between the fields of a table. -/
def isSeparator : Token → Bool
  | symbol .comma | symbol .semicolon => true
  | _ => false

end Token

abbrev Literal := { t : Token // t.isLiteral = true }
abbrev UnaryOp := { t : Token // t.isUnary = true }
abbrev BinaryOp := { t : Token // t.isBinary = true }
abbrev Separator := { t : Token // t.isSeparator = true }

/-- The name of a local variable and its attribute. -/
structure Local where
  name : Name
  attrib : Option Name
  deriving DecidableEq, Repr

structure Params where
  names : List Name
  variadic : Bool
  deriving DecidableEq, Repr

/-- What a `function` statement assigns to. -/
structure FunctionName where
  base : Name
  fields : List Name
  method : Option Name
  deriving DecidableEq, Repr

inductive Kind where
  | expr | operand | var | call | args | exprs | vars | range | field | fields | stmt | tail | block
  deriving DecidableEq, Repr

inductive Tree : Kind → Type where
  -- expressions
  | literal (t : Literal) : Tree .expr
  | plain (p : Tree .operand) : Tree .expr
  | table (fs : Tree .fields) : Tree .expr
  | binary (l : Tree .expr) (op : BinaryOp) (r : Tree .expr) : Tree .expr
  | unary (op : UnaryOp) (e : Tree .expr) : Tree .expr
  | function (ps : Params) (b : Tree .block) : Tree .expr
  -- what can be called or indexed
  | read (v : Tree .var) : Tree .operand
  | result (c : Tree .call) : Tree .operand
  | paren (e : Tree .expr) : Tree .operand
  | name (n : Name) : Tree .var
  | index (p : Tree .operand) (e : Tree .expr) : Tree .var
  | member (p : Tree .operand) (n : Name) : Tree .var
  | apply (p : Tree .operand) (a : Tree .args) : Tree .call
  | invoke (p : Tree .operand) (n : Name) (a : Tree .args) : Tree .call
  | noArgs : Tree .args
  | someArgs (es : Tree .exprs) : Tree .args
  | tableArg (fs : Tree .fields) : Tree .args
  | stringArg (text : List Char) : Tree .args
  -- lists of expressions, of assigned variables, and of the bounds of a loop
  | one (e : Tree .expr) : Tree .exprs
  | more (e : Tree .expr) (es : Tree .exprs) : Tree .exprs
  | target (v : Tree .var) : Tree .vars
  | targets (v : Tree .var) (vs : Tree .vars) : Tree .vars
  | span (first limit : Tree .expr) : Tree .range
  | stride (first limit step : Tree .expr) : Tree .range
  -- fields of tables
  | item (e : Tree .expr) : Tree .field
  | named (n : Name) (e : Tree .expr) : Tree .field
  | keyed (k e : Tree .expr) : Tree .field
  | noField : Tree .fields
  | lastField (f : Tree .field) : Tree .fields
  | fieldThen (f : Tree .field) (s : Separator) (fs : Tree .fields) : Tree .fields
  -- statements
  | semicolon : Tree .stmt
  | locals (first : Local) (rest : List Local) : Tree .stmt
  | localsInit (first : Local) (rest : List Local) (es : Tree .exprs) : Tree .stmt
  | assign (vs : Tree .vars) (es : Tree .exprs) : Tree .stmt
  | callOnly (c : Tree .call) : Tree .stmt
  | doEnd (b : Tree .block) : Tree .stmt
  | whileDo (e : Tree .expr) (b : Tree .block) : Tree .stmt
  | repeatUntil (b : Tree .block) (e : Tree .expr) : Tree .stmt
  | ifThen (e : Tree .expr) (b : Tree .block) (t : Tree .tail) : Tree .stmt
  | forRange (n : Name) (r : Tree .range) (b : Tree .block) : Tree .stmt
  | forIn (n : Name) (ns : List Name) (es : Tree .exprs) (b : Tree .block) : Tree .stmt
  | localFunction (n : Name) (ps : Params) (b : Tree .block) : Tree .stmt
  | functionNamed (f : FunctionName) (ps : Params) (b : Tree .block) : Tree .stmt
  | breakLoop : Tree .stmt
  | gotoLabel (n : Name) : Tree .stmt
  | label (n : Name) : Tree .stmt
  -- what follows the first block of an `if`
  | endIf : Tree .tail
  | elseEnd (b : Tree .block) : Tree .tail
  | elseIf (e : Tree .expr) (b : Tree .block) (t : Tree .tail) : Tree .tail
  -- blocks
  | nothing : Tree .block
  | ret (closed : Bool) : Tree .block
  | retValues (es : Tree .exprs) (closed : Bool) : Tree .block
  | cons (s : Tree .stmt) (b : Tree .block) : Tree .block

/-! ### Tokens -/

section Tokens

open Token

def nameTokens (ns : List Name) : List Token := (ns.map Token.name).intersperse (symbol .comma)

def Local.tokens (l : Local) : List Token :=
  .name l.name :: l.attrib.toList.flatMap fun a => [symbol .less, .name a, symbol .greater]

def localTokens : Local → List Local → List Token
  | l, [] => l.tokens
  | l, m :: ms => l.tokens ++ symbol .comma :: localTokens m ms

def Params.tokens (ps : Params) : List Token :=
  symbol .parenOpen :: (ps.names.map Token.name ++
    if ps.variadic then [symbol .ellipsis] else []).intersperse (symbol .comma) ++
    [symbol .parenClose]

def FunctionName.tokens (f : FunctionName) : List Token :=
  .name f.base :: f.fields.flatMap (fun n => [symbol .dot, .name n]) ++
    f.method.toList.flatMap fun n => [symbol .colon, .name n]

def Tree.tokens : {k : Kind} → Tree k → List Token
  | _, .literal t => [t.1]
  | _, .plain p => p.tokens
  | _, .table fs => symbol .braceOpen :: fs.tokens ++ [symbol .braceClose]
  | _, .binary l op r => l.tokens ++ op.1 :: r.tokens
  | _, .unary op e => op.1 :: e.tokens
  | _, .function ps b => keyword .functionKw :: ps.tokens ++ b.tokens ++ [keyword .endKw]
  | _, .read v => v.tokens
  | _, .result c => c.tokens
  | _, .paren e => symbol .parenOpen :: e.tokens ++ [symbol .parenClose]
  | _, .name n => [.name n]
  | _, .index p e => p.tokens ++ symbol .bracketOpen :: e.tokens ++ [symbol .bracketClose]
  | _, .member p n => p.tokens ++ [symbol .dot, .name n]
  | _, .apply p a => p.tokens ++ a.tokens
  | _, .invoke p n a => p.tokens ++ symbol .colon :: .name n :: a.tokens
  | _, .noArgs => [symbol .parenOpen, symbol .parenClose]
  | _, .someArgs es => symbol .parenOpen :: es.tokens ++ [symbol .parenClose]
  | _, .tableArg fs => symbol .braceOpen :: fs.tokens ++ [symbol .braceClose]
  | _, .stringArg text => [string text]
  | _, .one e => e.tokens
  | _, .more e es => e.tokens ++ symbol .comma :: es.tokens
  | _, .target v => v.tokens
  | _, .targets v vs => v.tokens ++ symbol .comma :: vs.tokens
  | _, .span first limit => first.tokens ++ symbol .comma :: limit.tokens
  | _, .stride first limit step =>
    first.tokens ++ symbol .comma :: limit.tokens ++ symbol .comma :: step.tokens
  | _, .item e => e.tokens
  | _, .named n e => .name n :: symbol .assign :: e.tokens
  | _, .keyed k e =>
    symbol .bracketOpen :: k.tokens ++ symbol .bracketClose :: symbol .assign :: e.tokens
  | _, .noField => []
  | _, .lastField f => f.tokens
  | _, .fieldThen f s fs => f.tokens ++ s.1 :: fs.tokens
  | _, .semicolon => [symbol .semicolon]
  | _, .locals l ls => keyword .localKw :: localTokens l ls
  | _, .localsInit l ls es =>
    keyword .localKw :: localTokens l ls ++ symbol .assign :: es.tokens
  | _, .assign vs es => vs.tokens ++ symbol .assign :: es.tokens
  | _, .callOnly c => c.tokens
  | _, .doEnd b => keyword .doKw :: b.tokens ++ [keyword .endKw]
  | _, .whileDo e b =>
    keyword .whileKw :: e.tokens ++ keyword .doKw :: b.tokens ++ [keyword .endKw]
  | _, .repeatUntil b e => keyword .repeatKw :: b.tokens ++ keyword .untilKw :: e.tokens
  | _, .ifThen e b t =>
    keyword .ifKw :: e.tokens ++ keyword .thenKw :: b.tokens ++ t.tokens
  | _, .forRange n r b =>
    keyword .forKw :: .name n :: symbol .assign :: r.tokens ++ keyword .doKw :: b.tokens ++
      [keyword .endKw]
  | _, .forIn n ns es b =>
    keyword .forKw :: nameTokens (n :: ns) ++ keyword .inKw :: es.tokens ++
      keyword .doKw :: b.tokens ++ [keyword .endKw]
  | _, .localFunction n ps b =>
    keyword .localKw :: keyword .functionKw :: .name n :: ps.tokens ++ b.tokens ++
      [keyword .endKw]
  | _, .functionNamed f ps b =>
    keyword .functionKw :: f.tokens ++ ps.tokens ++ b.tokens ++ [keyword .endKw]
  | _, .breakLoop => [keyword .breakKw]
  | _, .gotoLabel n => [keyword .gotoKw, .name n]
  | _, .label n => [symbol .doubleColon, .name n, symbol .doubleColon]
  | _, .endIf => [keyword .endKw]
  | _, .elseEnd b => keyword .elseKw :: b.tokens ++ [keyword .endKw]
  | _, .elseIf e b t =>
    keyword .elseifKw :: e.tokens ++ keyword .thenKw :: b.tokens ++ t.tokens
  | _, .nothing => []
  | _, .ret closed => keyword .returnKw :: if closed then [symbol .semicolon] else []
  | _, .retValues es closed =>
    keyword .returnKw :: es.tokens ++ if closed then [symbol .semicolon] else []
  | _, .cons s b => s.tokens ++ b.tokens

end Tokens

/-! ### Scopes -/

/-- A local variable, parameter or loop variable of a chunk. Declarations are numbered in the order
of the text; the `self` of a method is declared without being written. -/
structure Variable where
  number : Nat
  name : Name
  implicit : Bool
  deriving DecidableEq, Repr

/-- The variables in scope, innermost first. -/
abbrev Env := List Variable

inductive Role where
  | declares (v : Variable)
  | refers (v : Variable)
  /-- A name bound to no local. -/
  | free
  /-- No variable: a field, a key, a label, or no name at all. -/
  | other
  deriving DecidableEq, Repr

def Env.use (Γ : Env) (n : Name) : Role :=
  match Γ.find? (·.name = n) with
  | some v => .refers v
  | none => .free

/-- The variables that names declare, numbered from `k` on. -/
def declared (k : Nat) : List Name → List Variable
  | [] => []
  | n :: ns => ⟨k, n, false⟩ :: declared (k + 1) ns

def declaring (vs : List Variable) : List Role := (vs.map Role.declares).intersperse .other

def Local.roles (l : Local) (k : Nat) : List Role :=
  .declares ⟨k, l.name, false⟩ :: l.attrib.toList.flatMap fun _ => [.other, .other, .other]

def localRoles (k : Nat) : Local → List Local → List Role
  | l, [] => l.roles k
  | l, m :: ms => l.roles k ++ .other :: localRoles (k + 1) m ms

def Params.roles (ps : Params) (k : Nat) : List Role :=
  .other :: ((declared k ps.names).map Role.declares ++
    if ps.variadic then [Role.other] else []).intersperse .other ++ [.other]

/-- The receiver of a method. -/
def FunctionName.receiver (f : FunctionName) (k : Nat) : List Variable :=
  f.method.toList.map fun _ => ⟨k, ['s', 'e', 'l', 'f'], true⟩

def FunctionName.roles (f : FunctionName) (Γ : Env) : List Role :=
  Γ.use f.base :: f.fields.flatMap (fun _ => [Role.other, .other]) ++
    f.method.toList.flatMap fun _ => [.other, .other]

/-- Declaring variables hides outer ones and earlier ones of the same name. -/
def Env.declare (Γ : Env) (vs : List Variable) : Env := vs.reverse ++ Γ

namespace Tree

/-- The number of declarations. -/
def decls : {kind : Kind} → Tree kind → Nat
  | _, .literal _ | _, .name _ | _, .noArgs | _, .stringArg _ | _, .noField => 0
  | _, .plain p => p.decls
  | _, .table fs | _, .tableArg fs => fs.decls
  | _, .binary l _ r => l.decls + r.decls
  | _, .unary _ e | _, .paren e | _, .one e | _, .item e | _, .named _ e => e.decls
  | _, .function ps b => ps.names.length + b.decls
  | _, .read v | _, .target v => v.decls
  | _, .result c | _, .callOnly c => c.decls
  | _, .index p e => p.decls + e.decls
  | _, .member p _ => p.decls
  | _, .apply p a | _, .invoke p _ a => p.decls + a.decls
  | _, .someArgs es => es.decls
  | _, .more e es => e.decls + es.decls
  | _, .targets v vs => v.decls + vs.decls
  | _, .span first limit => first.decls + limit.decls
  | _, .stride first limit step => first.decls + limit.decls + step.decls
  | _, .keyed k e => k.decls + e.decls
  | _, .lastField f => f.decls
  | _, .fieldThen f _ fs => f.decls + fs.decls
  | _, .semicolon | _, .breakLoop | _, .gotoLabel _ | _, .label _ => 0
  | _, .locals _ ls => 1 + ls.length
  | _, .localsInit _ ls es => 1 + ls.length + es.decls
  | _, .assign vs es => vs.decls + es.decls
  | _, .doEnd b | _, .elseEnd b => b.decls
  | _, .whileDo e b => e.decls + b.decls
  | _, .repeatUntil b e => b.decls + e.decls
  | _, .ifThen e b t | _, .elseIf e b t => e.decls + b.decls + t.decls
  | _, .forRange _ r b => 1 + r.decls + b.decls
  | _, .forIn _ ns es b => 1 + ns.length + es.decls + b.decls
  | _, .localFunction _ ps b => 1 + ps.names.length + b.decls
  | _, .functionNamed f ps b => f.method.toList.length + ps.names.length + b.decls
  | _, .endIf | _, .nothing | _, .ret _ => 0
  | _, .retValues es _ => es.decls
  | _, .cons s b => s.decls + b.decls

/-- The scope after a statement, or at the end of a block; declarations are numbered from `k` on. -/
def extend : {kind : Kind} → Tree kind → Env → Nat → Env
  | _, .locals l ls, Γ, k | _, .localsInit l ls _, Γ, k =>
    Γ.declare (declared k (l.name :: ls.map Local.name))
  | _, .localFunction n _ _, Γ, k => Γ.declare (declared k [n])
  | _, .cons s b, Γ, k => b.extend (s.extend Γ k) (k + s.decls)
  | _, _, Γ, _ => Γ

/-- What every token refers to, in a scope and with declarations numbered from `k` on. -/
def roles : {kind : Kind} → Tree kind → Env → Nat → List Role
  | _, .literal _, _, _ => [.other]
  | _, .plain p, Γ, k => p.roles Γ k
  | _, .table fs, Γ, k => .other :: fs.roles Γ k ++ [.other]
  | _, .binary l _ r, Γ, k => l.roles Γ k ++ .other :: r.roles Γ (k + l.decls)
  | _, .unary _ e, Γ, k => .other :: e.roles Γ k
  | _, .function ps b, Γ, k =>
    .other :: ps.roles k ++
      b.roles (Γ.declare (declared k ps.names)) (k + ps.names.length) ++ [.other]
  | _, .read v, Γ, k => v.roles Γ k
  | _, .result c, Γ, k => c.roles Γ k
  | _, .paren e, Γ, k => .other :: e.roles Γ k ++ [.other]
  | _, .name n, Γ, _ => [Γ.use n]
  | _, .index p e, Γ, k => p.roles Γ k ++ .other :: e.roles Γ (k + p.decls) ++ [.other]
  | _, .member p _, Γ, k => p.roles Γ k ++ [.other, .other]
  | _, .apply p a, Γ, k => p.roles Γ k ++ a.roles Γ (k + p.decls)
  | _, .invoke p _ a, Γ, k => p.roles Γ k ++ .other :: .other :: a.roles Γ (k + p.decls)
  | _, .noArgs, _, _ => [.other, .other]
  | _, .someArgs es, Γ, k => .other :: es.roles Γ k ++ [.other]
  | _, .tableArg fs, Γ, k => .other :: fs.roles Γ k ++ [.other]
  | _, .stringArg _, _, _ => [.other]
  | _, .one e, Γ, k => e.roles Γ k
  | _, .more e es, Γ, k => e.roles Γ k ++ .other :: es.roles Γ (k + e.decls)
  | _, .target v, Γ, k => v.roles Γ k
  | _, .targets v vs, Γ, k => v.roles Γ k ++ .other :: vs.roles Γ (k + v.decls)
  | _, .span first limit, Γ, k => first.roles Γ k ++ .other :: limit.roles Γ (k + first.decls)
  | _, .stride first limit step, Γ, k =>
    first.roles Γ k ++ .other :: limit.roles Γ (k + first.decls) ++
      .other :: step.roles Γ (k + first.decls + limit.decls)
  | _, .item e, Γ, k => e.roles Γ k
  | _, .named _ e, Γ, k => .other :: .other :: e.roles Γ k
  | _, .keyed key e, Γ, k =>
    .other :: key.roles Γ k ++ .other :: .other :: e.roles Γ (k + key.decls)
  | _, .noField, _, _ => []
  | _, .lastField f, Γ, k => f.roles Γ k
  | _, .fieldThen f _ fs, Γ, k => f.roles Γ k ++ .other :: fs.roles Γ (k + f.decls)
  | _, .semicolon, _, _ => [.other]
  | _, .locals l ls, _, k => .other :: localRoles k l ls
  | _, .localsInit l ls es, Γ, k =>
    .other :: localRoles k l ls ++ .other :: es.roles Γ (k + (1 + ls.length))
  | _, .assign vs es, Γ, k => vs.roles Γ k ++ .other :: es.roles Γ (k + vs.decls)
  | _, .callOnly c, Γ, k => c.roles Γ k
  | _, .doEnd b, Γ, k => .other :: b.roles Γ k ++ [.other]
  | _, .whileDo e b, Γ, k =>
    .other :: e.roles Γ k ++ .other :: b.roles Γ (k + e.decls) ++ [.other]
  -- the condition of a loop sees the locals of its body
  | _, .repeatUntil b e, Γ, k =>
    .other :: b.roles Γ k ++ .other :: e.roles (b.extend Γ k) (k + b.decls)
  | _, .ifThen e b t, Γ, k =>
    .other :: e.roles Γ k ++ .other :: b.roles Γ (k + e.decls) ++ t.roles Γ (k + e.decls + b.decls)
  | _, .forRange n r b, Γ, k =>
    .other :: declaring (declared k [n]) ++ .other :: r.roles Γ (k + 1) ++
      .other :: b.roles (Γ.declare (declared k [n])) (k + 1 + r.decls) ++ [.other]
  | _, .forIn n ns es b, Γ, k =>
    .other :: declaring (declared k (n :: ns)) ++ .other :: es.roles Γ (k + (1 + ns.length)) ++
      .other :: b.roles (Γ.declare (declared k (n :: ns))) (k + (1 + ns.length) + es.decls) ++
      [.other]
  | _, .localFunction n ps b, Γ, k =>
    let Γ := Γ.declare (declared k [n])
    .other :: .other :: declaring (declared k [n]) ++ ps.roles (k + 1) ++
      b.roles (Γ.declare (declared (k + 1) ps.names)) (k + 1 + ps.names.length) ++ [.other]
  | _, .functionNamed f ps b, Γ, k =>
    let k' := k + f.method.toList.length
    .other :: f.roles Γ ++ ps.roles k' ++
      b.roles ((Γ.declare (f.receiver k)).declare (declared k' ps.names))
        (k' + ps.names.length) ++ [.other]
  | _, .breakLoop, _, _ => [.other]
  | _, .gotoLabel _, _, _ => [.other, .other]
  | _, .label _, _, _ => [.other, .other, .other]
  | _, .endIf, _, _ => [.other]
  | _, .elseEnd b, Γ, k => .other :: b.roles Γ k ++ [.other]
  | _, .elseIf e b t, Γ, k =>
    .other :: e.roles Γ k ++ .other :: b.roles Γ (k + e.decls) ++ t.roles Γ (k + e.decls + b.decls)
  | _, .nothing, _, _ => []
  | _, .ret closed, _, _ => .other :: if closed then [.other] else []
  | _, .retValues es closed, Γ, k => .other :: es.roles Γ k ++ if closed then [.other] else []
  | _, .cons s b, Γ, k => s.roles Γ k ++ b.roles (s.extend Γ k) (k + s.decls)

/-- Whether a tree and all trees inside it pass a test. -/
def all (test : {kind : Kind} → Tree kind → Bool) : {kind : Kind} → Tree kind → Bool
  | _, t@(.literal _) | _, t@(.name _) | _, t@.noArgs | _, t@(.stringArg _) | _, t@.noField =>
    test t
  | _, t@(.plain p) => test t && p.all test
  | _, t@(.table fs) | _, t@(.tableArg fs) => test t && fs.all test
  | _, t@(.binary l _ r) => test t && l.all test && r.all test
  | _, t@(.unary _ e) | _, t@(.paren e) | _, t@(.one e) | _, t@(.item e) | _, t@(.named _ e) =>
    test t && e.all test
  | _, t@(.function _ b) => test t && b.all test
  | _, t@(.read v) | _, t@(.target v) => test t && v.all test
  | _, t@(.result c) | _, t@(.callOnly c) => test t && c.all test
  | _, t@(.index p e) => test t && p.all test && e.all test
  | _, t@(.member p _) => test t && p.all test
  | _, t@(.apply p a) | _, t@(.invoke p _ a) => test t && p.all test && a.all test
  | _, t@(.someArgs es) => test t && es.all test
  | _, t@(.more e es) => test t && e.all test && es.all test
  | _, t@(.targets v vs) => test t && v.all test && vs.all test
  | _, t@(.span first limit) => test t && first.all test && limit.all test
  | _, t@(.stride first limit step) => test t && first.all test && limit.all test && step.all test
  | _, t@(.keyed k e) => test t && k.all test && e.all test
  | _, t@(.lastField f) => test t && f.all test
  | _, t@(.fieldThen f _ fs) => test t && f.all test && fs.all test
  | _, t@.semicolon | _, t@.breakLoop | _, t@(.gotoLabel _) | _, t@(.label _) => test t
  | _, t@(.locals _ _) => test t
  | _, t@(.localsInit _ _ es) => test t && es.all test
  | _, t@(.assign vs es) => test t && vs.all test && es.all test
  | _, t@(.doEnd b) | _, t@(.elseEnd b) => test t && b.all test
  | _, t@(.whileDo e b) => test t && e.all test && b.all test
  | _, t@(.repeatUntil b e) => test t && b.all test && e.all test
  | _, t@(.ifThen e b f) | _, t@(.elseIf e b f) => test t && e.all test && b.all test && f.all test
  | _, t@(.forRange _ r b) => test t && r.all test && b.all test
  | _, t@(.forIn _ _ es b) => test t && es.all test && b.all test
  | _, t@(.localFunction _ _ b) | _, t@(.functionNamed _ _ b) => test t && b.all test
  | _, t@.endIf | _, t@.nothing | _, t@(.ret _) => test t
  | _, t@(.retValues es _) => test t && es.all test
  | _, t@(.cons s b) => test t && s.all test && b.all test

/-- An anonymous function. -/
def isFunction : {kind : Kind} → Tree kind → Bool
  | _, .function _ _ => true
  | _, _ => false

/-- A statement that begins with a parenthesis. -/
def opensParen : {kind : Kind} → Tree kind → Bool
  | .stmt, t => t.tokens.head? == some (.symbol .parenOpen)
  | _, _ => false

/-- Nothing inside the tree is an anonymous function or a statement that begins with a parenthesis. -/
def plainly {kind : Kind} (t : Tree kind) : Bool := t.all fun t => !t.isFunction && !t.opensParen

end Tree

end LuaBundle.Lua
