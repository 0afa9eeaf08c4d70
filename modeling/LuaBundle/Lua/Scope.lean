import LuaBundle.Lua.Layout

/-!
# Scopes

A walk over the tokens of a chunk binds every name that is a variable: to the declaration of a
local, parameter or loop variable, or to a global. Fields, methods, keys of table constructors and
labels stay unbound. Declarations that take effect only at the end of their statement, and scopes
that close there, wait under the index of the token they wait for.
-/
namespace LuaBundle.Lua

structure Decl where
  id : Nat
  /-- The receiver of a method, which is declared without being written. -/
  implicit : Bool
  deriving DecidableEq, Repr

inductive Binding where
  | unbound
  | declared (decl : Decl)
  | global
  deriving DecidableEq, Repr

inductive ScopeFault where
  | localFunctionName
  | localName
  | functionParens
  | openParameters
  deriving DecidableEq, Repr

def ScopeFault.message : ScopeFault → String
  | localFunctionName => "expected a name after 'local function'"
  | localName => "expected a name after 'local'"
  | functionParens => "expected '(' after 'function'"
  | openParameters => "unfinished parameter list"

/-- The names declared in one block; a later declaration comes first and hides earlier ones. -/
abbrev Frame := List (List Char × Decl)

inductive Waiting where
  /-- Declare in the frame of the given level, where the chunk's own frame has level 0. -/
  | activate (level : Nat) (names : Frame)
  | leave
  deriving DecidableEq, Repr

structure ScopeState where
  /-- Innermost first; the chunk's own frame is never left. -/
  frames : List Frame
  declared : Nat
  brackets : List Symbol
  /-- Variables of loop headers whose body has not begun. -/
  loops : List Frame
  waiting : List (Nat × Waiting)
  /-- Indices of plain names known to be assigned. -/
  targets : List Nat
  /-- Assigned globals, in the order of their first assignment. -/
  assigned : List (List Char)
  deriving DecidableEq, Repr

namespace ScopeState

def initial : ScopeState := ⟨[[]], 0, [], [], [], [], []⟩

def enter (s : ScopeState) : ScopeState := { s with frames := [] :: s.frames }

def leave (s : ScopeState) : ScopeState :=
  if s.frames.length > 1 then { s with frames := s.frames.tail } else s

def lookup? (s : ScopeState) (name : List Char) : Option Decl :=
  s.frames.findSome? (·.lookup name)

def fresh (s : ScopeState) (implicit : Bool) : Decl × ScopeState :=
  (⟨s.declared, implicit⟩, { s with declared := s.declared + 1 })

/-- Declare names, given in source order, in the innermost frame. -/
def activate (s : ScopeState) (names : Frame) : ScopeState :=
  { s with frames := s.frames.modifyHead (names.reverse ++ ·) }

def activateAt (s : ScopeState) (level : Nat) (names : Frame) : ScopeState :=
  if level < s.frames.length then
    { s with frames := s.frames.modify (s.frames.length - 1 - level) (names.reverse ++ ·) }
  else s

def wait (s : ScopeState) (index : Nat) (action : Waiting) : ScopeState :=
  { s with waiting := s.waiting ++ [(index, action)] }

/-- What waits for a token takes effect before it is read. Declarations belong to statements inside
the scope that a `leave` closes, so they come first. -/
def settle (s : ScopeState) (index : Nat) : ScopeState :=
  let due := (s.waiting.filter (·.1 == index)).map Prod.snd
  let s := { s with waiting := s.waiting.filter (·.1 != index) }
  let s := due.foldl (fun s action =>
    match action with
    | .activate level names => s.activateAt level names
    | .leave => s) s
  due.foldl (fun s action =>
    match action with
    | .activate .. => s
    | .leave => s.leave) s

def assign (s : ScopeState) (name : List Char) : ScopeState :=
  if name ∈ s.assigned then s else { s with assigned := s.assigned ++ [name] }

def reference (s : ScopeState) (name : List Char) (isAssigned : Bool) : Binding × ScopeState :=
  match s.lookup? name with
  | some d => (.declared d, s)
  | none => (.global, if isAssigned then s.assign name else s)

end ScopeState

def startsWith (mark : Symbol) : List Site → Bool
  | s :: _ => s.token == .symbol mark
  | [] => false

/-- A plain name is a target where a comma or an equals sign follows it. -/
def isTargetBefore (rest : List Site) : Bool := startsWith .comma rest || startsWith .assign rest

/-- The plain names of the target list that the sites run through, up to its equals sign. A list
that ends otherwise is no assignment. -/
def targetsAhead (depth : Nat) (found : List Nat) : List Site → List Nat
  | [] => []
  | s :: rest =>
    if s.mark.start then []
    else
      match s.token with
      | .symbol .parenOpen | .symbol .bracketOpen | .symbol .braceOpen =>
        targetsAhead (depth + 1) found rest
      | .symbol .parenClose | .symbol .bracketClose | .symbol .braceClose =>
        targetsAhead (depth - 1) found rest
      | .symbol .assign => if depth = 0 then found else targetsAhead depth found rest
      | .symbol .comma =>
        match rest with
        | n :: after =>
          if depth = 0 ∧ n.token.isName ∧ isTargetBefore after then
            targetsAhead depth (found ++ [n.index]) rest
          else targetsAhead depth found rest
        | [] => []
      | .keyword _ => []
      | _ => targetsAhead depth found rest

def assignmentTargets (s : Site) (rest : List Site) : List Nat :=
  targetsAhead 0 (if isTargetBefore rest then [s.index] else []) rest

/-- What a step of the walk gives: the bindings of the tokens it passes, and the state after. -/
abbrev Passed := List Binding × ScopeState

def pass (count : Nat) (s : ScopeState) : Passed := (List.replicate count .unbound, s)

/-- The names of a declaration list, each with an attribute in angle brackets if `attribs`. Gives
the bindings of the tokens passed, the declarations in source order, and what follows. -/
def declareNames (attribs : Bool) (s : ScopeState) (sites : List Site) :
    List Binding × Frame × ScopeState × List Site :=
  match sites with
  | [] => ([], [], s, [])
  | site :: rest =>
    match site.token with
    | .name n =>
      let (d, s) := s.fresh false
      let skipped := if attribs ∧ startsWith .less rest then 3 else 0
      let bound := .declared d :: List.replicate skipped .unbound
      match _h : rest.drop skipped with
      | [] => (bound, [(n, d)], s, [])
      | c :: after =>
        if c.token = .symbol .comma then
          let (bs, names, s, after) := declareNames attribs s after
          (bound ++ .unbound :: bs, (n, d) :: names, s, after)
        else (bound, [(n, d)], s, c :: after)
    | _ => ([], [], s, site :: rest)
termination_by sites.length
decreasing_by
  have hl := congrArg List.length _h
  simp only [List.length_drop, List.length_cons] at hl ⊢
  omega

/-- The dotted rest of a function's name: the number of tokens passed, whether the last separator
was a colon, and what follows. -/
def namePath (method : Bool) : List Site → Nat × Bool × List Site
  | dot :: name :: rest =>
    if dot.token = .symbol .dot ∨ dot.token = .symbol .colon then
      let (n, m, after) := namePath (dot.token == .symbol .colon) rest
      (n + 2, m, after)
    else (0, method, dot :: name :: rest)
  | sites => (0, method, sites)

/-- Parameters up to the closing parenthesis, each declared on its own. -/
def parameters (s : ScopeState) : List Site → Except ScopeFault Passed
  | [] => .error .openParameters
  | site :: rest =>
    match site.token with
    | .symbol .parenClose => .ok (pass 1 s)
    | .name n =>
      let (d, s) := s.fresh false
      match parameters (s.activate [(n, d)]) rest with
      | .ok (bs, s) => .ok (.declared d :: bs, s)
      | .error e => .error e
    | _ =>
      match parameters s rest with
      | .ok (bs, s) => .ok (.unbound :: bs, s)
      | .error e => .error e

/-- From the opening parenthesis of a function to the end of its parameter list. -/
def functionParams (method : Bool) (s : ScopeState) : List Site → Except ScopeFault Passed
  | site :: rest =>
    if site.token = .symbol .parenOpen then
      let s := s.enter
      let s :=
        if method then
          let (d, s) := s.fresh true
          s.activate [(['s', 'e', 'l', 'f'], d)]
        else s
      match parameters s rest with
      | .ok (bs, s) => .ok (.unbound :: bs, s)
      | .error e => .error e
    else .error .functionParens
  | [] => .error .functionParens

/-- What follows the `function` keyword: a name whose binding is already known or is looked up
here, its dotted rest, and the parameters. -/
def functionHeader (known : Option Binding) (s : ScopeState) (sites : List Site) :
    Except ScopeFault Passed :=
  match sites with
  | [] => .error .functionParens
  | site :: rest =>
    match site.token with
    | .name n =>
      let (b, s) :=
        match known with
        | some b => (b, s)
        | none => s.reference n !(startsWith .dot rest || startsWith .colon rest)
      let (passed, method, after) := namePath false rest
      match functionParams method s after with
      | .ok (bs, s) => .ok (b :: List.replicate passed .unbound ++ bs, s)
      | .error e => .error e
    | _ => functionParams false s sites

def localFunction (s : ScopeState) : List Site → Except ScopeFault Passed
  | site :: rest =>
    match site.token with
    | .name n =>
      let (d, s) := s.fresh false
      functionHeader (some (.declared d)) (s.activate [(n, d)]) (site :: rest)
    | _ => .error .localFunctionName
  | [] => .error .localFunctionName

/-- What follows the `local` keyword at `site`. Initialisers still see the outer bindings. -/
def localStatement (s : ScopeState) (site : Site) (sites : List Site) : Except ScopeFault Passed :=
  let (bs, names, s, after) := declareNames true s sites
  if names.isEmpty then .error .localName
  else if startsWith .assign after then
    match sites.find? (·.mark.endsAt site.mark.depth) with
    | some stop => .ok (bs, s.wait stop.index (.activate (s.frames.length - 1) names))
    | none => .ok (bs, s)
  else .ok (bs, s.activate names)

def nameUse (s : ScopeState) (site : Site) (name : List Char) (rest : List Site) :
    Binding × ScopeState :=
  if site.before = some (.symbol .dot) ∨ site.before = some (.symbol .colon) then (.unbound, s)
  else if s.brackets.head? = some .braceOpen ∧ ¬ site.mark.start ∧
      (site.before = some (.symbol .braceOpen) ∨ site.before = some (.symbol .comma) ∨
        site.before = some (.symbol .semicolon)) ∧ startsWith .assign rest then (.unbound, s)
  else
    let s :=
      if site.mark.start then { s with targets := assignmentTargets site rest ++ s.targets } else s
    s.reference name (site.index ∈ s.targets)

/-- Prepend the binding of the token that began a step. -/
def after (b : Binding) : Except ScopeFault Passed → Except ScopeFault Passed
  | .ok (bs, s) => .ok (b :: bs, s)
  | .error e => .error e

def stepKeyword (s : ScopeState) (site : Site) (rest : List Site) :
    Keyword → Except ScopeFault Passed
  | .localKw =>
    match rest with
    | f :: rest' =>
      if f.token = .keyword .functionKw then
        after .unbound (after .unbound (localFunction s rest'))
      else after .unbound (localStatement s site rest)
    | [] => .error .localName
  | .functionKw => after .unbound (functionHeader none s rest)
  | .forKw =>
    let (bs, names, s, _) := declareNames false s rest
    .ok (.unbound :: bs, { s with loops := names :: s.loops })
  | .whileKw => .ok (pass 1 { s with loops := [] :: s.loops })
  | .doKw =>
    let s := s.enter
    match site.mark.start, s.loops with
    | false, names :: loops => .ok (pass 1 ({ s with loops }.activate names))
    | _, _ => .ok (pass 1 s)
  | .thenKw | .repeatKw => .ok (pass 1 s.enter)
  | .elseKw => .ok (pass 1 s.leave.enter)
  | .elseifKw | .endKw => .ok (pass 1 s.leave)
  | .untilKw =>
    match rest.find? (·.mark.endsAt site.mark.depth) with
    | some stop => .ok (pass 1 (s.wait stop.index .leave))
    | none => .ok (pass 1 s)
  | .gotoKw => .ok (pass 2 s)
  | _ => .ok (pass 1 s)

/-- One step of the walk, from the token at `site`. -/
def step (s : ScopeState) (site : Site) (rest : List Site) : Except ScopeFault Passed :=
  match site.token with
  | .keyword k => stepKeyword s site rest k
  | .symbol .doubleColon =>
    match rest with
    | n :: c :: _ =>
      .ok (pass (if n.token.isName ∧ c.token = .symbol .doubleColon then 3 else 1) s)
    | _ => .ok (pass 1 s)
  | .symbol .parenOpen => .ok (pass 1 { s with brackets := .parenOpen :: s.brackets })
  | .symbol .bracketOpen => .ok (pass 1 { s with brackets := .bracketOpen :: s.brackets })
  | .symbol .braceOpen => .ok (pass 1 { s with brackets := .braceOpen :: s.brackets })
  | .symbol .parenClose | .symbol .bracketClose | .symbol .braceClose =>
    .ok (pass 1 { s with brackets := s.brackets.tail })
  | .name n =>
    let (b, s) := nameUse s site n rest
    .ok ([b], s)
  | _ => .ok (pass 1 s)

/-- The bindings of all tokens, and the state at the end of the chunk. -/
def walk (s : ScopeState) : List Site → Except ScopeFault Passed
  | [] => .ok ([], s)
  | site :: rest =>
    match step (s.settle site.index) site rest with
    | .error e => .error e
    | .ok (bs, s) =>
      match walk s (rest.drop (bs.length - 1)) with
      | .error e => .error e
      | .ok (more, s) => .ok (bs ++ more, s)
termination_by sites => sites.length
decreasing_by
  simp only [List.length_drop, List.length_cons]
  omega

end LuaBundle.Lua
