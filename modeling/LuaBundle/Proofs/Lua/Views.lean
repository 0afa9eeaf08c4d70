import LuaBundle.Proofs.Lua.Tree

/-!
# What the walk sees

The walk has no tree. It closes what waits for the end of a statement where a block ends or a
statement seems to begin, takes every `do` that seems to begin none for the one of a loop, and takes
a name between a comma and an equals sign for a key where a brace is open. Here this is said of
trees: `Tree.seen` is to the walk what `Tree.roles` is to the language.
-/
namespace LuaBundle.Lua

/-- What is in sight between two tokens. -/
structure View where
  env : Env
  /-- The scope from the end of the statement on. -/
  later : Env
  /-- Variables of loops whose `do` has not been met, innermost first. -/
  loops : List (List Variable)
  /-- The innermost bracket is a brace. -/
  braced : Bool
  /-- A block has just begun, or a semicolon stands before. -/
  fresh : Bool

namespace View

def outermost : View := ⟨[], [], [], false, true⟩

/-- Inside a bracket, which is a brace or none. -/
def inside (x : View) (brace : Bool) : View := { x with braced := brace }

/-- The end of the statement has come. -/
def settled (x : View) : View := { x with env := x.later }

/-- So many `do` that are not those of the loops have been met. -/
def skip (x : View) (strays : Nat) : View := { x with loops := x.loops.drop strays }

/-- The first function that closes ends the statement for the walk. -/
def pass (x : View) (closes : Bool) (strays : Nat) : View :=
  (if closes then x.settled else x).skip strays

/-- A statement has ended, and no semicolon ended it. -/
def stale (x : View) : View := { x with fresh := false }

/-- A block begins, with these variables. -/
def opened (x : View) (vs : List Variable) : View :=
  { x with env := x.env.declare vs, later := x.env.declare vs, fresh := true }

def header (x : View) (vs : List Variable) : View := { x with loops := vs :: x.loops }

/-- A block begins with a `do` that seems to be the one of a loop. -/
def entered (x : View) : View := { x.opened (x.loops.headD []) with loops := x.loops.tail }

/-- A statement has ended in this scope. -/
def between (x : View) (Γ : Env) : View := { x.stale with env := Γ, later := Γ }

/-- Declarations that wait for the end of the statement. -/
def awaiting (x : View) (vs : List Variable) : View := { x with later := x.env.declare vs }

end View

namespace Tree

/-- Some function ends inside. -/
def closes {kind : Kind} (t : Tree kind) : Bool := !t.all fun t => !t.isFunction

def isSemicolon : {kind : Kind} → Tree kind → Bool
  | _, .semicolon => true
  | _, _ => false

/-- The last target of a list, if it is a plain name. -/
def isPlainTarget : {kind : Kind} → Tree kind → Bool
  | _, .target (.name _) => true
  | _, _ => false

/-- The number of `do`-blocks that neither begin a block nor follow a semicolon. -/
def strays : {kind : Kind} → Tree kind → (fresh : Bool) → Nat
  | _, .literal _, _ | _, .name _, _ | _, .noArgs, _ | _, .stringArg _, _ | _, .noField, _ => 0
  | _, .plain p, _ => p.strays true
  | _, .table fs, _ | _, .tableArg fs, _ => fs.strays true
  | _, .binary l _ r, _ => l.strays true + r.strays true
  | _, .unary _ e, _ | _, .paren e, _ | _, .one e, _ | _, .item e, _ | _, .named _ e, _ =>
    e.strays true
  | _, .function _ b, _ => b.strays true
  | _, .read v, _ | _, .target v, _ => v.strays true
  | _, .result c, _ | _, .callOnly c, _ => c.strays true
  | _, .index p e, _ => p.strays true + e.strays true
  | _, .member p _, _ => p.strays true
  | _, .apply p a, _ | _, .invoke p _ a, _ => p.strays true + a.strays true
  | _, .someArgs es, _ => es.strays true
  | _, .more e es, _ => e.strays true + es.strays true
  | _, .targets v vs, _ => v.strays true + vs.strays true
  | _, .span first limit, _ => first.strays true + limit.strays true
  | _, .stride first limit step, _ => first.strays true + limit.strays true + step.strays true
  | _, .keyed k e, _ => k.strays true + e.strays true
  | _, .lastField f, _ => f.strays true
  | _, .fieldThen f _ fs, _ => f.strays true + fs.strays true
  | _, .semicolon, _ | _, .breakLoop, _ | _, .gotoLabel _, _ | _, .label _, _ => 0
  | _, .locals _ _, _ => 0
  | _, .localsInit _ _ es, _ => es.strays true
  | _, .assign vs es, _ => vs.strays true + es.strays true
  | _, .doEnd b, fresh => (if fresh then 0 else 1) + b.strays true
  | _, .whileDo e b, _ => e.strays true + b.strays true
  | _, .repeatUntil b e, _ => b.strays true + e.strays true
  | _, .ifThen e b t, _ | _, .elseIf e b t, _ => e.strays true + b.strays true + t.strays true
  | _, .forRange _ r b, _ => r.strays true + b.strays true
  | _, .forIn _ _ es b, _ => es.strays true + b.strays true
  | _, .localFunction _ _ b, _ | _, .functionNamed _ _ b, _ | _, .elseEnd b, _ => b.strays true
  | _, .endIf, _ | _, .nothing, _ | _, .ret _, _ => 0
  | _, .retValues es _, _ => es.strays true
  | _, .cons s b, fresh => s.strays fresh + b.strays s.isSemicolon

end Tree

namespace View

/-- Behind an expression, or several. -/
def past (x : View) {kind : Kind} (t : Tree kind) : View := x.pass t.closes (t.strays true)

/-- The first token of the statement does not seem to begin one. -/
def hushes (x : View) (t : Tree .stmt) : Bool :=
  match t with
  | .doEnd _ => !x.fresh && !x.loops.isEmpty
  | t => t.opensParen

/-- At a statement, behind what its first token ends. -/
def reach (x : View) (t : Tree .stmt) : View := if x.hushes t then x else x.settled

/-- At the beginning of the block of a `do` that no loop has. -/
def plainDo (x : View) : View := if x.fresh then x.opened [] else x.entered

/-- At the condition of a loop whose body has ended in the view `y`. -/
def untilFrom (x y : View) : View := { y with env := y.later, later := x.env, braced := x.braced }

end View

namespace Tree

/-- What is in sight behind a statement whose first token is past, or at the end of a block;
declarations are numbered from `k` on. -/
def left : {kind : Kind} → Tree kind → View → Nat → View
  | _, .semicolon, x, _ => { x with fresh := true }
  | _, .locals l ls, x, k => x.between (x.env.declare (declared k (l.name :: ls.map Local.name)))
  | _, .localsInit l ls es, x, k =>
    ((x.awaiting (declared k (l.name :: ls.map Local.name))).past es).stale
  | _, .assign vs es, x, _ => ((x.past vs).past es).stale
  | _, .callOnly c, x, _ => (x.past c).stale
  | _, t@(.doEnd _), x, _ => (x.between x.later).skip (t.strays x.fresh)
  | _, .repeatUntil b e, x, k => ((x.untilFrom (b.left (x.opened []) k)).past e).stale
  | _, t@(.localFunction n _ _), x, k =>
    (x.between (x.env.declare (declared k [n]))).skip (t.strays true)
  | _, .ret _, x, _ => x.settled
  | _, .retValues es _, x, _ => x.settled.past es
  | _, .cons s b, x, k => b.left (s.left (x.reach s) k) (k + s.decls)
  | _, .nothing, x, _ => x
  | _, t, x, _ => (x.between x.env).skip (t.strays true)

/-- What the walk takes every token for. -/
def seen : {kind : Kind} → Tree kind → View → Nat → List Role
  | _, .literal _, _, _ => [.other]
  | _, .plain p, x, k => p.seen x k
  | _, .table fs, x, k => .other :: fs.seen (x.inside true) k ++ [.other]
  | _, .binary l _ r, x, k => l.seen x k ++ .other :: r.seen (x.past l) (k + l.decls)
  | _, .unary _ e, x, k => .other :: e.seen x k
  | _, .function ps b, x, k =>
    .other :: ps.roles k ++ b.seen (x.opened (declared k ps.names)) (k + ps.names.length) ++ [.other]
  | _, .read v, x, k => v.seen x k
  | _, .result c, x, k => c.seen x k
  | _, .paren e, x, k => .other :: e.seen (x.inside false) k ++ [.other]
  | _, .name n, x, _ => [x.env.use n]
  | _, .index p e, x, k =>
    p.seen x k ++ .other :: e.seen ((x.past p).inside false) (k + p.decls) ++ [.other]
  | _, .member p _, x, k => p.seen x k ++ [.other, .other]
  | _, .apply p a, x, k => p.seen x k ++ a.seen (x.past p) (k + p.decls)
  | _, .invoke p _ a, x, k => p.seen x k ++ .other :: .other :: a.seen (x.past p) (k + p.decls)
  | _, .noArgs, _, _ => [.other, .other]
  | _, .someArgs es, x, k => .other :: es.seen (x.inside false) k ++ [.other]
  | _, .tableArg fs, x, k => .other :: fs.seen (x.inside true) k ++ [.other]
  | _, .stringArg _, _, _ => [.other]
  | _, .one e, x, k => e.seen x k
  | _, .more e es, x, k => e.seen x k ++ .other :: es.seen (x.past e) (k + e.decls)
  | _, .target v, x, k => v.seen x k
  -- between a comma and an equals sign a plain name seems to be a key
  | _, .targets v vs, x, k =>
    v.seen x k ++ .other ::
      if x.braced && vs.isPlainTarget then [.other] else vs.seen (x.past v) (k + v.decls)
  | _, .span first limit, x, k => first.seen x k ++ .other :: limit.seen (x.past first) (k + first.decls)
  | _, .stride first limit step, x, k =>
    first.seen x k ++ .other :: limit.seen (x.past first) (k + first.decls) ++
      .other :: step.seen ((x.past first).past limit) (k + first.decls + limit.decls)
  | _, .item e, x, k => e.seen x k
  | _, .named _ e, x, k => .other :: .other :: e.seen x k
  | _, .keyed key e, x, k =>
    .other :: key.seen (x.inside false) k ++ .other :: .other :: e.seen (x.past key) (k + key.decls)
  | _, .noField, _, _ => []
  | _, .lastField f, x, k => f.seen x k
  | _, .fieldThen f _ fs, x, k => f.seen x k ++ .other :: fs.seen (x.past f) (k + f.decls)
  | _, .semicolon, _, _ => [.other]
  | _, .locals l ls, _, k => .other :: localRoles k l ls
  | _, .localsInit l ls es, x, k =>
    .other :: localRoles k l ls ++ .other ::
      es.seen (x.awaiting (declared k (l.name :: ls.map Local.name))) (k + (1 + ls.length))
  | _, .assign vs es, x, k => vs.seen x k ++ .other :: es.seen (x.past vs) (k + vs.decls)
  | _, .callOnly c, x, k => c.seen x k
  | _, .doEnd b, x, k => .other :: b.seen x.plainDo k ++ [.other]
  | _, .whileDo e b, x, k =>
    .other :: e.seen (x.header []) k ++
      .other :: b.seen ((x.header []).past e).entered (k + e.decls) ++ [.other]
  | _, .repeatUntil b e, x, k =>
    .other :: b.seen (x.opened []) k ++
      .other :: e.seen (x.untilFrom (b.left (x.opened []) k)) (k + b.decls)
  | _, .ifThen e b t, x, k | _, .elseIf e b t, x, k =>
    .other :: e.seen x k ++ .other :: b.seen ((x.past e).opened []) (k + e.decls) ++
      t.seen (x.skip (e.strays true + b.strays true)) (k + e.decls + b.decls)
  | _, .forRange n r b, x, k =>
    .other :: declaring (declared k [n]) ++ .other :: r.seen (x.header (declared k [n])) (k + 1) ++
      .other :: b.seen ((x.header (declared k [n])).past r).entered (k + 1 + r.decls) ++ [.other]
  | _, .forIn n ns es b, x, k =>
    .other :: declaring (declared k (n :: ns)) ++
      .other :: es.seen (x.header (declared k (n :: ns))) (k + (1 + ns.length)) ++
      .other :: b.seen ((x.header (declared k (n :: ns))).past es).entered
        (k + (1 + ns.length) + es.decls) ++ [.other]
  | _, .localFunction n ps b, x, k =>
    .other :: .other :: declaring (declared k [n]) ++ ps.roles (k + 1) ++
      b.seen ((x.opened (declared k [n])).opened (declared (k + 1) ps.names))
        (k + 1 + ps.names.length) ++ [.other]
  | _, .functionNamed f ps b, x, k =>
    let k' := k + f.method.toList.length
    .other :: f.roles x.env ++ ps.roles k' ++
      b.seen ((x.opened (f.receiver k)).opened (declared k' ps.names)) (k' + ps.names.length) ++
        [.other]
  | _, .breakLoop, _, _ => [.other]
  | _, .gotoLabel _, _, _ => [.other, .other]
  | _, .label _, _, _ => [.other, .other, .other]
  | _, .endIf, _, _ => [.other]
  | _, .elseEnd b, x, k => .other :: b.seen (x.opened []) k ++ [.other]
  | _, .nothing, _, _ => []
  | _, .ret closed, _, _ => .other :: if closed then [.other] else []
  | _, .retValues es closed, x, k => .other :: es.seen x.settled k ++ if closed then [.other] else []
  | _, .cons s b, x, k => s.seen (x.reach s) k ++ b.seen (s.left (x.reach s) k) (k + s.decls)

end Tree

/-! ### What the view keeps -/

namespace View

variable {kind : Kind} (x : View) (t : Tree kind)

theorem pass_pass (closes closes' : Bool) (strays strays' : Nat) :
    (x.pass closes strays).pass closes' strays' = x.pass (closes || closes') (strays + strays') := by
  cases closes <;> cases closes' <;> simp [pass, skip, settled, List.drop_drop]

theorem inside_past (brace : Bool) : ((x.inside brace).past t).inside x.braced = x.past t := by
  rw [past, past]
  cases t.closes <;> rfl

@[simp] theorem braced_past : (x.past t).braced = x.braced := by
  rw [past]
  cases t.closes <;> rfl

@[simp] theorem later_past : (x.past t).later = x.later := by
  rw [past]
  cases t.closes <;> rfl

@[simp] theorem loops_past : (x.past t).loops = x.loops.drop (t.strays true) := by
  rw [past]
  cases t.closes <;> rfl

@[simp] theorem loops_reach (t : Tree .stmt) : (x.reach t).loops = x.loops := by
  unfold reach
  split <;> rfl

@[simp] theorem braced_reach (t : Tree .stmt) : (x.reach t).braced = x.braced := by
  unfold reach
  split <;> rfl

@[simp] theorem fresh_reach (t : Tree .stmt) : (x.reach t).fresh = x.fresh := by
  unfold reach
  split <;> rfl

end View

namespace Tree

theorem closes_of_all {kind kind₁ kind₂ : Kind} {t : Tree kind} {l : Tree kind₁} {r : Tree kind₂}
    (hall : (t.all fun t => !t.isFunction) =
      ((l.all fun t => !t.isFunction) && r.all fun t => !t.isFunction)) :
    t.closes = (l.closes || r.closes) := by
  rw [closes, hall, Bool.not_and]
  rfl

/-- What a statement or a block leaves of the view but for the scope. -/
def Leaves : {kind : Kind} → Tree kind → Prop
  | .stmt, t => ∀ x k, (t.left x k).loops = x.loops.drop (t.strays x.fresh) ∧
      (t.left x k).braced = x.braced ∧ (t.left x k).fresh = t.isSemicolon
  | .block, t => ∀ x k, (t.left x k).loops = x.loops.drop (t.strays x.fresh) ∧
      (t.left x k).braced = x.braced
  | .expr, _ | .operand, _ | .var, _ | .call, _ | .args, _ | .exprs, _ | .vars, _ | .range, _
  | .field, _ | .fields, _ | .tail, _ => True

theorem leaves {kind : Kind} (t : Tree kind) : t.Leaves := by
  induction t with
  | localsInit l ls es => exact fun x k => ⟨View.loops_past _ es, View.braced_past _ es, rfl⟩
  | callOnly c => exact fun x k => ⟨x.loops_past c, x.braced_past c, rfl⟩
  | assign vs es =>
    intro x k
    refine ⟨?_, ?_, rfl⟩
    · show ((x.past vs).past es).loops = x.loops.drop (vs.strays true + es.strays true)
      rw [View.loops_past, View.loops_past, List.drop_drop]
    · exact (View.braced_past _ es).trans (x.braced_past vs)
  | repeatUntil b e ih =>
    intro x k
    refine ⟨?_, View.braced_past _ e, rfl⟩
    have hloops : (b.left (x.opened []) k).loops = x.loops.drop (b.strays true) :=
      (ih (x.opened []) k).1
    show ((x.untilFrom (b.left (x.opened []) k)).past e).loops =
      x.loops.drop (b.strays true + e.strays true)
    rw [View.loops_past, View.untilFrom, hloops, List.drop_drop]
  | retValues es closed =>
    exact fun x k => ⟨View.loops_past _ es, View.braced_past _ es⟩
  | cons s b ih ih' =>
    intro x k
    obtain ⟨hloops, hbraced, hfresh⟩ := ih (x.reach s) k
    obtain ⟨hloops', hbraced'⟩ := ih' (s.left (x.reach s) k) (k + s.decls)
    refine ⟨hloops'.trans ?_, hbraced'.trans (hbraced.trans (x.braced_reach s))⟩
    rw [hloops, hfresh, View.loops_reach, View.fresh_reach, List.drop_drop]
    rfl
  | nothing | ret closed => exact fun x k => ⟨rfl, rfl⟩
  | _ => first | trivial | exact fun x k => ⟨rfl, rfl, rfl⟩

end Tree

end LuaBundle.Lua
