import LuaBundle.Proofs.Lua.Views
import Mathlib

/-!
# What the walk misreads

Three things in a chunk lead the walk astray: a list of targets that ends in a plain name directly
inside braces, a function that ends before the values of a `local` statement or the condition of a
loop do, and a plain `do` inside the header of a loop.
-/
namespace LuaBundle.Lua

namespace Tree

/-! ### Targets that seem to be keys -/

/-- The number of targets that are taken for keys, where the innermost bracket is a brace or none. -/
def lost : {kind : Kind} → Tree kind → (braced : Bool) → Nat
  | _, .literal _, _ | _, .name _, _ | _, .noArgs, _ | _, .stringArg _, _ | _, .noField, _ => 0
  | _, .plain p, braced => p.lost braced
  | _, .table fs, _ | _, .tableArg fs, _ => fs.lost true
  | _, .binary l _ r, braced => l.lost braced + r.lost braced
  | _, .unary _ e, braced | _, .one e, braced | _, .item e, braced | _, .named _ e, braced =>
    e.lost braced
  | _, .function _ b, braced => b.lost braced
  | _, .read v, braced | _, .target v, braced => v.lost braced
  | _, .result c, braced | _, .callOnly c, braced => c.lost braced
  | _, .paren e, _ => e.lost false
  | _, .index p e, braced => p.lost braced + e.lost false
  | _, .member p _, braced => p.lost braced
  | _, .apply p a, braced | _, .invoke p _ a, braced => p.lost braced + a.lost braced
  | _, .someArgs es, _ => es.lost false
  | _, .more e es, braced => e.lost braced + es.lost braced
  | _, .targets v vs, braced =>
    v.lost braced + if braced && vs.isPlainTarget then 1 else vs.lost braced
  | _, .span first limit, braced => first.lost braced + limit.lost braced
  | _, .stride first limit step, braced => first.lost braced + limit.lost braced + step.lost braced
  | _, .keyed k e, braced => k.lost false + e.lost braced
  | _, .lastField f, braced => f.lost braced
  | _, .fieldThen f _ fs, braced => f.lost braced + fs.lost braced
  | _, .semicolon, _ | _, .breakLoop, _ | _, .gotoLabel _, _ | _, .label _, _ => 0
  | _, .locals _ _, _ => 0
  | _, .localsInit _ _ es, braced => es.lost braced
  | _, .assign vs es, braced => vs.lost braced + es.lost braced
  | _, .doEnd b, braced | _, .elseEnd b, braced => b.lost braced
  | _, .whileDo e b, braced => e.lost braced + b.lost braced
  | _, .repeatUntil b e, braced => b.lost braced + e.lost braced
  | _, .ifThen e b t, braced | _, .elseIf e b t, braced =>
    e.lost braced + b.lost braced + t.lost braced
  | _, .forRange _ r b, braced => r.lost braced + b.lost braced
  | _, .forIn _ _ es b, braced => es.lost braced + b.lost braced
  | _, .localFunction _ _ b, braced | _, .functionNamed _ _ b, braced => b.lost braced
  | _, .endIf, _ | _, .nothing, _ | _, .ret _, _ => 0
  | _, .retValues es _, braced => es.lost braced
  | _, .cons s b, braced => s.lost braced + b.lost braced

/-! ### Functions that seem to end a statement -/

/-- The names that a statement or a block declares for what follows it. -/
def tops : {kind : Kind} → Tree kind → List Name
  | _, .locals l ls | _, .localsInit l ls _ => l.name :: ls.map Local.name
  | _, .localFunction n _ _ => [n]
  | _, .cons s b => s.tops ++ b.tops
  | _, _ => []

def without (ns hidden : List Name) : List Name := ns.filter (!hidden.contains ·)

theorem mem_without {ns hidden : List Name} {n : Name} :
    n ∈ without ns hidden ↔ n ∈ ns ∧ n ∉ hidden := by
  simp [without]

/-- The variables that are used in a tree and not declared there. -/
def frees : {kind : Kind} → Tree kind → List Name
  | _, .literal _ | _, .noArgs | _, .stringArg _ | _, .noField => []
  | _, .plain p | _, .member p _ => p.frees
  | _, .table fs | _, .tableArg fs => fs.frees
  | _, .binary l _ r => l.frees ++ r.frees
  | _, .unary _ e | _, .paren e | _, .one e | _, .item e | _, .named _ e => e.frees
  | _, .function ps b => without b.frees ps.names
  | _, .read v | _, .target v => v.frees
  | _, .result c | _, .callOnly c => c.frees
  | _, .name n => [n]
  | _, .index p e => p.frees ++ e.frees
  | _, .apply p a | _, .invoke p _ a => p.frees ++ a.frees
  | _, .someArgs es => es.frees
  | _, .more e es => e.frees ++ es.frees
  | _, .targets v vs => v.frees ++ vs.frees
  | _, .span first limit => first.frees ++ limit.frees
  | _, .stride first limit step => first.frees ++ (limit.frees ++ step.frees)
  | _, .keyed k e => k.frees ++ e.frees
  | _, .lastField f => f.frees
  | _, .fieldThen f _ fs => f.frees ++ fs.frees
  | _, .semicolon | _, .breakLoop | _, .gotoLabel _ | _, .label _ | _, .locals _ _ => []
  | _, .localsInit _ _ es | _, .retValues es _ => es.frees
  | _, .assign vs es => vs.frees ++ es.frees
  | _, .doEnd b | _, .elseEnd b => b.frees
  | _, .whileDo e b => e.frees ++ b.frees
  | _, .repeatUntil b e => b.frees ++ without e.frees b.tops
  | _, .ifThen e b t | _, .elseIf e b t => e.frees ++ (b.frees ++ t.frees)
  | _, .forRange n r b => r.frees ++ without b.frees [n]
  | _, .forIn n ns es b => es.frees ++ without b.frees (n :: ns)
  | _, .localFunction n ps b => without b.frees (n :: ps.names)
  | _, .functionNamed f ps b =>
    f.base :: without b.frees ((f.receiver 0).map Variable.name ++ ps.names)
  | _, .endIf | _, .nothing | _, .ret _ => []
  | _, .cons s b => s.frees ++ without b.frees s.tops

/-- The variables that an expression uses behind the end of the first function in it. -/
def late : {kind : Kind} → Tree kind → List Name
  | _, .plain p | _, .member p _ => p.late
  | _, .read v | _, .target v => v.late
  | _, .result c => c.late
  | _, .unary _ e | _, .paren e | _, .one e | _, .item e | _, .named _ e => e.late
  | _, .table fs | _, .tableArg fs => fs.late
  | _, .someArgs es => es.late
  | _, .lastField f => f.late
  | _, .binary l _ r => if l.closes then l.late ++ r.frees else r.late
  | _, .index p e => if p.closes then p.late ++ e.frees else e.late
  | _, .apply p a | _, .invoke p _ a => if p.closes then p.late ++ a.frees else a.late
  | _, .more e es => if e.closes then e.late ++ es.frees else es.late
  | _, .targets v vs => if v.closes then v.late ++ vs.frees else vs.late
  | _, .span first limit => if first.closes then first.late ++ limit.frees else limit.late
  | _, .stride first limit step =>
    if first.closes then first.late ++ (limit.frees ++ step.frees)
    else if limit.closes then limit.late ++ step.frees
    else step.late
  | _, .keyed k e => if k.closes then k.late ++ e.frees else e.late
  | _, .fieldThen f _ fs => if f.closes then f.late ++ fs.frees else fs.late
  | _, _ => []

/-- Something may wait for the end of the statement behind its last token. -/
def waits : {kind : Kind} → Tree kind → Bool
  | _, .localsInit _ _ es => !es.closes
  | _, .repeatUntil _ e => !e.closes
  | _, _ => false

/-- A block whose first statement begins with a parenthesis. -/
def beginsParen : {kind : Kind} → Tree kind → Bool
  | _, .cons s _ => s.opensParen
  | _, _ => false

/-- Where the walk ends a statement too early or too late, no name tells the difference. -/
def prompt : {kind : Kind} → Tree kind → Bool
  | _, .localsInit l ls es =>
    (l.name :: ls.map Local.name).all fun n => !es.late.contains n
  | _, .repeatUntil b e => b.tops.all fun n => !e.late.contains n
  | _, .cons s b => !(s.waits && b.beginsParen)
  | _, _ => true

/-- Behind the end of a function, the values of a `local` statement use no variable of a name that it
declares, and the condition of a loop uses no local of the loop's body; and no parenthesis begins a
statement while something waits for the end of another. -/
def timely {kind : Kind} (t : Tree kind) : Bool := t.all fun t => t.prompt

/-! ### Blocks that seem to be bodies of loops -/

/-- The walk takes no `do` in the header of a loop for the one of the loop. -/
def heads : {kind : Kind} → Tree kind → Bool
  | _, .whileDo e _ => e.strays true == 0
  | _, .forRange _ r _ => r.strays true == 0
  | _, .forIn _ _ es _ => es.strays true == 0
  | _, _ => true

/-- Every loop begins with the `do` that the walk takes for its own. -/
def paired {kind : Kind} (t : Tree kind) : Bool := t.all fun t => t.heads

/-! ### What is late -/

/-- Nothing is late where no function ends. -/
theorem late_eq_nil {kind : Kind} (t : Tree kind) : t.closes = false → t.late = [] := by
  induction t with
  | plain p ih | read p ih | result p ih | unary op p ih | one p ih | target p ih | item p ih
  | named n p ih | lastField p ih | member p n ih | table p ih | paren p ih | someArgs p ih
  | tableArg p ih => exact ih
  | binary l op r _ ih | index l r _ ih | apply l r _ ih | invoke l n r _ ih | more l r _ ih
  | targets l r _ ih | span l r _ ih | keyed l r _ ih | fieldThen l sep r _ ih =>
    intro h
    rw [closes_of_all (l := l) (r := r) rfl, Bool.or_eq_false_iff] at h
    show (if l.closes then l.late ++ r.frees else r.late) = []
    rw [if_neg (by simp [h.1]), ih h.2]
  | stride first limit step _ _ ih =>
    intro h
    rw [closes_of_all (l := .span first limit) (r := step) rfl,
      closes_of_all (l := first) (r := limit) rfl, Bool.or_eq_false_iff, Bool.or_eq_false_iff] at h
    show (if first.closes then first.late ++ (limit.frees ++ step.frees)
      else if limit.closes then limit.late ++ step.frees else step.late) = []
    rw [if_neg (by simp [h.1.1]), if_neg (by simp [h.1.2]), ih h.2]
  | _ => exact fun _ => rfl

theorem late_subset {kind : Kind} (t : Tree kind) : t.late ⊆ t.frees := by
  induction t with
  | plain p ih | read p ih | result p ih | one p ih | target p ih | item p ih | lastField p ih
  | unary op p ih | named n p ih | table p ih | paren p ih | someArgs p ih | tableArg p ih
  | member p n ih => exact ih
  | binary l op r ih ih' | index l r ih ih' | apply l r ih ih' | invoke l n r ih ih'
  | more l r ih ih' | targets l r ih ih' | span l r ih ih' | keyed l r ih ih'
  | fieldThen l sep r ih ih' =>
    show (if l.closes then l.late ++ r.frees else r.late) ⊆ l.frees ++ r.frees
    grind
  | stride first limit step ih ih' ih'' =>
    show (if first.closes then first.late ++ (limit.frees ++ step.frees)
      else if limit.closes then limit.late ++ step.frees else step.late) ⊆
        first.frees ++ (limit.frees ++ step.frees)
    grind
  | _ => exact List.nil_subset _

end Tree

end LuaBundle.Lua
