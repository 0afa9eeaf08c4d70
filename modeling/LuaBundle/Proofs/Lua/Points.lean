import LuaBundle.Proofs.Lua.Beautified
import LuaBundle.Proofs.Lua.Declaring

/-!
# Points in chunks

A chunk has a name behind each of its points, so no point runs into a numeral and a beautified chunk
is always read back.
-/
namespace LuaBundle.Lua

/-- Behind every point stands a name. -/
inductive Pointed : List Token → Prop where
  | nil : Pointed []
  | other {t : Token} {ts : List Token} (ht : t ≠ .symbol .dot) (hts : Pointed ts) :
      Pointed (t :: ts)
  | member (n : Name) {ts : List Token} (hts : Pointed ts) :
      Pointed (.symbol .dot :: .name n :: ts)

namespace Pointed

variable {t : Token} {ts us : List Token}

theorem of_forall (h : ∀ t ∈ ts, t ≠ .symbol .dot) : Pointed ts := by
  induction ts with
  | nil => exact .nil
  | cons t ts ih =>
    obtain ⟨ht, hts⟩ := List.forall_mem_cons.mp h
    exact .other ht (ih hts)

theorem append (h : Pointed ts) (h' : Pointed us) : Pointed (ts ++ us) := by
  induction h with
  | nil => exact h'
  | other ht _ ih => exact .other ht ih
  | member n _ ih => exact .member n ih

/-- No point stands before a numeral. -/
theorem isChain (h : Pointed ts) : ts.IsChain fun t u => t.joinsNumeral u = false := by
  have hother {t u : Token} (ht : t ≠ .symbol .dot) : t.joinsNumeral u = false := by
    unfold Token.joinsNumeral
    split
    · contradiction
    · rfl
  induction h with
  | nil => exact .nil
  | other ht _ ih => exact List.isChain_cons.mpr ⟨fun _ _ => hother ht, ih⟩
  | member n _ ih => exact .cons_cons rfl (List.isChain_cons.mpr ⟨fun _ _ => hother nofun, ih⟩)

end Pointed

/-! ### Trees -/

theorem pointed_names (ns : List Name) : Pointed (nameTokens ns) :=
  .of_forall (forall_mem_intersperse nofun fun t ht => by
    obtain ⟨n, -, rfl⟩ := List.mem_map.mp ht
    nofun)

theorem Local.pointed (l : Local) : Pointed l.tokens := by
  obtain ⟨n, attrib⟩ := l
  cases attrib with
  | none => exact .other nofun .nil
  | some a => exact .of_forall (by simp [Local.tokens])

theorem pointed_locals (l : Local) (ls : List Local) : Pointed (localTokens l ls) := by
  induction ls generalizing l with
  | nil => exact l.pointed
  | cons m ls ih => exact l.pointed.append (.other nofun (ih m))

theorem Params.pointed (ps : Params) : Pointed ps.tokens := by
  have hnames : Pointed ((ps.names.map Token.name ++
      if ps.variadic then [Token.symbol .ellipsis] else []).intersperse (.symbol .comma)) := by
    refine .of_forall (forall_mem_intersperse nofun fun t ht => ?_)
    rcases List.mem_append.mp ht with ht | ht
    · obtain ⟨n, -, rfl⟩ := List.mem_map.mp ht
      nofun
    · split at ht
      · rw [List.mem_singleton.mp ht]
        nofun
      · cases ht
  exact .other nofun (hnames.append (.other nofun .nil))

theorem FunctionName.pointed (f : FunctionName) : Pointed f.tokens := by
  have hfields (ns : List Name) : Pointed (ns.flatMap fun n => [.symbol .dot, .name n]) := by
    induction ns with
    | nil => exact .nil
    | cons n ns ih => exact .member n ih
  refine .append (.other nofun (hfields f.fields)) ?_
  cases f.method with
  | none => exact .nil
  | some n => exact .of_forall (by simp)

/-- A tree is written with points before names only. -/
theorem Tree.pointed {kind : Kind} (t : Tree kind) : Pointed t.tokens := by
  have hkind {p : Token → Bool} (hp : p (.symbol .dot) = false) {t : Token} (h : p t = true) :
      t ≠ .symbol .dot := by
    rintro rfl
    exact Bool.false_ne_true (hp.symm.trans h)
  have hclosed {ts : List Token} {o e : Token} (ho : o ≠ .symbol .dot) (he : e ≠ .symbol .dot)
      (h : Pointed ts) : Pointed (o :: ts ++ [e]) := .other ho (h.append (.other he .nil))
  induction t with
  | literal t => exact .other (hkind rfl t.2) .nil
  | plain p ih | read p ih | result p ih | one p ih | target p ih | item p ih | lastField p ih
  | callOnly p ih => exact ih
  | table fs ih | paren e ih | someArgs es ih | tableArg fs ih | doEnd b ih | elseEnd b ih =>
    exact hclosed nofun nofun ih
  | binary l op r ihl ihr | fieldThen l op r ihl ihr => exact ihl.append (.other (hkind rfl op.2) ihr)
  | more e es ih ih' | targets e es ih ih' | span e es ih ih' | assign e es ih ih' =>
    exact ih.append (.other nofun ih')
  | unary op e ih => exact .other (hkind rfl op.2) ih
  | function ps b ih => exact hclosed nofun nofun (ps.pointed.append ih)
  | index p e ih ih' => exact (ih.append (.other (by nofun) ih')).append (.other (by nofun) .nil)
  | member p n ih => exact ih.append (.member n .nil)
  | apply p a ih ih' => exact ih.append ih'
  | invoke p n a ih ih' => exact ih.append (.other nofun (.other nofun ih'))
  | stride first limit step ih ih' ih'' =>
    exact (ih.append (.other (by nofun) ih')).append (.other (by nofun) ih'')
  | named n e ih => exact .other nofun (.other nofun ih)
  | keyed k e ih ih' => exact .other nofun (ih.append (.other nofun (.other nofun ih')))
  | name | noArgs | stringArg | noField | semicolon | breakLoop | gotoLabel | label | endIf
  | nothing => exact .of_forall (by simp [tokens])
  | locals l ls => exact .other nofun (pointed_locals l ls)
  | localsInit l ls es ih => exact .other nofun ((pointed_locals l ls).append (.other nofun ih))
  | whileDo e b ih ih' => exact hclosed nofun nofun (ih.append (.other (by nofun) ih'))
  | repeatUntil b e ih ih' => exact .other nofun (ih.append (.other nofun ih'))
  | ifThen e b f ih ih' ih'' | elseIf e b f ih ih' ih'' =>
    exact .other (by nofun) ((ih.append (.other (by nofun) ih')).append ih'')
  | forRange n r b ih ih' =>
    exact hclosed nofun nofun (.other nofun (.other nofun (ih.append (.other nofun ih'))))
  | forIn n ns es b ih ih' =>
    have hvalues := (pointed_names (n :: ns)).append (.other (t := .keyword .inKw) nofun ih)
    exact hclosed nofun nofun (hvalues.append (.other (by nofun) ih'))
  | localFunction n ps b ih =>
    exact hclosed nofun nofun (.other nofun (.other nofun (ps.pointed.append ih)))
  | functionNamed f ps b ih => exact hclosed nofun nofun ((f.pointed.append ps.pointed).append ih)
  | ret closed => cases closed <;> exact .of_forall (by simp [tokens])
  | retValues es closed ih =>
    refine .append (.other nofun ih) ?_
    cases closed <;> exact .of_forall (by simp)
  | cons s b ih ih' => exact ih.append ih'

end LuaBundle.Lua
