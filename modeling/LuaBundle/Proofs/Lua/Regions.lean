import LuaBundle.Proofs.Lua.Agreement
import Mathlib.Data.List.Nodup

/-!
# Regions

Every variable is in sight in one region of the text: a local behind its statement up to the end of
the block, or of the condition if the block is the body of a `repeat`; a loop's variable in the body
of the loop; a parameter in the body of the function. A name stands for the variable that is
declared last of those of its name in whose regions it lies.
-/
namespace LuaBundle.Lua

/-- What declares a variable. -/
inductive Origin where
  | statement | function | parameter | receiver | loop
  deriving DecidableEq, Repr

/-- The tokens in which a variable is in sight. -/
structure Region where
  owner : Variable
  origin : Origin
  start : Nat
  stop : Nat
  deriving DecidableEq, Repr

namespace Region

def Covers (g : Region) (i : Nat) : Prop := g.start ≤ i ∧ i < g.stop

instance (g : Region) (i : Nat) : Decidable (g.Covers i) := inferInstanceAs (Decidable (_ ∧ _))

/-- Variables that are declared together. -/
def each (origin : Origin) (vs : List Variable) (start stop : Nat) : List Region :=
  vs.map fun v => ⟨v, origin, start, stop⟩

end Region

/-- The variables in sight at a token, innermost first. -/
def inSight (gs : List Region) (i : Nat) : Env :=
  ((gs.filter fun g => g.Covers i).map Region.owner).reverse

namespace Tree

open Region

/-- The regions of the variables that are declared in a tree whose first token has the index `i`, in
the order of the declarations, which are numbered from `k` on. What a statement declares is in sight
up to the token `stop`. -/
def regions : {kind : Kind} → Tree kind → (i stop k : Nat) → List Region
  | _, .literal _, _, _, _ | _, .name _, _, _, _ | _, .noArgs, _, _, _ | _, .stringArg _, _, _, _
  | _, .noField, _, _, _ => []
  | _, .plain p, i, stop, k => p.regions i stop k
  | _, .table fs, i, stop, k | _, .tableArg fs, i, stop, k => fs.regions (i + 1) stop k
  | _, .binary l _ r, i, stop, k =>
    l.regions i stop k ++ r.regions (i + l.tokens.length + 1) stop (k + l.decls)
  | _, .unary _ e, i, stop, k | _, .paren e, i, stop, k => e.regions (i + 1) stop k
  | _, .one e, i, stop, k | _, .item e, i, stop, k => e.regions i stop k
  | _, .named _ e, i, stop, k => e.regions (i + 2) stop k
  | _, .function ps b, i, _, k =>
    let first := i + 1 + ps.tokens.length
    each .parameter (declared k ps.names) first (first + b.tokens.length) ++
      b.regions first (first + b.tokens.length) (k + ps.names.length)
  | _, .read v, i, stop, k | _, .target v, i, stop, k => v.regions i stop k
  | _, .result c, i, stop, k | _, .callOnly c, i, stop, k => c.regions i stop k
  | _, .index p e, i, stop, k =>
    p.regions i stop k ++ e.regions (i + p.tokens.length + 1) stop (k + p.decls)
  | _, .member p _, i, stop, k => p.regions i stop k
  | _, .apply p a, i, stop, k =>
    p.regions i stop k ++ a.regions (i + p.tokens.length) stop (k + p.decls)
  | _, .invoke p _ a, i, stop, k =>
    p.regions i stop k ++ a.regions (i + p.tokens.length + 2) stop (k + p.decls)
  | _, .someArgs es, i, stop, k => es.regions (i + 1) stop k
  | _, .more e es, i, stop, k =>
    e.regions i stop k ++ es.regions (i + e.tokens.length + 1) stop (k + e.decls)
  | _, .targets v vs, i, stop, k =>
    v.regions i stop k ++ vs.regions (i + v.tokens.length + 1) stop (k + v.decls)
  | _, .span first limit, i, stop, k =>
    first.regions i stop k ++ limit.regions (i + first.tokens.length + 1) stop (k + first.decls)
  | _, .stride first limit step, i, stop, k =>
    first.regions i stop k ++ limit.regions (i + first.tokens.length + 1) stop (k + first.decls) ++
      step.regions (i + first.tokens.length + 1 + limit.tokens.length + 1) stop
        (k + first.decls + limit.decls)
  | _, .keyed key e, i, stop, k =>
    key.regions (i + 1) stop k ++ e.regions (i + 1 + key.tokens.length + 2) stop (k + key.decls)
  | _, .lastField f, i, stop, k => f.regions i stop k
  | _, .fieldThen f _ fs, i, stop, k =>
    f.regions i stop k ++ fs.regions (i + f.tokens.length + 1) stop (k + f.decls)
  | _, .semicolon, _, _, _ | _, .breakLoop, _, _, _ | _, .gotoLabel _, _, _, _
  | _, .label _, _, _, _ => []
  | _, .locals l ls, i, stop, k =>
    each .statement (declared k (l.name :: ls.map Local.name)) (i + (Tree.locals l ls).tokens.length)
      stop
  -- the values do not see the names
  | _, .localsInit l ls es, i, stop, k =>
    each .statement (declared k (l.name :: ls.map Local.name))
        (i + (Tree.localsInit l ls es).tokens.length) stop ++
      es.regions (i + 1 + (localTokens l ls).length + 1) stop (k + (1 + ls.length))
  | _, .assign vs es, i, stop, k =>
    vs.regions i stop k ++ es.regions (i + vs.tokens.length + 1) stop (k + vs.decls)
  | _, .doEnd b, i, _, k => b.regions (i + 1) (i + 1 + b.tokens.length) k
  | _, .whileDo e b, i, stop, k =>
    let first := i + 1 + e.tokens.length + 1
    e.regions (i + 1) stop k ++ b.regions first (first + b.tokens.length) (k + e.decls)
  -- the condition still sees the locals of the body
  | _, .repeatUntil b e, i, _, k =>
    let last := i + (Tree.repeatUntil b e).tokens.length
    b.regions (i + 1) last k ++ e.regions (i + 1 + b.tokens.length + 1) last (k + b.decls)
  | _, .ifThen e b f, i, stop, k | _, .elseIf e b f, i, stop, k =>
    let first := i + 1 + e.tokens.length + 1
    e.regions (i + 1) stop k ++ b.regions first (first + b.tokens.length) (k + e.decls) ++
      f.regions (first + b.tokens.length) stop (k + e.decls + b.decls)
  | _, .forRange n r b, i, stop, k =>
    let first := i + 3 + r.tokens.length + 1
    each .loop (declared k [n]) first (first + b.tokens.length) ++ r.regions (i + 3) stop (k + 1) ++
      b.regions first (first + b.tokens.length) (k + 1 + r.decls)
  | _, .forIn n ns es b, i, stop, k =>
    let values := i + 1 + (nameTokens (n :: ns)).length + 1
    let first := values + es.tokens.length + 1
    each .loop (declared k (n :: ns)) first (first + b.tokens.length) ++
      es.regions values stop (k + (1 + ns.length)) ++
      b.regions first (first + b.tokens.length) (k + (1 + ns.length) + es.decls)
  | _, .localFunction n ps b, i, stop, k =>
    let first := i + 3 + ps.tokens.length
    each .function (declared k [n]) (i + 3) stop ++
      (each .parameter (declared (k + 1) ps.names) first (first + b.tokens.length) ++
        b.regions first (first + b.tokens.length) (k + 1 + ps.names.length))
  | _, .functionNamed f ps b, i, _, k =>
    let first := i + 1 + f.tokens.length + ps.tokens.length
    let k' := k + f.method.toList.length
    each .receiver (f.receiver k) first (first + b.tokens.length) ++
      (each .parameter (declared k' ps.names) first (first + b.tokens.length) ++
        b.regions first (first + b.tokens.length) (k' + ps.names.length))
  | _, .endIf, _, _, _ | _, .nothing, _, _, _ | _, .ret _, _, _, _ => []
  | _, .elseEnd b, i, _, k => b.regions (i + 1) (i + 1 + b.tokens.length) k
  | _, .retValues es _, i, stop, k => es.regions (i + 1) stop k
  | _, .cons s b, i, stop, k =>
    s.regions i stop k ++ b.regions (i + s.tokens.length) stop (k + s.decls)

end Tree

/-! ### Variables in sight -/

section

variable {gs gs' : List Region} {i : Nat}

theorem inSight_append : inSight (gs ++ gs') i = inSight gs' i ++ inSight gs i := by
  simp [inSight]

theorem inSight_each {origin : Origin} {vs : List Variable} {start stop : Nat} :
    inSight (Region.each origin vs start stop) i = if start ≤ i ∧ i < stop then vs.reverse else [] := by
  unfold inSight Region.each
  split
  · rename_i h
    rw [List.filter_eq_self.mpr]
    · simp [Function.comp_def]
    · simp [Region.Covers, h]
  · rename_i h
    rw [List.filter_eq_nil_iff.mpr]
    · rfl
    · simp only [List.mem_map, decide_eq_true_eq]
      rintro g ⟨v, -, rfl⟩ hg
      exact h hg

end

/-- A name that is no declaration. -/
def Role.isUse : Role → Bool
  | refers _ | free => true
  | declares _ | other => false

/-- Tokens from the index `i` on and what they refer to in the scope `Γ`, by the regions of what
they declare; `Γ'` is the scope behind them. -/
structure Sighted (gs : List Region) (i stop : Nat) (Γ Γ' : Env) (ts : List Token)
    (rs : List Role) : Prop where
  length : rs.length = ts.length
  within : i + ts.length ≤ stop
  uses : ∀ (m : Nat) n r, ts[m]? = some (.name n) → rs[m]? = some r → r.isUse = true →
    r = Env.use (inSight gs (i + m) ++ Γ) n
  outside : ∀ p, p < i ∨ stop ≤ p → inSight gs p = []
  behind : ∀ p, i + ts.length ≤ p → p < stop → inSight gs p ++ Γ = Γ'

namespace Sighted

variable {gs gs' : List Region} {i j stop : Nat} {Γ Γ₁ Γ' : Env} {t : Token} {ts ts' : List Token}
  {rs rs' : List Role} {vs : List Variable} {origin : Origin}

theorem plain (hlength : rs.length = ts.length) (hrs : ∀ r ∈ rs, r.isUse = false)
    (hstop : i + ts.length ≤ stop) : Sighted [] i stop Γ Γ ts rs where
  length := hlength
  within := hstop
  uses := by
    intro m n r _ hr huse
    rw [hrs r (List.mem_of_getElem? hr)] at huse
    cases huse
  outside := fun _ _ => rfl
  behind := fun _ _ _ => rfl

theorem other (hstop : i + [t].length ≤ stop) : Sighted [] i stop Γ Γ [t] [.other] :=
  plain rfl (fun _ hr => List.mem_singleton.mp hr ▸ rfl) hstop

theorem use (n : Name) (hstop : i + 1 ≤ stop) : Sighted [] i stop Γ Γ [.name n] [Γ.use n] where
  length := rfl
  within := hstop
  uses := by
    intro m n' r hn hr _
    cases m with
    | zero =>
      cases hn
      cases hr
      rfl
    | succ m => cases hn
  outside := fun _ _ => rfl
  behind := fun _ _ _ => rfl

theorem append (h : Sighted gs i stop Γ Γ₁ ts rs) (h' : Sighted gs' j stop Γ₁ Γ' ts' rs')
    (hj : j = i + ts.length) : Sighted (gs ++ gs') i stop Γ Γ' (ts ++ ts') (rs ++ rs') := by
  subst hj
  have hwithin := h'.within
  refine ⟨?_, ?_, ?_, ?_, ?_⟩
  · rw [List.length_append, List.length_append, h.length, h'.length]
  · rw [List.length_append]
    omega
  · intro m n r hn hr huse
    rw [inSight_append]
    by_cases hm : m < ts.length
    · rw [List.getElem?_append_left hm] at hn
      rw [List.getElem?_append_left (h.length ▸ hm)] at hr
      rw [h'.outside (i + m) (.inl (by omega)), List.nil_append]
      exact h.uses m n r hn hr huse
    · rw [List.getElem?_append_right (by omega)] at hn
      rw [List.getElem?_append_right (by rw [h.length]; omega), h.length] at hr
      have hlt : m - ts.length < ts'.length := (List.getElem?_eq_some_iff.mp hn).1
      have hp : i + ts.length + (m - ts.length) = i + m := by omega
      have huses := h'.uses (m - ts.length) n r hn hr huse
      rw [hp, ← h.behind (i + m) (by omega) (by omega)] at huses
      rw [List.append_assoc]
      exact huses
  · intro p hp
    rw [inSight_append, h.outside p hp, h'.outside p (hp.imp_left fun hp => by omega)]
    rfl
  · intro p hp hstop
    rw [List.length_append] at hp
    rw [inSight_append, List.append_assoc, h.behind p (by omega) hstop]
    exact h'.behind p (by omega) hstop

theorem cons (h : Sighted gs (i + 1) stop Γ Γ' ts rs) :
    Sighted gs i stop Γ Γ' (t :: ts) (.other :: rs) := by
  have hstop : i + [t].length ≤ stop := by
    have := h.within
    rw [List.length_singleton]
    omega
  exact (other hstop).append h rfl

theorem snoc (h : Sighted gs i stop Γ Γ' ts rs) (hstop : i + ts.length + 1 ≤ stop) :
    Sighted gs i stop Γ Γ' (ts ++ [t]) (rs ++ [.other]) := by
  have := h.append (other (t := t) hstop) rfl
  rwa [List.append_nil] at this

/-- What is declared inside is out of sight behind. -/
theorem close (h : Sighted gs i j Γ Γ' ts rs) (stop : Nat) (hj : j = i + ts.length)
    (hstop : j ≤ stop) : Sighted gs i stop Γ Γ ts rs where
  length := h.length
  within := hj ▸ hstop
  uses := h.uses
  outside := fun p hp => h.outside p (hp.imp_right fun hp => Nat.le_trans hstop hp)
  behind := fun p hp _ => by rw [h.outside p (.inr (hj ▸ hp)), List.nil_append]

/-- What is declared before is in sight all along. -/
theorem declare (h : Sighted gs i stop (Γ.declare vs) Γ' ts rs) (origin : Origin) :
    Sighted (Region.each origin vs i stop ++ gs) i stop Γ Γ' ts rs where
  length := h.length
  within := h.within
  uses := by
    intro m n r hn hr huse
    have hm : m < ts.length := (List.getElem?_eq_some_iff.mp hn).1
    have hwithin := h.within
    rw [inSight_append, inSight_each, if_pos ⟨by omega, by omega⟩, List.append_assoc]
    exact h.uses m n r hn hr huse
  outside := by
    intro p hp
    rw [inSight_append, inSight_each, h.outside p hp, if_neg (by omega)]
    rfl
  behind := by
    intro p hp hstop
    rw [inSight_append, inSight_each, if_pos ⟨by omega, hstop⟩, List.append_assoc]
    exact h.behind p hp hstop

/-- What is declared by the tokens is in sight behind them. -/
theorem extend (h : Sighted gs i stop Γ Γ ts rs) (origin : Origin) (vs : List Variable) :
    Sighted (Region.each origin vs (i + ts.length) stop ++ gs) i stop Γ (Γ.declare vs) ts rs where
  length := h.length
  within := h.within
  uses := by
    intro m n r hn hr huse
    have hm : m < ts.length := (List.getElem?_eq_some_iff.mp hn).1
    rw [inSight_append, inSight_each, if_neg (by omega), List.append_nil]
    exact h.uses m n r hn hr huse
  outside := by
    intro p hp
    have hwithin := h.within
    rw [inSight_append, inSight_each, h.outside p hp, if_neg (by omega)]
    rfl
  behind := by
    intro p hp hstop
    rw [inSight_append, inSight_each, if_pos ⟨hp, hstop⟩,
      List.append_left_eq_self.mp (h.behind p hp hstop)]
    rfl

/-- A body with its `end`, behind what it belongs to. -/
theorem enclose {us : List Token} {qs : List Role} {first last : Nat}
    (h : Sighted gs i stop Γ Γ ts rs) (hb : Sighted gs' first last Γ Γ' us qs)
    (hfirst : first = i + ts.length) (hlast : last = first + us.length) (hstop : last + 1 ≤ stop)
    {e : Token} :
    Sighted (gs ++ gs') i stop Γ Γ (ts ++ us ++ [e]) (rs ++ qs ++ [.other]) := by
  refine (h.append (hb.close stop hlast (Nat.le_of_succ_le hstop)) hfirst).snoc ?_
  rw [List.length_append]
  omega

theorem congr (h : Sighted gs i stop Γ Γ' ts rs) (hgs : ∀ p, inSight gs' p = inSight gs p) :
    Sighted gs' i stop Γ Γ' ts rs where
  length := h.length
  within := h.within
  uses := fun m n r hn hr huse => hgs (i + m) ▸ h.uses m n r hn hr huse
  outside := fun p hp => (hgs p).trans (h.outside p hp)
  behind := fun p hp hstop => hgs p ▸ h.behind p hp hstop

/-- A loop: its variables are declared in the header and in sight in the body. -/
theorem loop {es us : List Token} {qs : List Role} {first last : Nat}
    (he : Sighted gs i stop Γ Γ es rs)
    (hb : Sighted gs' first last (Γ.declare vs) Γ' us qs) (hfirst : first = i + es.length + 1)
    (hlast : last = first + us.length) (hstop : last + 1 ≤ stop) {d e : Token} :
    Sighted (Region.each .loop vs first last ++ gs ++ gs') i stop Γ Γ (es ++ d :: us ++ [e])
      (rs ++ .other :: qs ++ [.other]) := by
  subst hfirst
  have hbody := ((hb.declare .loop).close stop hlast (Nat.le_of_succ_le hstop)).cons (t := d)
  have hwithin := he.within
  have hall := (he.append hbody rfl).snoc (t := e) (by
    rw [List.length_append, List.length_cons]
    omega)
  refine hall.congr fun p => ?_
  -- in the body nothing of the header is in sight
  have hdisjoint : inSight gs p = [] ∨ inSight (Region.each .loop vs (i + es.length + 1) last) p = [] := by
    by_cases hp : i + es.length + 1 ≤ p ∧ p < last
    · exact .inl (List.append_left_eq_self.mp (he.behind p (by omega) (by omega)))
    · exact .inr (by rw [inSight_each, if_neg hp])
  simp only [inSight_append]
  rcases hdisjoint with h | h <;> simp [h]

end Sighted

/-! ### Declarations are no uses -/

section

variable {k : Nat}

theorem others_use_nothing (n : Nat) : ∀ r ∈ List.replicate n Role.other, r.isUse = false := by
  intro r hr
  rw [List.eq_of_mem_replicate hr]
  rfl

theorem declaring_uses_nothing (vs : List Variable) : ∀ r ∈ declaring vs, r.isUse = false :=
  forall_mem_intersperse rfl fun r hr => by
    obtain ⟨v, -, rfl⟩ := List.mem_map.mp hr
    rfl

theorem Local.uses_nothing (l : Local) : ∀ r ∈ l.roles k, r.isUse = false := by
  obtain ⟨n, attrib⟩ := l
  cases attrib <;> simp [Local.roles, Role.isUse]

theorem localRoles_uses_nothing (l : Local) (ls : List Local) :
    ∀ r ∈ localRoles k l ls, r.isUse = false := by
  induction ls generalizing k l with
  | nil => exact l.uses_nothing
  | cons m ls ih =>
    intro r hr
    rcases List.mem_append.mp hr with hr | hr
    · exact l.uses_nothing r hr
    · rcases List.mem_cons.mp hr with rfl | hr
      · rfl
      · exact ih m r hr

theorem Params.uses_nothing (ps : Params) : ∀ r ∈ ps.roles k, r.isUse = false := by
  have hlist : ∀ r ∈ (declared k ps.names).map Role.declares ++
      (if ps.variadic then [Role.other] else []), r.isUse = false := by
    intro r hr
    rcases List.mem_append.mp hr with hr | hr
    · obtain ⟨v, -, rfl⟩ := List.mem_map.mp hr
      rfl
    · split at hr
      · exact List.mem_singleton.mp hr ▸ rfl
      · cases hr
  intro r hr
  rcases List.mem_append.mp hr with hr | hr
  · rcases List.mem_cons.mp hr with rfl | hr
    · rfl
    · exact forall_mem_intersperse (p := fun r => r.isUse = false) rfl hlist r hr
  · exact List.mem_singleton.mp hr ▸ rfl

section

variable {i stop : Nat} {Γ : Env}

theorem Sighted.params (ps : Params) (k : Nat) (hstop : i + ps.tokens.length ≤ stop) :
    Sighted [] i stop Γ Γ ps.tokens (ps.roles k) := .plain (ps.roles_length k) ps.uses_nothing hstop

theorem Sighted.locals (l : Local) (ls : List Local) (k : Nat)
    (hstop : i + (localTokens l ls).length ≤ stop) :
    Sighted [] i stop Γ Γ (localTokens l ls) (localRoles k l ls) :=
  .plain (localRoles_length k l ls) (localRoles_uses_nothing l ls) hstop

theorem Sighted.names (k : Nat) (ns : List Name) (hstop : i + (nameTokens ns).length ≤ stop) :
    Sighted [] i stop Γ Γ (nameTokens ns) (declaring (declared k ns)) :=
  .plain (declaring_length k ns) (declaring_uses_nothing _) hstop

theorem Sighted.functionName (f : FunctionName)
    (hstop : i + f.tokens.length ≤ stop) : Sighted [] i stop Γ Γ f.tokens (f.roles Γ) := by
  have hrest : ∀ r ∈ f.fields.flatMap (fun _ => [Role.other, .other]) ++
      f.method.toList.flatMap (fun _ => [Role.other, .other]), r.isUse = false := by
    intro r hr
    rcases List.mem_append.mp hr with hr | hr <;>
      obtain ⟨n, -, hr⟩ := List.mem_flatMap.mp hr <;>
      rcases List.mem_pair.mp hr with rfl | rfl <;> rfl
  have hlength := f.roles_length Γ
  have hrest_length : f.tokens.length = (f.fields.flatMap (fun n => [Token.symbol .dot, .name n]) ++
      f.method.toList.flatMap fun n => [Token.symbol .colon, .name n]).length + 1 := rfl
  have hpath : Sighted [] (i + 1) stop Γ Γ (f.fields.flatMap (fun n => [Token.symbol .dot, .name n]) ++
      f.method.toList.flatMap (fun n => [Token.symbol .colon, .name n]))
      (f.fields.flatMap (fun _ => [Role.other, .other]) ++
        f.method.toList.flatMap (fun _ => [Role.other, .other])) :=
    .plain (Nat.succ.inj hlength) hrest (by omega)
  exact (Sighted.use f.base (by omega)).append hpath rfl

end

end

/-! ### Trees -/

/-- How the names of a tree follow from its regions. -/
def Tree.Sights : {kind : Kind} → Tree kind → Prop
  | .stmt, t | .block, t => ∀ i stop Γ k, i + t.tokens.length ≤ stop →
      Sighted (t.regions i stop k) i stop Γ (t.extend Γ k) t.tokens (t.roles Γ k)
  | .expr, t | .operand, t | .var, t | .call, t | .args, t | .exprs, t | .vars, t | .range, t
  | .field, t | .fields, t | .tail, t => ∀ i stop Γ k, i + t.tokens.length ≤ stop →
      Sighted (t.regions i stop k) i stop Γ Γ t.tokens (t.roles Γ k)

theorem Tree.sights {kind : Kind} (t : Tree kind) : t.Sights := by
  induction t with
  | literal t | stringArg text => exact fun i stop Γ k h => .other h
  | plain p ih | read p ih | result p ih | one p ih | target p ih | item p ih | lastField p ih
  | callOnly p ih => exact fun i stop Γ k h => ih i stop Γ k h
  | table fs ih | tableArg fs ih | paren fs ih | someArgs fs ih =>
    intro i stop Γ k h
    simp only [Tree.tokens, List.length_append, List.length_cons, List.length_nil] at h
    exact ((ih (i + 1) stop Γ k (by omega)).snoc (by omega)).cons
  | binary l op r ih ih' | more l r ih ih' | span l r ih ih' | fieldThen l sep r ih ih'
  | assign l r ih ih' | targets l r ih ih' =>
    intro i stop Γ k h
    simp only [Tree.tokens, List.length_append, List.length_cons] at h
    exact (ih i stop Γ k (by omega)).append (ih' _ stop Γ _ (by omega)).cons rfl
  | unary op e ih =>
    intro i stop Γ k h
    simp only [Tree.tokens, List.length_cons] at h
    exact (ih (i + 1) stop Γ k (by omega)).cons
  | function ps b ih =>
    intro i stop Γ k h
    simp only [Tree.tokens, List.length_append, List.length_cons, List.length_nil] at h
    have hb := (ih (i + 1 + ps.tokens.length) _ (Γ.declare (declared k ps.names))
      (k + ps.names.length) (Nat.le_refl _)).declare .parameter
    exact ((Sighted.params ps k (by omega)).enclose hb rfl rfl (by omega)).cons
  | name n => exact fun i stop Γ k h => .use n h
  | index p e ih ih' =>
    intro i stop Γ k h
    simp only [Tree.tokens, List.length_append, List.length_cons, List.length_nil] at h
    have he := (ih' (i + p.tokens.length + 1) stop Γ (k + p.decls) (by omega)).cons
      (t := .symbol .bracketOpen)
    refine ((ih i stop Γ k (by omega)).append he rfl).snoc ?_
    rw [List.length_append, List.length_cons]
    omega
  | member p n ih =>
    intro i stop Γ k h
    simp only [Tree.tokens, List.length_append, List.length_cons, List.length_nil] at h
    have hname : Sighted [] (i + p.tokens.length + 1) stop Γ Γ [.name n] [.other] := .other (by
      rw [List.length_singleton]
      omega)
    have := (ih i stop Γ k (by omega)).append (hname.cons (t := .symbol .dot)) rfl
    rwa [List.append_nil] at this
  | apply p a ih ih' =>
    intro i stop Γ k h
    simp only [Tree.tokens, List.length_append] at h
    exact (ih i stop Γ k (by omega)).append (ih' _ stop Γ _ (by omega)) rfl
  | invoke p n a ih ih' =>
    intro i stop Γ k h
    simp only [Tree.tokens, List.length_append, List.length_cons] at h
    exact (ih i stop Γ k (by omega)).append (ih' _ stop Γ _ (by omega)).cons.cons rfl
  | noArgs =>
    intro i stop Γ k h
    exact .plain rfl (others_use_nothing 2) h
  | noField | nothing => exact fun i stop Γ k h => .plain rfl nofun h
  | stride first limit step ih ih' ih'' =>
    intro i stop Γ k h
    simp only [Tree.tokens, List.length_append, List.length_cons] at h
    have hspan := (ih i stop Γ k (by omega)).append
      ((ih' _ stop Γ (k + first.decls) (by omega)).cons (t := .symbol .comma)) rfl
    refine hspan.append (ih'' _ stop Γ _ (by omega)).cons ?_
    rw [List.length_append, List.length_cons]
    omega
  | named n e ih =>
    intro i stop Γ k h
    simp only [Tree.tokens, List.length_cons] at h
    exact (ih (i + 2) stop Γ k (by omega)).cons.cons
  | keyed key e ih ih' =>
    intro i stop Γ k h
    simp only [Tree.tokens, List.length_append, List.length_cons] at h
    exact ((ih (i + 1) stop Γ k (by omega)).append (ih' _ stop Γ _ (by omega)).cons.cons rfl).cons
  | semicolon | breakLoop | endIf => exact fun i stop Γ k h => .other h
  | gotoLabel n => exact fun i stop Γ k h => .plain rfl (others_use_nothing 2) h
  | label n => exact fun i stop Γ k h => .plain rfl (others_use_nothing 3) h
  | locals l ls =>
    intro i stop Γ k h
    have hlen := h
    simp only [Tree.tokens, List.length_cons] at hlen
    have hall := (Sighted.locals (Γ := Γ) l ls k (show i + 1 + _ ≤ stop by omega)).cons
      (t := .keyword .localKw)
    have := hall.extend .statement (declared k (l.name :: ls.map Local.name))
    rwa [List.append_nil] at this
  | localsInit l ls es ih =>
    intro i stop Γ k h
    have hlen := h
    simp only [Tree.tokens, List.length_append, List.length_cons] at hlen
    have hes := (ih (i + 1 + (localTokens l ls).length + 1) stop Γ (k + (1 + ls.length))
      (by omega)).cons (t := .symbol .assign)
    have hall := ((Sighted.locals l ls k (by omega)).append hes rfl).cons (t := .keyword .localKw)
    exact hall.extend .statement (declared k (l.name :: ls.map Local.name))
  | doEnd b ih | elseEnd b ih =>
    intro i stop Γ k h
    simp only [Tree.tokens, List.length_append, List.length_cons, List.length_nil] at h
    have hb := (ih (i + 1) _ Γ k (Nat.le_refl _)).close stop rfl (by omega)
    exact (hb.snoc (by omega)).cons
  | whileDo e b ih ih' =>
    intro i stop Γ k h
    simp only [Tree.tokens, List.length_append, List.length_cons, List.length_nil] at h
    have hb := ih' (i + 1 + e.tokens.length + 1) _ (Γ.declare []) (k + e.decls) (Nat.le_refl _)
    exact ((ih (i + 1) stop Γ k (by omega)).loop hb rfl rfl (by omega)).cons
  | repeatUntil b e ih ih' =>
    intro i stop Γ k h
    have hlen : (Tree.repeatUntil b e).tokens.length = b.tokens.length + e.tokens.length + 2 := by
      simp only [Tree.tokens, List.length_append, List.length_cons]
      omega
    have hb := ih (i + 1) (i + (Tree.repeatUntil b e).tokens.length) Γ k (by omega)
    have he := (ih' (i + 1 + b.tokens.length + 1) (i + (Tree.repeatUntil b e).tokens.length)
      (b.extend Γ k) (k + b.decls) (by omega)).cons (t := .keyword .untilKw)
    exact (hb.append he rfl).cons.close stop rfl h
  | ifThen e b f ih ih' ih'' | elseIf e b f ih ih' ih'' =>
    intro i stop Γ k h
    simp only [Tree.tokens, List.length_append, List.length_cons] at h
    have hb := (ih' (i + 1 + e.tokens.length + 1) _ Γ (k + e.decls) (Nat.le_refl _)).close
      stop rfl (by omega)
    have hbranch := (ih (i + 1) stop Γ k (by omega)).append (hb.cons (t := .keyword .thenKw)) rfl
    refine (hbranch.append (ih'' _ stop Γ (k + e.decls + b.decls) (by omega)) ?_).cons
    rw [List.length_append, List.length_cons]
    omega
  | forRange n r b ih ih' =>
    intro i stop Γ k h
    simp only [Tree.tokens, List.length_append, List.length_cons, List.length_nil] at h
    have hname := Sighted.names (Γ := Γ) k [n] (show i + 1 + 1 ≤ stop by omega)
    have hr := hname.append ((ih (i + 3) stop Γ (k + 1) (by omega)).cons (t := .symbol .assign)) rfl
    have hb := ih' (i + 3 + r.tokens.length + 1) _ (Γ.declare (declared k [n])) (k + 1 + r.decls)
      (Nat.le_refl _)
    refine (hr.loop hb ?_ rfl (by omega)).cons
    simp only [nameTokens, List.map_cons, List.map_nil, List.intersperse_singleton, List.length_append,
      List.length_cons, List.length_nil]
    omega
  | forIn n ns es b ih ih' =>
    intro i stop Γ k h
    simp only [Tree.tokens, List.length_append, List.length_cons, List.length_nil] at h
    have hnames := Sighted.names (Γ := Γ) k (n :: ns)
      (show i + 1 + (nameTokens (n :: ns)).length ≤ stop by omega)
    have hes := hnames.append ((ih _ stop Γ (k + (1 + ns.length)) (by omega)).cons
      (t := .keyword .inKw)) rfl
    have hb := ih' (i + 1 + (nameTokens (n :: ns)).length + 1 + es.tokens.length + 1) _
      (Γ.declare (declared k (n :: ns))) (k + (1 + ns.length) + es.decls) (Nat.le_refl _)
    refine (hes.loop hb ?_ rfl (by omega)).cons
    simp only [List.length_append, List.length_cons]
    omega
  | localFunction n ps b ih =>
    intro i stop Γ k h
    simp only [Tree.tokens, List.length_append, List.length_cons, List.length_nil] at h
    have hb := (ih (i + 3 + ps.tokens.length) _
      ((Γ.declare (declared k [n])).declare (declared (k + 1) ps.names)) (k + 1 + ps.names.length)
      (Nat.le_refl _)).declare .parameter
    have hparams := Sighted.params (Γ := Γ.declare (declared k [n])) ps (k + 1)
      (show i + 3 + ps.tokens.length ≤ stop by omega)
    have hbody := (hparams.enclose (e := .keyword .endKw) hb rfl rfl (by omega)).declare .function
    have hname := Sighted.names (Γ := Γ) k [n] (show i + 2 + 1 ≤ stop by omega)
    exact (hname.append hbody rfl).cons.cons
  | functionNamed f ps b ih =>
    intro i stop Γ k h
    simp only [Tree.tokens, List.length_append, List.length_cons, List.length_nil] at h
    have hname := Sighted.functionName (Γ := Γ) f (show i + 1 + f.tokens.length ≤ stop by omega)
    have hheader := hname.append (Sighted.params ps (k + f.method.toList.length) (by omega)) rfl
    have hb := ((ih (i + 1 + f.tokens.length + ps.tokens.length) _
      ((Γ.declare (f.receiver k)).declare (declared (k + f.method.toList.length) ps.names))
      (k + f.method.toList.length + ps.names.length) (Nat.le_refl _)).declare .parameter).declare
      .receiver
    refine (hheader.enclose hb ?_ rfl (by omega)).cons
    rw [List.length_append]
    omega
  | ret closed =>
    intro i stop Γ k h
    cases closed with
    | false => exact .other h
    | true => exact .plain rfl (others_use_nothing 2) h
  | retValues es closed ih =>
    intro i stop Γ k h
    simp only [Tree.tokens, List.length_append, List.length_cons] at h
    have hes := ih (i + 1) stop Γ k (by omega)
    cases closed with
    | false =>
      have hnil : Sighted [] (i + 1 + es.tokens.length) stop Γ Γ [] [] := .plain rfl nofun hes.within
      have := hes.append hnil rfl
      rw [List.append_nil] at this
      exact this.cons
    | true => exact (hes.snoc (by simp at h; omega)).cons
  | cons s b ih ih' =>
    intro i stop Γ k h
    simp only [Tree.tokens, List.length_append] at h
    exact (ih i stop Γ k (by omega)).append (ih' _ stop _ _ (by omega)) rfl

/-! ### Regions and their numbers -/

/-- The regions of `count` declarations, in the order of their numbers. -/
structure Numbered (gs : List Region) (k count : Nat) : Prop where
  range : ∀ g ∈ gs, k ≤ g.owner.number ∧ g.owner.number < k + count
  ordered : gs.Pairwise (·.owner.number < ·.owner.number)
  written : ∀ g ∈ gs, g.origin ≠ .receiver → g.owner.implicit = false

namespace Numbered

variable {gs gs' : List Region} {k k' count count' total : Nat}

theorem nil : Numbered [] k 0 := ⟨nofun, .nil, nofun⟩

theorem append (h : Numbered gs k count) (h' : Numbered gs' k' count') (hk : k' = k + count)
    (htotal : total = count + count') : Numbered (gs ++ gs') k total := by
  subst hk htotal
  refine ⟨?_, ?_, ?_⟩
  · intro g hg
    rcases List.mem_append.mp hg with hg | hg
    · have := h.range g hg
      omega
    · have := h'.range g hg
      omega
  · refine List.pairwise_append.mpr ⟨h.ordered, h'.ordered, fun g hg g' hg' => ?_⟩
    have := (h.range g hg).2
    have := (h'.range g' hg').1
    omega
  · intro g hg
    exact (List.mem_append.mp hg).elim (h.written g) (h'.written g)

theorem each (origin : Origin) (ns : List Name) (start stop : Nat) :
    Numbered (Region.each origin (declared k ns) start stop) k ns.length := by
  induction ns generalizing k with
  | nil => exact nil
  | cons n ns ih =>
    have hone : Numbered [⟨⟨k, n, false⟩, origin, start, stop⟩] k 1 := by
      refine ⟨?_, List.pairwise_singleton _ _, ?_⟩
      · intro g hg
        rw [List.mem_singleton.mp hg]
        exact ⟨Nat.le_refl k, Nat.lt_succ_self k⟩
      · intro g hg _
        rw [List.mem_singleton.mp hg]
    exact hone.append ih rfl (Nat.add_comm _ _)

theorem receiver (f : FunctionName) (start stop : Nat) :
    Numbered (Region.each .receiver (f.receiver k) start stop) k f.method.toList.length := by
  obtain ⟨base, fields, method⟩ := f
  cases method with
  | none => exact nil
  | some n =>
    refine ⟨?_, List.pairwise_singleton _ _, ?_⟩
    · intro g hg
      rw [List.mem_singleton.mp hg]
      exact ⟨Nat.le_refl k, Nat.lt_succ_self k⟩
    · intro g hg hreceiver
      rw [List.mem_singleton.mp hg] at hreceiver
      exact absurd rfl hreceiver

end Numbered

theorem length_locals (l : Local) (ls : List Local) :
    (l.name :: ls.map Local.name).length = 1 + ls.length := by
  rw [List.length_cons, List.length_map, Nat.add_comm]

theorem Tree.numbered {kind : Kind} (t : Tree kind) (i stop k : Nat) :
    Numbered (t.regions i stop k) k t.decls := by
  induction t generalizing i stop k with
  | literal t | name n | noArgs | stringArg text | noField | semicolon | breakLoop | gotoLabel n
  | label n | endIf | nothing | ret closed => exact .nil
  | plain p ih | table p ih | tableArg p ih | unary op p ih | paren p ih | one p ih | item p ih
  | named n p ih | read p ih | target p ih | result p ih | callOnly p ih | member p n ih
  | someArgs p ih | lastField p ih | doEnd p ih | elseEnd p ih | retValues p closed ih =>
    exact ih _ _ k
  | binary l op r ih ih' | index l r ih ih' | apply l r ih ih' | invoke l n r ih ih'
  | more l r ih ih' | targets l r ih ih' | span l r ih ih' | keyed l r ih ih'
  | fieldThen l sep r ih ih' | assign l r ih ih' | whileDo l r ih ih' | repeatUntil l r ih ih'
  | cons l r ih ih' => exact (ih _ _ k).append (ih' _ _ _) rfl rfl
  | stride a b c ih ih' ih'' | ifThen a b c ih ih' ih'' | elseIf a b c ih ih' ih'' =>
    exact ((ih _ _ k).append (ih' _ _ _) rfl rfl).append (ih'' _ _ _) (Nat.add_assoc ..) rfl
  | function ps b ih => exact (Numbered.each _ _ _ _).append (ih _ _ _) rfl rfl
  | locals l ls =>
    have := Numbered.each (k := k) .statement (l.name :: ls.map Local.name)
      (i + (Tree.locals l ls).tokens.length) stop
    rw [length_locals] at this
    exact this
  | localsInit l ls es ih =>
    exact (Numbered.each _ _ _ _).append (ih _ _ _) (congrArg (k + ·) (length_locals l ls).symm)
      (congrArg (· + es.decls) (length_locals l ls).symm)
  | forRange n r b ih ih' =>
    exact ((Numbered.each _ _ _ _).append (ih _ _ _) rfl rfl).append (ih' _ _ _)
      (Nat.add_assoc ..) rfl
  | forIn n ns es b ih ih' =>
    have hcount : (n :: ns).length = 1 + ns.length := Nat.add_comm ..
    refine ((Numbered.each _ _ _ _).append (ih _ _ _) (congrArg (k + ·) hcount.symm) rfl).append
      (ih' _ _ _) ?_ ?_
    · rw [hcount, Nat.add_assoc]
    · rw [hcount]
      rfl
  | localFunction n ps b ih =>
    exact (Numbered.each _ _ _ _).append ((Numbered.each _ _ _ _).append (ih _ _ _) rfl rfl) rfl
      (Nat.add_assoc ..)
  | functionNamed f ps b ih =>
    exact (Numbered.receiver f _ _).append ((Numbered.each _ _ _ _).append (ih _ _ _) rfl rfl) rfl
      (Nat.add_assoc ..)

/-! ### The variable of a name -/

/-- The region is the last declared of the regions of its name in which the token lies. -/
structure Region.Prevails (g : Region) (gs : List Region) (i : Nat) (n : Name) : Prop where
  covers : g.Covers i
  name : g.owner.name = n
  last : ∀ h ∈ gs, h.Covers i → h.owner.name = n → h.owner.number ≤ g.owner.number

theorem mem_inSight {gs : List Region} {i : Nat} {v : Variable} :
    v ∈ inSight gs i ↔ ∃ g ∈ gs, g.Covers i ∧ g.owner = v := by
  simp [inSight, and_assoc]

theorem Numbered.inSight_ordered {gs : List Region} {k count : Nat} (h : Numbered gs k count)
    (i : Nat) : (inSight gs i).Pairwise (·.number > ·.number) := by
  rw [inSight, List.pairwise_reverse, List.pairwise_map]
  exact h.ordered.filter _

/-- In a scope of which later declarations come first, a name stands for the last declared. -/
theorem Env.use_eq_refers_iff {Γ : Env} (h : Γ.Pairwise (·.number > ·.number)) {n : Name}
    {v : Variable} : Γ.use n = .refers v ↔
      v ∈ Γ ∧ v.name = n ∧ ∀ w ∈ Γ, w.name = n → w.number ≤ v.number := by
  induction Γ with
  | nil => exact ⟨nofun, fun h => nomatch h.1⟩
  | cons w Γ ih =>
    obtain ⟨hlast, h⟩ := List.pairwise_cons.mp h
    by_cases hw : w.name = n
    · have huse : Env.use (w :: Γ) n = .refers w := by
        rw [use, List.find?_cons_of_pos (by simpa using hw)]
      rw [huse]
      constructor
      · intro heq
        cases heq
        refine ⟨List.mem_cons_self, hw, fun u hu _ => ?_⟩
        rcases List.mem_cons.mp hu with rfl | hu
        · exact Nat.le_refl _
        · exact Nat.le_of_lt (hlast u hu)
      · rintro ⟨hv, -, hmax⟩
        rcases List.mem_cons.mp hv with rfl | hv
        · rfl
        · exact absurd (hmax w List.mem_cons_self hw) (Nat.not_le.mpr (hlast v hv))
    · have huse : Env.use (w :: Γ) n = Env.use Γ n := by
        rw [use, List.find?_cons_of_neg (by simpa using hw), use]
      rw [huse, ih h]
      constructor
      · rintro ⟨hv, hname, hmax⟩
        refine ⟨.tail _ hv, hname, fun u hu hun => ?_⟩
        rcases List.mem_cons.mp hu with rfl | hu
        · exact absurd hun hw
        · exact hmax u hu hun
      · rintro ⟨hv, hname, hmax⟩
        rcases List.mem_cons.mp hv with rfl | hv
        · exact absurd hname hw
        · exact ⟨hv, hname, fun u hu => hmax u (.tail _ hu)⟩

namespace Tree

/-- The regions of a chunk. -/
def spans (b : Tree .block) : List Region := b.regions 0 b.tokens.length 0

/-- The token is a name that stands for a variable and does not declare it. -/
structure Uses (b : Tree .block) (i : Nat) (n : Name) (r : Role) : Prop where
  token : b.tokens[i]? = some (.name n)
  role : (b.roles [] 0)[i]? = some r
  isUse : r.isUse = true

variable {b : Tree .block} {g : Region} {i : Nat} {n : Name} {r : Role}

theorem Uses.role_eq (h : b.Uses i n r) : r = (inSight b.spans i).use n := by
  have hsights := b.sights 0 b.tokens.length [] 0 (by omega)
  have := hsights.uses i n r h.token h.role h.isUse
  rwa [Nat.zero_add, List.append_nil] at this

/-- Two regions of one variable are the same. -/
theorem spans_inj {g g' : Region} (hg : g ∈ b.spans) (hg' : g' ∈ b.spans)
    (h : g.owner = g'.owner) : g = g' := by
  have hordered := (b.numbered 0 b.tokens.length 0).ordered
  have hnodup : (b.spans.map fun g => g.owner.number).Nodup :=
    (List.pairwise_map.mpr hordered).imp Nat.ne_of_lt
  exact List.inj_on_of_nodup_map hnodup hg hg' (congrArg Variable.number h)

/-- A name refers to the variable whose region prevails. -/
theorem Uses.refers_iff (h : b.Uses i n r) (hg : g ∈ b.spans) :
    r = .refers g.owner ↔ g.Prevails b.spans i n := by
  have hordered : (inSight b.spans i).Pairwise (·.number > ·.number) :=
    (b.numbered 0 b.tokens.length 0).inSight_ordered i
  rw [h.role_eq, Env.use_eq_refers_iff hordered]
  constructor
  · rintro ⟨hmem, hname, hlast⟩
    obtain ⟨g', hg', hcovers, howner⟩ := mem_inSight.mp hmem
    rw [spans_inj hg' hg howner] at hcovers
    exact ⟨hcovers, hname, fun f hf hfi hfn => hlast f.owner (mem_inSight.mpr ⟨f, hf, hfi, rfl⟩) hfn⟩
  · rintro ⟨hcovers, hname, hlast⟩
    refine ⟨mem_inSight.mpr ⟨g, hg, hcovers, rfl⟩, hname, fun w hw hwn => ?_⟩
    obtain ⟨f, hf, hfi, rfl⟩ := mem_inSight.mp hw
    exact hlast f hf hfi hwn

end Tree

end LuaBundle.Lua
