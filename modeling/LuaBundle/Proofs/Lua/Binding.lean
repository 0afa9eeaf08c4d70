import LuaBundle.Proofs.Lua.Declaring
import Mathlib.Data.List.Forall2

/-!
# The scopes of a tree

Every declaration of a tree has a number of its own, and every name is bound to a variable that is
declared before it.
-/
namespace LuaBundle.Lua

namespace Role

def declared? : Role → Option Variable
  | declares v => some v
  | _ => none

/-- What a token with this role looks like. -/
def Fits : Role → Token → Prop
  | declares v, t | refers v, t => t = .name v.name
  | free, t => t.isName = true
  | other, _ => True

end Role

/-- The tokens `ts` have the roles `rs` in the scope `Γ` and make `count` declarations, numbered
from `k` on; `Γ'` is a scope after them. -/
structure Binds (Γ : Env) (k count : Nat) (ts : List Token) (rs : List Role) (Γ' : Env) : Prop where
  fits : List.Forall₂ Role.Fits rs ts
  range : ∀ v ∈ rs.filterMap Role.declared?, k ≤ v.number ∧ v.number < k + count
  ordered : (rs.filterMap Role.declared?).Pairwise (·.number < ·.number)
  known : ∀ (i : Nat) v, rs[i]? = some (Role.refers v) →
    v.implicit = true ∨ v ∈ Γ ∨ ∃ j < i, rs[j]? = some (Role.declares v)
  scope : ∀ v ∈ Γ', v.implicit = true ∨ v ∈ Γ ∨ Role.declares v ∈ rs

namespace Binds

variable {Γ Γ₁ Γ' Δ : Env} {k k' count count' : Nat} {ts ts' : List Token} {rs rs' : List Role}
  {t : Token}

theorem nil : Binds Γ k 0 [] [] Γ := by
  refine ⟨.nil, nofun, .nil, ?_, fun v hv => .inr (.inl hv)⟩
  intro i v h
  rw [List.getElem?_nil] at h
  cases h

theorem append (h : Binds Γ k count ts rs Γ₁) (h' : Binds Γ₁ k' count' ts' rs' Γ')
    (hk : k' = k + count) : Binds Γ k (count + count') (ts ++ ts') (rs ++ rs') Γ' := by
  subst hk
  refine ⟨List.rel_append h.fits h'.fits, ?_, ?_, ?_, ?_⟩
  · rw [List.filterMap_append]
    intro v hv
    rcases List.mem_append.mp hv with hv | hv
    · have := h.range v hv
      omega
    · have := h'.range v hv
      omega
  · rw [List.filterMap_append]
    refine List.pairwise_append.mpr ⟨h.ordered, h'.ordered, fun v hv w hw => ?_⟩
    have := (h.range v hv).2
    have := (h'.range w hw).1
    omega
  · intro i v hi
    by_cases hlt : i < rs.length
    · rw [List.getElem?_append_left hlt] at hi
      rcases h.known i v hi with himp | hv | ⟨j, hj, hdecl⟩
      · exact .inl himp
      · exact .inr (.inl hv)
      · refine .inr (.inr ⟨j, hj, ?_⟩)
        rw [List.getElem?_append_left (by omega)]
        exact hdecl
    · rw [List.getElem?_append_right (by omega)] at hi
      rcases h'.known _ v hi with himp | hv | ⟨j, hj, hdecl⟩
      · exact .inl himp
      · refine (h.scope v hv).imp_right fun hv => hv.imp_right fun hdecl => ?_
        obtain ⟨j, hj⟩ := List.mem_iff_getElem?.mp hdecl
        have hjlt : j < rs.length := (List.getElem?_eq_some_iff.mp hj).1
        refine ⟨j, by omega, ?_⟩
        rw [List.getElem?_append_left hjlt]
        exact hj
      · refine .inr (.inr ⟨rs.length + j, by omega, ?_⟩)
        rw [List.getElem?_append_right (by omega), Nat.add_sub_cancel_left]
        exact hdecl
  · intro v hv
    rcases h'.scope v hv with himp | hv | hdecl
    · exact .inl himp
    · exact (h.scope v hv).imp_right fun hv => hv.imp_right (List.mem_append_left _)
    · exact .inr (.inr (List.mem_append_right _ hdecl))

/-- What is bound in a scope is bound the same way in a larger one. -/
theorem widen (h : Binds Γ k count ts rs Γ') (hΓ : Γ ⊆ Δ) : Binds Δ k count ts rs Γ' where
  fits := h.fits
  range := h.range
  ordered := h.ordered
  known := fun i v hi => (h.known i v hi).imp_right fun hv => hv.imp_left fun hv => hΓ hv
  scope := fun v hv => (h.scope v hv).imp_right fun hv => hv.imp_left fun hv => hΓ hv

theorem mono (h : Binds Γ k count ts rs Γ') (hΓ : Γ ⊆ Δ) : Binds Δ k count ts rs Δ :=
  { h.widen hΓ with scope := fun _ hv => .inr (.inl hv) }

theorem close (h : Binds Γ k count ts rs Γ') : Binds Γ k count ts rs Γ :=
  h.mono (List.Subset.refl Γ)

theorem under (h : Binds Γ k count ts rs Γ') (vs : List Variable) :
    Binds (Γ.declare vs) k count ts rs (Γ.declare vs) := h.mono (List.subset_append_right _ _)

theorem restrict (h : Binds Γ k count ts rs Γ') (hΓ : Δ ⊆ Γ') : Binds Γ k count ts rs Δ :=
  { h with scope := fun v hv => h.scope v (hΓ hv) }

theorem single {r : Role} (hfits : r.Fits t) (hdeclared : r.declared? = none)
    (hknown : ∀ v, r = .refers v → v ∈ Γ) : Binds Γ k 0 [t] [r] Γ := by
  have hnone : [r].filterMap Role.declared? = [] := by
    rw [List.filterMap_cons_none hdeclared, List.filterMap_nil]
  refine ⟨.cons hfits .nil, ?_, ?_, ?_, fun v hv => .inr (.inl hv)⟩
  · rw [hnone]
    intro v hv
    cases hv
  · rw [hnone]
    exact .nil
  · intro i v hi
    cases i with
    | zero => exact .inr (.inl (hknown v (Option.some.inj hi)))
    | succ i => cases hi

theorem other : Binds Γ k 0 [t] [.other] Γ :=
  single trivial rfl fun v h => by cases h

theorem others (us : List Token) : Binds Γ k 0 us (us.map fun _ => .other) Γ := by
  induction us with
  | nil => exact .nil
  | cons t us ih => exact append other ih rfl

theorem cons (h : Binds Γ k count ts rs Γ') : Binds Γ k count (t :: ts) (.other :: rs) Γ' := by
  have := append (other (t := t)) h rfl
  rw [Nat.zero_add] at this
  exact this

theorem snoc (h : Binds Γ k count ts rs Γ') :
    Binds Γ k count (ts ++ [t]) (rs ++ [.other]) Γ' := append h other rfl

theorem use (n : Name) : Binds Γ k 0 [.name n] [Γ.use n] Γ := by
  rw [Env.use]
  cases hfind : Γ.find? (·.name = n) with
  | none => exact single rfl rfl fun v h => by cases h
  | some v =>
    have hname : v.name = n := by simpa using List.find?_some hfind
    refine single (congrArg Token.name hname.symm) rfl fun w h => ?_
    cases h
    exact List.mem_of_find?_eq_some hfind

theorem declares (n : Name) :
    Binds Γ k 1 [.name n] [.declares ⟨k, n, false⟩] (Γ.declare [⟨k, n, false⟩]) := by
  refine ⟨.cons rfl .nil, ?_, List.pairwise_singleton _ _, ?_, ?_⟩
  · intro v hv
    rw [List.mem_singleton.mp hv]
    exact ⟨Nat.le_refl k, Nat.lt_succ_self k⟩
  · intro i v h
    cases i <;> cases h
  · intro v hv
    rcases List.mem_cons.mp hv with rfl | hv
    · exact .inr (.inr (List.mem_singleton_self _))
    · exact .inr (.inl hv)

theorem declare_append (Γ : Env) (vs ws : List Variable) :
    (Γ.declare vs).declare ws = Γ.declare (vs ++ ws) := by
  rw [Env.declare, Env.declare, Env.declare, List.reverse_append, List.append_assoc]

theorem declares_local (l : Local) :
    Binds Γ k 1 l.tokens (l.roles k) (Γ.declare [⟨k, l.name, false⟩]) := by
  obtain ⟨n, attrib⟩ := l
  cases attrib with
  | none => exact declares n
  | some a => exact append (declares n) (others _) rfl

theorem declares_locals (l : Local) (ls : List Local) :
    Binds Γ k (1 + ls.length) (localTokens l ls) (localRoles k l ls)
      (Γ.declare (declared k (l.name :: ls.map Local.name))) := by
  induction ls generalizing Γ k l with
  | nil => exact declares_local l
  | cons m ls ih =>
    have h := append (declares_local (Γ := Γ) (k := k) l)
      (cons (t := .symbol .comma) (ih (k := k + 1) m)) rfl
    have hcount : 1 + (1 + ls.length) = 1 + (m :: ls).length := by
      rw [List.length_cons]
      omega
    rw [declare_append, hcount] at h
    exact h

theorem declares_names (n : Name) (ns : List Name) :
    Binds Γ k (1 + ns.length) (nameTokens (n :: ns)) (declaring (declared k (n :: ns)))
      (Γ.declare (declared k (n :: ns))) := by
  have h := declares_locals (Γ := Γ) (k := k) ⟨n, none⟩ (ns.map (⟨·, none⟩))
  rw [List.length_map, List.map_map] at h
  simp only [Function.comp_def, List.map_id'] at h
  rw [nameTokens_eq, declaring_eq]
  exact h

theorem declares_params (ns : List Name) (variadic : Bool) :
    Binds Γ k ns.length
      ((ns.map Token.name ++ if variadic then [Token.symbol .ellipsis] else []).intersperse
        (.symbol .comma))
      (((declared k ns).map Role.declares ++ if variadic then [Role.other] else []).intersperse .other)
      (Γ.declare (declared k ns)) := by
  induction ns generalizing Γ k with
  | nil =>
    cases variadic with
    | false => exact nil
    | true => exact other
  | cons n ns ih =>
    have hrest := append (declares (Γ := Γ) (k := k) n)
      (cons (t := .symbol .comma) (ih (k := k + 1))) rfl
    rw [declare_append, Nat.add_comm 1] at hrest
    cases ns with
    | nil =>
      cases variadic with
      | false => exact declares n
      | true => exact hrest
    | cons m ns => exact hrest

theorem params (ps : Params) :
    Binds Γ k ps.names.length ps.tokens (ps.roles k) (Γ.declare (declared k ps.names)) :=
  (declares_params ps.names ps.variadic).cons.snoc

/-- A receiver is declared without a token. -/
theorem receive {vs : List Variable} (h : Binds Γ k 0 ts rs Γ')
    (hvs : ∀ v ∈ vs, v.implicit = true) :
    Binds Γ k vs.length ts rs (Γ'.declare vs) := by
  refine { h with range := ?_, scope := fun v hv => ?_ }
  · intro v hv
    have := h.range v hv
    omega
  · rcases List.mem_append.mp hv with hv | hv
    · exact .inl (hvs v (List.mem_reverse.mp hv))
    · exact h.scope v hv

theorem functionName (f : FunctionName) :
    Binds Γ k f.method.toList.length f.tokens (f.roles Γ) (Γ.declare (f.receiver k)) := by
  have hpath : ∀ (m : Symbol) (ns : List Name), Binds Γ k 0
      (ns.flatMap fun n => [Token.symbol m, .name n])
      (ns.flatMap fun _ => [Role.other, .other]) Γ := by
    intro m ns
    have h := others (Γ := Γ) (k := k) (ns.flatMap fun n => [Token.symbol m, .name n])
    rw [List.map_flatMap] at h
    exact h
  have hreceiver : ∀ v ∈ f.receiver k, v.implicit = true := by
    intro v hv
    obtain ⟨n, -, rfl⟩ := List.mem_map.mp hv
    rfl
  have h := (append (append (use f.base) (hpath .dot f.fields) rfl) (hpath .colon f.method.toList)
    rfl).receive hreceiver
  rw [FunctionName.receiver, List.length_map] at h
  exact h

end Binds

/-- How a tree is bound; only statements and blocks extend the scope. -/
def Tree.Bound : {kind : Kind} → Tree kind → Prop
  | .stmt, t | .block, t => ∀ Γ k, Binds Γ k t.decls t.tokens (t.roles Γ k) (t.extend Γ k)
  | .expr, t | .operand, t | .var, t | .call, t | .args, t | .exprs, t | .vars, t | .range, t
  | .field, t | .fields, t | .tail, t => ∀ Γ k, Binds Γ k t.decls t.tokens (t.roles Γ k) Γ

theorem Tree.bound {kind : Kind} (t : Tree kind) : t.Bound := by
  induction t with
  | literal t => exact fun Γ k => .other
  | plain p ih | read p ih | result p ih | one p ih | target p ih | item p ih | lastField p ih
  | callOnly p ih => exact fun Γ k => ih Γ k
  | table fs ih | paren fs ih | someArgs fs ih | tableArg fs ih =>
    exact fun Γ k => (ih Γ k).cons.snoc
  | binary l op r ih ih' => exact fun Γ k => (ih Γ k).append (ih' Γ _).cons rfl
  | more l r ih ih' | targets l r ih ih' | span l r ih ih' | assign l r ih ih' =>
    exact fun Γ k => (ih Γ k).append (ih' Γ _).cons rfl
  | fieldThen f sep fs ih ih' => exact fun Γ k => (ih Γ k).append (ih' Γ _).cons rfl
  | unary op e ih => exact fun Γ k => (ih Γ k).cons
  | function ps b ih => exact fun Γ k => (((Binds.params ps).append (ih _ _) rfl).close).cons.snoc
  | name n => exact fun Γ k => .use n
  | index p e ih ih' => exact fun Γ k => ((ih Γ k).append (ih' Γ _).cons rfl).snoc
  | member p n ih => exact fun Γ k => (ih Γ k).append Binds.other.cons rfl
  | apply p a ih ih' => exact fun Γ k => (ih Γ k).append (ih' Γ _) rfl
  | invoke p n a ih ih' => exact fun Γ k => (ih Γ k).append (ih' Γ _).cons.cons rfl
  | noArgs => exact fun Γ k => Binds.other.cons
  | stringArg text => exact fun Γ k => .other
  | stride first limit step ih ih' ih'' =>
    exact fun Γ k => ((ih Γ k).append (ih' Γ _).cons rfl).append (ih'' Γ _).cons (Nat.add_assoc ..)
  | named n e ih => exact fun Γ k => (ih Γ k).cons.cons
  | keyed key e ih ih' => exact fun Γ k => (ih Γ k).cons.append (ih' Γ _).cons.cons rfl
  | noField => exact fun Γ k => .nil
  | semicolon | breakLoop | endIf => exact fun Γ k => .other
  | gotoLabel n => exact fun Γ k => Binds.other.cons
  | label n => exact fun Γ k => Binds.other.cons.cons
  | locals l ls => exact fun Γ k => (Binds.declares_locals l ls).cons
  | localsInit l ls es ih =>
    intro Γ k
    exact (Binds.declares_locals l ls).cons.append ((ih Γ _).under _).cons rfl
  | doEnd b ih | elseEnd b ih => exact fun Γ k => (ih Γ k).close.cons.snoc
  | whileDo e b ih ih' => exact fun Γ k => ((ih Γ k).cons.append (ih' Γ _).close.cons rfl).snoc
  | repeatUntil b e ih ih' => exact fun Γ k => ((ih Γ k).cons.append (ih' _ _).cons rfl).close
  | ifThen e b f ih ih' ih'' | elseIf e b f ih ih' ih'' =>
    intro Γ k
    refine .append ?_ (ih'' Γ _) (Nat.add_assoc ..)
    exact (ih Γ k).cons.append (ih' Γ _).close.cons rfl
  | forRange n r b ih ih' =>
    intro Γ k
    refine Binds.snoc (Binds.close (.append ?_ (ih' _ _).cons (Nat.add_assoc ..)))
    exact (Binds.declares_names n []).cons.append ((ih Γ _).under _).cons rfl
  | forIn n ns es b ih ih' =>
    intro Γ k
    refine Binds.snoc (Binds.close (.append ?_ (ih' _ _).cons (Nat.add_assoc ..)))
    exact (Binds.declares_names n ns).cons.append ((ih Γ _).under _).cons rfl
  | localFunction n ps b ih =>
    intro Γ k
    refine Binds.snoc (Binds.restrict (.append ?_ (ih _ _).close (Nat.add_assoc ..))
      (List.subset_append_right _ _))
    exact (Binds.declares_names n []).cons.cons.append (Binds.params ps) rfl
  | functionNamed f ps b ih =>
    intro Γ k
    refine Binds.snoc (Binds.close (.append ?_ (ih _ _) (Nat.add_assoc ..)))
    exact (Binds.functionName f).cons.append (Binds.params ps) rfl
  | nothing => exact fun Γ k => .nil
  | ret closed =>
    cases closed with
    | false => exact fun Γ k => .other
    | true => exact fun Γ k => Binds.other.cons
  | retValues es closed ih =>
    cases closed with
    | false => exact fun Γ k => (ih Γ k).cons.append .nil rfl
    | true => exact fun Γ k => (ih Γ k).cons.snoc
  | cons t b ih ih' => exact fun Γ k => (ih Γ k).append (ih' _ _) rfl

end LuaBundle.Lua
