import LuaBundle.Proofs.Lua.Binding
import LuaBundle.Proofs.Lua.Views

/-!
# Scopes in a view

Whatever the walk takes a name for, it is bound to a variable that is declared before it: what is in
sight comes from the scopes around.
-/
namespace LuaBundle.Lua

theorem Env.declare_subset {Γ Δ : Env} (h : Γ ⊆ Δ) (vs : List Variable) :
    Γ.declare vs ⊆ Δ.declare vs :=
  List.append_subset.mpr ⟨List.subset_append_left _ _, List.Subset.trans h (List.subset_append_right _ _)⟩

namespace View

/-- All variables in sight, now or at the end of the statement or at the `do` of a loop. -/
def scope (x : View) : Env := x.env ++ (x.later ++ x.loops.flatten)

theorem mem_scope {x : View} {v : Variable} :
    v ∈ x.scope ↔ v ∈ x.env ∨ v ∈ x.later ∨ ∃ vs ∈ x.loops, v ∈ vs := by
  rw [scope, List.mem_append, List.mem_append, List.mem_flatten]

section

variable (x : View)

theorem scope_settled : x.settled.scope ⊆ x.scope := by
  intro v hv
  rcases mem_scope.mp hv with hv | hv | hv
  · exact mem_scope.mpr (.inr (.inl hv))
  · exact mem_scope.mpr (.inr (.inl hv))
  · exact mem_scope.mpr (.inr (.inr hv))

theorem scope_skip (strays : Nat) : (x.skip strays).scope ⊆ x.scope := by
  intro v hv
  rcases mem_scope.mp hv with hv | hv | ⟨vs, hvs, hv⟩
  · exact mem_scope.mpr (.inl hv)
  · exact mem_scope.mpr (.inr (.inl hv))
  · exact mem_scope.mpr (.inr (.inr ⟨vs, List.mem_of_mem_drop hvs, hv⟩))

theorem scope_past {kind : Kind} (t : Tree kind) : (x.past t).scope ⊆ x.scope := by
  rw [past, pass]
  cases t.closes with
  | true => exact List.Subset.trans (x.settled.scope_skip _) x.scope_settled
  | false => exact x.scope_skip _

theorem scope_reach (t : Tree .stmt) : (x.reach t).scope ⊆ x.scope := by
  rw [reach]
  split
  · exact List.Subset.refl _
  · exact x.scope_settled

theorem scope_between (Γ : Env) (h : Γ ⊆ x.scope) : (x.between Γ).scope ⊆ x.scope := by
  intro v hv
  rcases mem_scope.mp hv with hv | hv | hv
  · exact h hv
  · exact h hv
  · exact mem_scope.mpr (.inr (.inr hv))

theorem env_subset : x.env ⊆ x.scope := List.subset_append_left _ _

theorem later_subset : x.later ⊆ x.scope := fun _ hv => mem_scope.mpr (.inr (.inl hv))

end

variable (x : View) (vs : List Variable)

/-- Nothing new comes into sight but what is declared. -/
theorem scope_declare {y : View} (henv : y.env = x.env ∨ y.env = x.env.declare vs)
    (hlater : y.later = x.later ∨ y.later = x.env.declare vs)
    (hloops : ∀ ws ∈ y.loops, ws = vs ∨ ws ∈ x.loops) : y.scope ⊆ x.scope.declare vs := by
  have hkept : x.scope ⊆ x.scope.declare vs := List.subset_append_right _ _
  intro v hv
  rcases mem_scope.mp hv with hv | hv | ⟨ws, hws, hv⟩
  · rcases henv with h | h
    · exact hkept (x.env_subset (h ▸ hv))
    · exact Env.declare_subset x.env_subset vs (h ▸ hv)
  · rcases hlater with h | h
    · exact hkept (x.later_subset (h ▸ hv))
    · exact Env.declare_subset x.env_subset vs (h ▸ hv)
  · rcases hloops ws hws with rfl | hws
    · exact List.mem_append_left _ (List.mem_reverse.mpr hv)
    · exact hkept (mem_scope.mpr (.inr (.inr ⟨ws, hws, hv⟩)))

theorem scope_opened : (x.opened vs).scope ⊆ x.scope.declare vs :=
  x.scope_declare vs (.inr rfl) (.inr rfl) fun _ => .inr

theorem scope_header : (x.header vs).scope ⊆ x.scope.declare vs :=
  x.scope_declare vs (.inl rfl) (.inl rfl) fun _ => List.mem_cons.mp

theorem scope_awaiting : (x.awaiting vs).scope ⊆ x.scope.declare vs :=
  x.scope_declare vs (.inl rfl) (.inr rfl) fun _ => .inr

theorem scope_entered : x.entered.scope ⊆ x.scope := by
  have hhead : x.scope.declare (x.loops.headD []) ⊆ x.scope := by
    refine List.append_subset.mpr ⟨fun v hv => ?_, List.Subset.refl _⟩
    rw [List.mem_reverse] at hv
    cases hl : x.loops with
    | nil =>
      rw [hl] at hv
      cases hv
    | cons vs rest =>
      rw [hl] at hv
      exact mem_scope.mpr (.inr (.inr ⟨vs, hl ▸ List.mem_cons_self, hv⟩))
  refine List.Subset.trans ?_ hhead
  exact x.scope_declare _ (.inr rfl) (.inr rfl) fun ws hws => .inr (List.mem_of_mem_tail hws)

/-- In the body of a loop, or in a `do` block of its header that is taken for it. -/
theorem scope_entered_past {kind : Kind} (t : Tree kind) :
    ((x.header vs).past t).entered.scope ⊆ x.scope.declare vs :=
  List.Subset.trans (scope_entered _) (List.Subset.trans (scope_past _ t) (x.scope_header vs))

/-- In the body of a function. -/
theorem scope_opened_opened (ws : List Variable) :
    ((x.opened vs).opened ws).scope ⊆ (x.scope.declare vs).declare ws :=
  List.Subset.trans (scope_opened _ ws) (Env.declare_subset (x.scope_opened vs) ws)

/-- Behind a statement that declares variables for what follows it. -/
theorem scope_declared : (x.between (x.env.declare vs)).scope ⊆ x.scope.declare vs :=
  x.scope_declare vs (.inr rfl) (.inr rfl) fun _ => .inr

theorem scope_plainDo : x.plainDo.scope ⊆ x.scope := by
  rw [plainDo]
  split
  · exact x.scope_opened []
  · exact x.scope_entered

/-- Behind a statement that declares nothing for what follows it. -/
theorem scope_closed (strays : Nat) : ((x.between x.env).skip strays).scope ⊆ x.scope :=
  List.Subset.trans (scope_skip _ strays) (x.scope_between x.env x.env_subset)

end View

/-! ### Bindings in a view -/

namespace Binds

variable {Γ Γ' : Env} {k count : Nat} {ts : List Token} {rs : List Role}

/-- What was in scope before may be in scope after. -/
theorem reopen (h : Binds Γ k count ts rs Γ') : Binds Γ k count ts rs (Γ' ++ Γ) where
  fits := h.fits
  range := h.range
  ordered := h.ordered
  known := h.known
  scope := fun v hv => (List.mem_append.mp hv).elim (h.scope v) fun hv => .inr (.inl hv)

end Binds

/-! ### Trees -/

/-- How the tokens of a tree are bound in a view. -/
def Tree.SeenBound : {kind : Kind} → Tree kind → Prop
  | .stmt, t | .block, t =>
    ∀ x k, Binds x.scope k t.decls t.tokens (t.seen x k) (t.left x k).scope
  | .expr, t | .operand, t | .var, t | .call, t | .args, t | .exprs, t | .vars, t | .range, t
  | .field, t | .fields, t | .tail, t => ∀ x k, Binds x.scope k t.decls t.tokens (t.seen x k) x.scope

/-- From the condition of an `if` to its end. -/
theorem Tree.seen_bound_branch {e : Tree .expr} {b : Tree .block} {f : Tree .tail} (he : e.SeenBound)
    (hb : b.SeenBound) (hf : f.SeenBound) (x : View) (k : Nat) {t u : Token} :
    Binds x.scope k (e.decls + b.decls + f.decls) (t :: e.tokens ++ u :: b.tokens ++ f.tokens)
      (.other :: e.seen x k ++ .other :: b.seen ((x.past e).opened []) (k + e.decls) ++
        f.seen (x.skip (e.strays true + b.strays true)) (k + e.decls + b.decls)) x.scope := by
  have hbody := (hb ((x.past e).opened []) (k + e.decls)).mono
    (List.Subset.trans (View.scope_opened _ []) (x.scope_past e))
  have hrest := (hf (x.skip (e.strays true + b.strays true)) (k + e.decls + b.decls)).mono
    (x.scope_skip _)
  exact ((he x k).cons.append hbody.cons rfl).append hrest (Nat.add_assoc ..)

theorem Tree.seen_bound {kind : Kind} (t : Tree kind) : t.SeenBound := by
  induction t with
  | literal t => exact fun x k => .other
  | plain p ih | read p ih | result p ih | one p ih | target p ih | item p ih | lastField p ih =>
    exact fun x k => ih x k
  | table fs ih | tableArg fs ih => exact fun x k => (ih (x.inside true) k).cons.snoc
  | paren e ih | someArgs e ih => exact fun x k => (ih (x.inside false) k).cons.snoc
  | binary l op r ih ih' | more l r ih ih' | span l r ih ih' | fieldThen l sep r ih ih' =>
    exact fun x k => (ih x k).append ((ih' (x.past l) _).mono (x.scope_past l)).cons rfl
  | targets v vs ih ih' =>
    intro x k
    refine (ih x k).append (Binds.cons ?_) rfl
    split
    · rename_i hkey
      cases vs with
      | target v =>
        cases v with
        | name n => exact .other
        | index p e | member p n => cases (Bool.and_eq_true_iff.mp hkey).2
      | targets v vs => cases (Bool.and_eq_true_iff.mp hkey).2
    · exact (ih' (x.past v) _).mono (x.scope_past v)
  | unary op e ih => exact fun x k => (ih x k).cons
  | function ps b ih =>
    intro x k
    have hb := (ih (x.opened (declared k ps.names)) (k + ps.names.length)).widen (x.scope_opened _)
    exact (((Binds.params ps).append hb rfl).close).cons.snoc
  | name n => exact fun x k => (Binds.use n).mono x.env_subset
  | index p e ih ih' =>
    intro x k
    have he := (ih' ((x.past p).inside false) (k + p.decls)).mono (x.scope_past p)
    exact ((ih x k).append he.cons rfl).snoc
  | member p n ih => exact fun x k => (ih x k).append Binds.other.cons rfl
  | apply p a ih ih' => exact fun x k => (ih x k).append ((ih' (x.past p) _).mono (x.scope_past p)) rfl
  | invoke p n a ih ih' =>
    exact fun x k => (ih x k).append ((ih' (x.past p) _).mono (x.scope_past p)).cons.cons rfl
  | noArgs => exact fun x k => Binds.other.cons
  | stringArg text => exact fun x k => .other
  | stride first limit step ih ih' ih'' =>
    intro x k
    have hlimit := (ih' (x.past first) (k + first.decls)).mono (x.scope_past first)
    have hstep := (ih'' ((x.past first).past limit) (k + first.decls + limit.decls)).mono
      (List.Subset.trans (View.scope_past _ limit) (x.scope_past first))
    exact ((ih x k).append hlimit.cons rfl).append hstep.cons (Nat.add_assoc ..)
  | named n e ih => exact fun x k => (ih x k).cons.cons
  | keyed key e ih ih' =>
    intro x k
    have he := (ih' (x.past key) (k + key.decls)).mono (x.scope_past key)
    exact (ih (x.inside false) k).cons.append he.cons.cons rfl
  | noField => exact fun x k => .nil
  | semicolon => exact fun x k => .other
  | breakLoop => exact fun x k => Binds.other.restrict (x.scope_between x.env x.env_subset)
  | gotoLabel n => exact fun x k => Binds.other.cons.restrict (x.scope_between x.env x.env_subset)
  | label n => exact fun x k => Binds.other.cons.cons.restrict (x.scope_between x.env x.env_subset)
  | locals l ls =>
    exact fun x k => (Binds.declares_locals l ls).cons.restrict (x.scope_declared _)
  | localsInit l ls es ih =>
    intro x k
    have hes := (ih (x.awaiting (declared k (l.name :: ls.map Local.name))) (k + (1 + ls.length))).mono
      (x.scope_awaiting _)
    refine ((Binds.declares_locals l ls).cons.append hes.cons rfl).restrict ?_
    exact List.Subset.trans (View.scope_past _ es) (x.scope_awaiting _)
  | assign vs es ih ih' =>
    intro x k
    have hes := (ih' (x.past vs) (k + vs.decls)).mono (x.scope_past vs)
    exact ((ih x k).append hes.cons rfl).restrict
      (List.Subset.trans (View.scope_past _ es) (x.scope_past vs))
  | callOnly c ih => exact fun x k => (ih x k).restrict (x.scope_past c)
  | doEnd b ih =>
    intro x k
    have hb := ((ih x.plainDo k).widen x.scope_plainDo).close.cons (t := .keyword .doKw)
    exact hb.snoc.restrict
      (List.Subset.trans (View.scope_skip _ _) (x.scope_between x.later x.later_subset))
  | whileDo e b ih ih' =>
    intro x k
    have he := (ih (x.header []) k).mono (x.scope_header [])
    have hb := (ih' ((x.header []).past e).entered (k + e.decls)).mono (x.scope_entered_past [] e)
    exact (he.cons.append hb.cons rfl).snoc.restrict (x.scope_closed _)
  | forRange n r b ih ih' =>
    intro x k
    have hr := (ih (x.header (declared k [n])) (k + 1)).mono (x.scope_header _)
    have hb := (ih' ((x.header (declared k [n])).past r).entered (k + 1 + r.decls)).mono
      (x.scope_entered_past _ r)
    refine Binds.restrict (Binds.snoc (Binds.close (.append ?_ hb.cons (Nat.add_assoc ..))))
      (x.scope_closed _)
    exact (Binds.declares_names n []).cons.append hr.cons rfl
  | forIn n ns es b ih ih' =>
    intro x k
    have hes := (ih (x.header (declared k (n :: ns))) (k + (1 + ns.length))).mono (x.scope_header _)
    have hb := (ih' ((x.header (declared k (n :: ns))).past es).entered
      (k + (1 + ns.length) + es.decls)).mono (x.scope_entered_past _ es)
    refine Binds.restrict (Binds.snoc (Binds.close (.append ?_ hb.cons (Nat.add_assoc ..))))
      (x.scope_closed _)
    exact (Binds.declares_names n ns).cons.append hes.cons rfl
  | repeatUntil b e ih ih' =>
    intro x k
    have hb := ((ih (x.opened []) k).widen (x.scope_opened [])).reopen
    have hsub : (x.untilFrom (b.left (x.opened []) k)).scope ⊆
        (b.left (x.opened []) k).scope ++ x.scope := by
      intro v hv
      rcases View.mem_scope.mp hv with hv | hv | hv
      · exact List.mem_append_left _ (View.later_subset _ hv)
      · exact List.mem_append_right _ (x.env_subset hv)
      · exact List.mem_append_left _ (View.mem_scope.mpr (.inr (.inr hv)))
    have he := (ih' (x.untilFrom (b.left (x.opened []) k)) (k + b.decls)).mono hsub
    exact (hb.cons.append he.cons rfl).restrict (List.Subset.trans (View.scope_past _ e) hsub)
  | elseEnd b ih =>
    exact fun x k => ((ih (x.opened []) k).widen (x.scope_opened [])).close.cons.snoc
  | endIf => exact fun x k => .other
  | ifThen e b f ih ih' ih'' =>
    exact fun x k => (Tree.seen_bound_branch ih ih' ih'' x k).restrict (x.scope_closed _)
  | elseIf e b f ih ih' ih'' => exact fun x k => Tree.seen_bound_branch ih ih' ih'' x k
  | localFunction n ps b ih =>
    intro x k
    have hb := (ih ((x.opened (declared k [n])).opened (declared (k + 1) ps.names))
      (k + 1 + ps.names.length)).mono (x.scope_opened_opened _ _)
    have hsub := List.Subset.trans (View.scope_skip _ (b.strays true)) (x.scope_declared (declared k [n]))
    refine Binds.snoc (Binds.restrict (.append ?_ hb (Nat.add_assoc ..))
      (List.Subset.trans hsub (List.subset_append_right _ _)))
    exact (Binds.declares_names n []).cons.cons.append (Binds.params ps) rfl
  | functionNamed f ps b ih =>
    intro x k
    have hb := (ih ((x.opened (f.receiver k)).opened
      (declared (k + f.method.toList.length) ps.names))
      (k + f.method.toList.length + ps.names.length)).mono (x.scope_opened_opened _ _)
    refine Binds.restrict (Binds.snoc (Binds.close (.append ?_ hb (Nat.add_assoc ..))))
      (x.scope_closed _)
    have hreceiver : x.scope.declare (f.receiver k) ⊆ x.env.declare (f.receiver k) ++ x.scope :=
      List.append_subset.mpr ⟨List.Subset.trans (List.subset_append_left _ _) (List.subset_append_left _ _),
        List.subset_append_right _ _⟩
    have hname := ((Binds.functionName f).widen x.env_subset).reopen.restrict hreceiver
    exact hname.cons.append (Binds.params ps) rfl
  | nothing => exact fun x k => .nil
  | ret closed =>
    intro x k
    cases closed with
    | false => exact Binds.other.restrict x.scope_settled
    | true => exact Binds.other.cons.restrict x.scope_settled
  | retValues es closed ih =>
    intro x k
    have hes := (ih x.settled k).mono x.scope_settled
    have hsub := List.Subset.trans (View.scope_past x.settled es) x.scope_settled
    cases closed with
    | false => exact (hes.cons.append .nil rfl).restrict hsub
    | true => exact hes.cons.snoc.restrict hsub
  | cons t b ih ih' =>
    exact fun x k => ((ih (x.reach t) k).widen (x.scope_reach t)).append (ih' _ _) rfl

end LuaBundle.Lua
