import LuaBundle.Proofs.Lua.Reading

/-!
# Declarations

Names after `local` and `for`, and the parameters of functions: the walk declares them with the
numbers that the scopes of the tree give them.
-/
namespace LuaBundle.Lua

theorem Env.entries_declare (Γ : Env) (vs : List Variable) :
    (Γ.declare vs).entries = (Env.entries vs).reverse ++ Γ.entries := by
  rw [Env.declare, Env.entries, List.map_append, List.map_reverse]
  rfl

/-- Declaring in the innermost frame declares in the scope. -/
theorem Env.flatten_declare {f : Frame} {F : List Frame} {Γ : Env}
    (h : (f :: F).flatten = Γ.entries) (vs : List Variable) :
    (((Env.entries vs).reverse ++ f) :: F).flatten = (Γ.declare vs).entries := by
  rw [Env.entries_declare, ← h, List.flatten_cons, List.flatten_cons, List.append_assoc]

/-! ### Lists with commas -/

section Commas

variable {α β : Type}

theorem length_intersperse_eq (a : α) (b : β) {xs : List α} {ys : List β}
    (h : xs.length = ys.length) : (xs.intersperse a).length = (ys.intersperse b).length := by
  induction xs generalizing ys with
  | nil =>
    rw [List.length_eq_zero_iff.mp h.symm]
    rfl
  | cons x xs ih =>
    obtain ⟨y, ys, rfl⟩ := List.exists_cons_of_length_eq_add_one h.symm
    have htail := ih (Nat.succ.inj h)
    cases xs with
    | nil =>
      rw [List.length_eq_zero_iff.mp (Nat.succ.inj h).symm]
      rfl
    | cons x' xs =>
      obtain ⟨y', ys, rfl⟩ := List.exists_cons_of_length_eq_add_one (Nat.succ.inj h).symm
      exact congrArg (· + 2) htail

theorem forall_mem_intersperse {p : α → Prop} {a : α} {xs : List α} (ha : p a)
    (h : ∀ x ∈ xs, p x) : ∀ x ∈ xs.intersperse a, p x := by
  induction xs with
  | nil => nofun
  | cons x xs ih =>
    obtain ⟨hx, htail⟩ := List.forall_mem_cons.mp h
    cases xs with
    | nil => exact h
    | cons y ys =>
      exact List.forall_mem_cons.mpr ⟨hx, List.forall_mem_cons.mpr ⟨ha, ih htail⟩⟩

end Commas

theorem declared_length (k : Nat) (ns : List Name) : (declared k ns).length = ns.length := by
  induction ns generalizing k with
  | nil => rfl
  | cons n ns ih => exact congrArg (· + 1) (ih (k + 1))

theorem declaring_length (k : Nat) (ns : List Name) :
    (declaring (declared k ns)).length = (nameTokens ns).length := by
  refine length_intersperse_eq _ _ ?_
  rw [List.length_map, List.length_map, declared_length]

theorem Local.roles_length (l : Local) (k : Nat) : (l.roles k).length = l.tokens.length := by
  obtain ⟨n, attrib⟩ := l
  cases attrib <;> rfl

theorem localRoles_length (k : Nat) (l : Local) (ls : List Local) :
    (localRoles k l ls).length = (localTokens l ls).length := by
  induction ls generalizing k l with
  | nil => exact l.roles_length k
  | cons m ls ih =>
    rw [localRoles, localTokens, List.length_append, List.length_append, List.length_cons,
      List.length_cons, ih, l.roles_length]

theorem Params.roles_length (ps : Params) (k : Nat) : (ps.roles k).length = ps.tokens.length := by
  obtain ⟨ns, variadic⟩ := ps
  have hlist : ((declared k ns).map Role.declares ++ if variadic then [Role.other] else []).length =
      (ns.map Token.name ++ if variadic then [Token.symbol .ellipsis] else []).length := by
    rw [List.length_append, List.length_append, List.length_map, List.length_map, declared_length]
    cases variadic <;> rfl
  rw [Params.roles, Params.tokens, List.length_append, List.length_append, List.length_cons,
    List.length_cons, length_intersperse_eq _ _ hlist]
  rfl

theorem FunctionName.roles_length (f : FunctionName) (Γ : Env) :
    (f.roles Γ).length = f.tokens.length := by
  obtain ⟨base, fields, method⟩ := f
  simp [FunctionName.roles, FunctionName.tokens]

theorem nameTokens_flat (ns : List Name) : ∀ t ∈ nameTokens ns, t.isFlat = true :=
  forall_mem_intersperse rfl fun t ht => by
    obtain ⟨n, -, rfl⟩ := List.mem_map.mp ht
    rfl

def ScopeState.number (s : ScopeState) (count : Nat) : ScopeState :=
  { s with declared := s.declared + count }

section Names

variable {attribs : Bool} {c : Cursor} {s : ScopeState} {us vs : List Token} {l : Local}

/-- What is declared when the first name of a list is passed, with `sites` left. -/
def declareMore (attribs : Bool) (s : ScopeState) (bs : List Binding) (name : List Char × Decl)
    (sites : List Site) : List Binding × Frame × ScopeState × List Site :=
  match sites with
  | [] => (bs, [name], s, [])
  | c :: rest =>
    if c.token = .symbol .comma then
      let (bs', names, s', after) := declareNames attribs s rest
      (bs ++ .unbound :: bs', name :: names, s', after)
    else (bs, [name], s, c :: rest)

theorem declareNames_name (site : Site) {rest : List Site} {n : Name} {skipped : Nat}
    (hn : site.token = .name n)
    (hskip : (if attribs = true ∧ startsWith .less rest = true then 3 else 0) = skipped) :
    declareNames attribs s (site :: rest) =
      declareMore attribs (s.number 1)
        (.declared ⟨s.declared, false⟩ :: List.replicate skipped .unbound)
        (n, ⟨s.declared, false⟩) (rest.drop skipped) := by
  rw [declareNames]
  simp only [hn, declareMore]
  split <;> rename_i heq <;> rw [hskip] at heq <;> simp only [heq, hskip] <;> rfl

theorem declareNames_local (hattrib : attribs = true ∨ l.attrib = none)
    (hless : vs.head? ≠ some (.symbol .less)) :
    declareNames attribs s (c.sites (l.tokens ++ vs)) =
      declareMore attribs (s.number 1) (bindings (l.roles s.declared))
        (l.name, ⟨s.declared, false⟩) ((c.after l.tokens).sites vs) := by
  obtain ⟨n, attrib⟩ := l
  cases attrib with
  | none =>
    have hskip : ¬ (attribs = true ∧ startsWith .less ((c.next (.name n)).sites vs) = true) := by
      rintro ⟨-, h⟩
      rw [startsWith_sites, beq_iff_eq] at h
      exact hless h
    exact declareNames_name (c.site (.name n)) rfl (if_neg hskip)
  | some a =>
    have hattribs : attribs = true := hattrib.resolve_right (by simp)
    subst hattribs
    exact declareNames_name (c.site (.name n)) rfl
      (if_pos ⟨rfl, (startsWith_sites .less (c.next (.name n)) _).trans rfl⟩)

theorem localTokens_cons_append (l m : Local) (ls : List Local) (us : List Token) :
    localTokens l (m :: ls) ++ us = l.tokens ++ .symbol .comma :: (localTokens m ls ++ us) := by
  rw [localTokens, List.append_assoc, List.cons_append]

theorem declareNames_locals (l : Local) (ls : List Local)
    (hattrib : attribs = true ∨ ∀ m ∈ l :: ls, m.attrib = none)
    (hless : us.head? ≠ some (.symbol .less)) (hcomma : us.head? ≠ some (.symbol .comma)) :
    declareNames attribs s (c.sites (localTokens l ls ++ us)) =
      (bindings (localRoles s.declared l ls),
        Env.entries (declared s.declared (l.name :: ls.map Local.name)),
        s.number (1 + ls.length), (c.after (localTokens l ls)).sites us) := by
  have hfirst : attribs = true ∨ l.attrib = none :=
    hattrib.imp id fun h => h l List.mem_cons_self
  induction ls generalizing l c s with
  | nil =>
    rw [localTokens, declareNames_local hfirst hless]
    cases us with
    | nil => rfl
    | cons t us => exact if_neg fun h => hcomma (congrArg some h)
  | cons m ls ih =>
    have hrest : attribs = true ∨ ∀ m' ∈ m :: ls, m'.attrib = none :=
      hattrib.imp id fun h m' hm' => h m' (List.mem_cons_of_mem _ hm')
    have hnumber : (s.number 1).number (1 + ls.length) = s.number (1 + (m :: ls).length) := by
      simp only [ScopeState.number, List.length_cons]
      congr 1
      omega
    rw [localTokens_cons_append, declareNames_local hfirst (by simp), Cursor.sites]
    simp only [declareMore, Cursor.site_token, if_true]
    rw [ih m hrest (hrest.imp id fun h => h m List.mem_cons_self), hnumber, localRoles,
      bindings_append, bindings_cons, localTokens, Cursor.after_append, Cursor.after_cons]
    rfl

theorem nameTokens_eq (n : Name) (ns : List Name) :
    nameTokens (n :: ns) = localTokens ⟨n, none⟩ (ns.map (⟨·, none⟩)) := by
  induction ns generalizing n with
  | nil => rfl
  | cons m ns ih =>
    rw [List.map_cons, localTokens, ← ih]
    rfl

theorem declaring_eq (k : Nat) (n : Name) (ns : List Name) :
    declaring (declared k (n :: ns)) = localRoles k ⟨n, none⟩ (ns.map (⟨·, none⟩)) := by
  induction ns generalizing n k with
  | nil => rfl
  | cons m ns ih =>
    rw [List.map_cons, localRoles, ← ih]
    rfl

theorem declareNames_names (n : Name) (ns : List Name) (hless : us.head? ≠ some (.symbol .less))
    (hcomma : us.head? ≠ some (.symbol .comma)) :
    declareNames false s (c.sites (nameTokens (n :: ns) ++ us)) =
      (bindings (declaring (declared s.declared (n :: ns))),
        Env.entries (declared s.declared (n :: ns)), s.number (1 + ns.length),
        (c.after (nameTokens (n :: ns))).sites us) := by
  rw [nameTokens_eq, declaring_eq, declareNames_locals _ _ (.inr ?_) hless hcomma]
  · rw [List.map_map, List.length_map]
    simp only [Function.comp_def, List.map_id']
  · intro m hm
    rw [← List.map_cons (f := fun n => (⟨n, none⟩ : Local)), List.mem_map] at hm
    obtain ⟨n, -, rfl⟩ := hm
    rfl

end Names

/-! ### Parameters -/

section Parameters

variable {c : Cursor} {s : ScopeState} {us : List Token}

/-- Declare names, numbered from the next free number on, in the innermost frame. -/
def ScopeState.declare (s : ScopeState) (ns : List Name) : ScopeState :=
  (s.number ns.length).activate (Env.entries (Lua.declared s.declared ns))

theorem ScopeState.declare_nil (s : ScopeState) : s.declare [] = s := by
  obtain ⟨frames, k, brackets, loops, waiting, targets, assigned⟩ := s
  cases frames <;> simp [declare, number, activate, Lua.declared, Env.entries]

theorem ScopeState.declare_cons (s : ScopeState) (n : Name) (ns : List Name) :
    ((s.number 1).activate [(n, ⟨s.declared, false⟩)]).declare ns = s.declare (n :: ns) := by
  obtain ⟨frames, k, brackets, loops, waiting, targets, assigned⟩ := s
  have hcount : k + 1 + ns.length = k + (ns.length + 1) := by omega
  cases frames <;>
    simp [declare, number, activate, Lua.declared, Env.entries, Variable.decl, hcount]

theorem parameters_name {n : Name} {ts : List Token} {bs : List Binding} {s' : ScopeState}
    (h : parameters ((s.number 1).activate [(n, ⟨s.declared, false⟩)])
      ((c.next (.name n)).sites ts) =
      .ok (bs, s')) :
    parameters s (c.sites (.name n :: ts)) = .ok (.declared ⟨s.declared, false⟩ :: bs, s') := by
  have hnext : parameters ((s.fresh false).2.activate [(n, (s.fresh false).1)])
      ((c.next (.name n)).sites ts) = .ok (bs, s') := h
  rw [Cursor.sites, parameters]
  simp only [Cursor.site_token, hnext]
  rfl

theorem parameters_unbound {m : Symbol} {ts : List Token} {bs : List Binding} {s' : ScopeState}
    (hm : m ≠ .parenClose) (h : parameters s ((c.next (.symbol m)).sites ts) = .ok (bs, s')) :
    parameters s (c.sites (.symbol m :: ts)) = .ok (.unbound :: bs, s') := by
  rw [Cursor.sites, parameters]
  simp only [Cursor.site_token, h]
  cases m <;> first | rfl | exact absurd rfl hm

/-- The names of a parameter list are declared one after the other. -/
theorem parameters_names (ns : List Name) (variadic : Bool) :
    parameters s (c.sites ((ns.map Token.name ++
        if variadic then [Token.symbol .ellipsis] else []).intersperse (.symbol .comma) ++
          .symbol .parenClose :: us)) =
      .ok (bindings (((declared s.declared ns).map Role.declares ++
          if variadic then [Role.other] else []).intersperse .other ++ [.other]), s.declare ns) := by
  induction ns generalizing c s with
  | nil =>
    rw [ScopeState.declare_nil]
    cases variadic with
    | false => rfl
    | true => exact parameters_unbound (m := .ellipsis) (by decide) rfl
  | cons n ns ih =>
    rw [← ScopeState.declare_cons]
    cases ns with
    | nil =>
      cases variadic with
      | false =>
        rw [ScopeState.declare_nil]
        exact parameters_name rfl
      | true => exact parameters_name (parameters_unbound (m := .comma) (by decide) ih)
    | cons m ns => exact parameters_name (parameters_unbound (m := .comma) (by decide) ih)

/-- The frame of a function, with the receiver in it. -/
def ScopeState.receive (s : ScopeState) (vs : List Variable) : ScopeState :=
  (s.enter.number vs.length).activate (Env.entries vs)

theorem functionParams_open {method : Bool} {vs : List Variable} {ts : List Token}
    {bs : List Binding} {s' : ScopeState}
    (hvs : vs = if method then [⟨s.declared, ['s', 'e', 'l', 'f'], true⟩] else [])
    (h : parameters (s.receive vs) ((c.next (.symbol .parenOpen)).sites ts) = .ok (bs, s')) :
    functionParams method s (c.sites (.symbol .parenOpen :: ts)) = .ok (.unbound :: bs, s') := by
  have hstart : s.receive vs = if method then
      (s.enter.fresh true).2.activate [(['s', 'e', 'l', 'f'], (s.enter.fresh true).1)]
      else s.enter := by
    cases method <;> rw [hvs] <;> rfl
  rw [hstart] at h
  rw [Cursor.sites, functionParams]
  simp only [Cursor.site_token, if_true, h]

theorem functionParams_list {method : Bool} {vs : List Variable}
    (hvs : vs = if method then [⟨s.declared, ['s', 'e', 'l', 'f'], true⟩] else []) (ps : Params)
    (us : List Token) :
    functionParams method s (c.sites (ps.tokens ++ us)) =
      .ok (bindings (ps.roles (s.declared + vs.length)), (s.receive vs).declare ps.names) := by
  rw [Params.tokens, List.append_assoc]
  exact functionParams_open hvs (parameters_names ps.names ps.variadic)

/-! ### The names of functions -/

theorem namePath_open {method : Bool} {ts : List Token}
    (hts : ts.head? = some (.symbol .parenOpen)) :
    namePath method (c.sites ts) = (0, method, c.sites ts) := by
  obtain ⟨ts, rfl⟩ := List.head?_eq_some_iff.mp hts
  cases ts with
  | nil => rfl
  | cons t ts => exact if_neg (by simp)

theorem namePath_select {method : Bool} {m : Symbol} {n : Name} {ts : List Token}
    (hm : m = .dot ∨ m = .colon) :
    namePath method (c.sites (.symbol m :: .name n :: ts)) =
      let (count, method, after) := namePath (m == .colon)
        (((c.next (.symbol m)).next (.name n)).sites ts)
      (count + 2, method, after) := by
  rcases hm with rfl | rfl <;> rfl

theorem namePath_fields (fields : List Name) (method : Option Name) {ts : List Token}
    (hts : ts.head? = some (.symbol .parenOpen)) :
    namePath false (c.sites (fields.flatMap (fun n => [Token.symbol .dot, .name n]) ++
        method.toList.flatMap (fun n => [Token.symbol .colon, .name n]) ++ ts)) =
      (2 * fields.length + 2 * method.toList.length, method.isSome,
        (c.after (fields.flatMap (fun n => [Token.symbol .dot, .name n]) ++
          method.toList.flatMap fun n => [Token.symbol .colon, .name n])).sites ts) := by
  induction fields generalizing c with
  | nil =>
    cases method with
    | none => exact namePath_open hts
    | some n =>
      refine (namePath_select (.inr rfl)).trans ?_
      exact congrArg (fun path => (path.1 + 2, path.2)) (namePath_open hts)
  | cons n fields ih =>
    refine (namePath_select (.inl rfl)).trans ?_
    refine (congrArg (fun path => (path.1 + 2, path.2)) ih).trans ?_
    have hcount : 2 * fields.length + 2 * method.toList.length + 2 =
        2 * (n :: fields).length + 2 * method.toList.length := by
      rw [List.length_cons]
      omega
    exact Prod.ext hcount rfl

/-- A function's name is bound as `b`, and the parts behind dots and the colon are passed. -/
theorem functionHeader_name {known : Option Binding} (site : Site)
    {rest after : List Site} {n : Name}
    {passed : Nat} {method : Bool} {b : Binding} {bs : List Binding} {s₁ s' : ScopeState}
    (hn : site.token = .name n)
    (hb : known = some b ∧ s₁ = s ∨
      known = none ∧ s.reference n (!(startsWith .dot rest || startsWith .colon rest)) = (b, s₁))
    (hpath : namePath false rest = (passed, method, after))
    (hparams : functionParams method s₁ after = .ok (bs, s')) :
    functionHeader known s (site :: rest) = .ok (b :: List.replicate passed .unbound ++ bs, s') := by
  rcases hb with ⟨rfl, rfl⟩ | ⟨rfl, hb⟩
  · simp only [functionHeader, hn, hpath, hparams]
  · simp only [functionHeader, hn, hb, hpath, hparams]

theorem bindings_path (f : FunctionName) (Γ : Env) :
    bindings (f.roles Γ) = (Γ.use f.base).binding ::
      List.replicate (2 * f.fields.length + 2 * f.method.toList.length) .unbound := by
  obtain ⟨base, fields, method⟩ := f
  have hmethod : bindings (method.toList.flatMap fun _ => [Role.other, .other]) =
      List.replicate (2 * method.toList.length) .unbound := by
    cases method <;> rfl
  have hfields : bindings (fields.flatMap fun _ => [Role.other, .other]) =
      List.replicate (2 * fields.length) .unbound := by
    induction fields with
    | nil => rfl
    | cons n fields ih =>
      rw [List.flatMap_cons, bindings_append, ih, List.length_cons, Nat.mul_add, Nat.add_comm,
        List.replicate_add]
      rfl
  rw [FunctionName.roles, bindings_append, bindings_cons, hfields, hmethod, List.cons_append,
    List.replicate_append_replicate]

theorem functionHeader_named {Γ : Env} (hscope : s.frames.flatten = Γ.entries) (f : FunctionName)
    (ps : Params) (us : List Token) :
    ∃ s', functionHeader none s (c.sites (f.tokens ++ (ps.tokens ++ us))) =
        .ok (bindings (f.roles Γ ++ ps.roles (s.declared + (f.receiver s.declared).length)), s') ∧
      s'.core = ((s.receive (f.receiver s.declared)).declare ps.names).core := by
  have hopen : (ps.tokens ++ us).head? = some (.symbol .parenOpen) := rfl
  have hpath := namePath_fields (c := c.next (.name f.base)) f.fields f.method hopen
  let rest := (c.next (.name f.base)).sites (f.tokens.tail ++ (ps.tokens ++ us))
  obtain ⟨s₁, huse, hcore⟩ := reference_use hscope f.base
    (!(startsWith .dot rest || startsWith .colon rest))
  have hdeclared : s₁.declared = s.declared := (ScopeState.core_eq_iff.mp hcore).2.1
  have hvs : f.receiver s.declared =
      if f.method.isSome then [⟨s₁.declared, ['s', 'e', 'l', 'f'], true⟩] else [] := by
    rw [hdeclared, FunctionName.receiver]
    cases f.method <;> rfl
  have hparams := functionParams_list (c := c.after f.tokens) hvs ps us
  rw [hdeclared] at hparams
  refine ⟨(s₁.receive (f.receiver s.declared)).declare ps.names, ?_, ?_⟩
  · rw [bindings_append, bindings_path]
    exact functionHeader_name (c.site (.name f.base)) rfl (.inr ⟨rfl, huse⟩) hpath hparams
  · show (s₁.core.receive _).declare ps.names = (s.core.receive _).declare ps.names
    rw [hcore]

theorem localFunction_named (n : Name) (ps : Params) (us : List Token) :
    localFunction s (c.sites (.name n :: (ps.tokens ++ us))) =
      .ok (bindings (declaring (declared s.declared [n]) ++ ps.roles (s.declared + 1)),
        ((s.declare [n]).receive []).declare ps.names) := by
  have hvs : ([] : List Variable) =
      if false then [⟨(s.declare [n]).declared, ['s', 'e', 'l', 'f'], true⟩] else [] := rfl
  have hparams := functionParams_list (c := c.next (.name n)) hvs ps us
  have hpath : namePath false ((c.next (.name n)).sites (ps.tokens ++ us)) =
      (0, false, (c.next (.name n)).sites (ps.tokens ++ us)) := namePath_open rfl
  show functionHeader (some (.declared ⟨s.declared, false⟩)) (s.declare [n])
    (c.site (.name n) :: (c.next (.name n)).sites (ps.tokens ++ us)) = _
  exact functionHeader_name (c.site (.name n)) rfl (.inl ⟨rfl, rfl⟩) hpath hparams

end Parameters

end LuaBundle.Lua
