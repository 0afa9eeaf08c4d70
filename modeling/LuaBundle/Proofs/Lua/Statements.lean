import LuaBundle.Proofs.Lua.Scoping

/-!
# Statements

The walk over a statement declares what the statement declares, binds its names as the scope says,
and comes to the scope after it; the walk over a block does so statement by statement.
-/
namespace LuaBundle.Lua

/-- An expression, or several, without a function in it. -/
structure Readable {kind : Kind} (e : Tree kind) : Prop where
  phrase : Phrase e.tokens
  reads : ReadsTokens e
  decls : e.decls = 0

/-- The walk passes a statement or a block. -/
def Walks {kind : Kind} (t : Tree kind) : Prop :=
  ∀ d us c s F k Γ, c.Level d 0 → Scoped F k Γ s → Follow us →
    Reaches us c s t.tokens (t.roles Γ k) d F (k + t.decls) (t.extend Γ k)

/-- The walk passes the rest of an `if`, from the end of its first block. -/
def WalksTail (t : Tree .tail) : Prop :=
  ∀ d us c s F G k Γ Γ', c.Level (d + 1) 0 → Scoped G k Γ' s → Held F Γ G →
    Reaches us c s t.tokens (t.roles Γ k) d F (k + t.decls) Γ

theorem Tree.head_tail (f : Tree .tail) : ∃ t ts, f.tokens = t :: ts ∧ t.closesBlock = true := by
  cases f with
  | endIf => exact ⟨_, _, rfl, rfl⟩
  | elseEnd b => exact ⟨_, _, rfl, rfl⟩
  | elseIf e b f => exact ⟨_, _, rfl, rfl⟩

/-- A statement with two keywords, as it is written and from its first keyword on. -/
theorem regroup {α : Type} (x y : α) (xs ys zs : List α) :
    x :: xs ++ y :: ys ++ zs = x :: (xs ++ y :: (ys ++ zs)) := by
  rw [List.append_assoc, List.cons_append, List.cons_append]

section

variable {us ts vs : List Token} {c : Cursor} {s s' : ScopeState} {rs rs' : List Role} {d n : Nat}
  {F G : List Frame} {k : Nat} {Γ Γ' : Env} {t : Token} {rest : List Site}

/-! ### Steps -/

theorem step_opened (ht : t.opensBlock = true) :
    step s (c.site t) rest = .ok ([.unbound], s.enter) := by
  cases t with
  | keyword w => cases w <;> first | rfl | cases ht
  | symbol _ | name _ | number _ | string _ | comment _ => cases ht

theorem step_do (hloops : s.loops = []) :
    step s (c.site (.keyword .doKw)) rest = .ok ([.unbound], s.enter) := by
  have henter : s.enter.loops = [] := hloops
  simp only [step, stepKeyword, Cursor.site_token, henter]
  cases (c.site (.keyword .doKw)).mark.start <;> rfl

theorem step_loop {names : Frame} {loops : List Frame} (hloops : s.loops = names :: loops)
    (hstart : c.nesting.starts c.before (.keyword .doKw) = false) :
    step s (c.site (.keyword .doKw)) rest =
      .ok ([.unbound], { s.enter with loops := loops }.activate names) := by
  have henter : s.enter.loops = names :: loops := hloops
  have hmark : (c.site (.keyword .doKw)).mark.start = false := hstart
  simp only [step, stepKeyword, Cursor.site_token, henter, hmark]
  rfl

theorem step_localFunction :
    step s (c.site (.keyword .localKw)) ((c.next (.keyword .localKw)).sites
        (.keyword .functionKw :: ts)) =
      after .unbound (after .unbound (localFunction s
        (((c.next (.keyword .localKw)).next (.keyword .functionKw)).sites ts))) := by
  simp only [step, stepKeyword, Cursor.site_token, Cursor.sites, if_true]

/-! ### Places between statements -/

theorem Scoped.reads (h : Scoped F k Γ s) (hl : c.Level d n) : Reads Γ us c s ts where
  scope := h.held.scope
  idle := fun w hw => absurd rfl (h.idle w hw)
  before := hl.before
  fit := hl.fit
  key := by
    rw [h.brackets]
    nofun

/-- Reading an expression keeps the place between statements. -/
theorem Readable.reaches {kind : Kind} {e : Tree kind} (he : Readable e) (hl : c.Level d 0)
    (hs : Scoped F k Γ s) (number : Nat) : Reaches us c s e.tokens (e.roles Γ number) d F k Γ :=
  .of_read (he.reads Γ number us c s (hs.reads hl)) (hl.phrase he.phrase) hs

namespace Reaches

theorem inert (ht : t.isInert = true) (hs : Scoped F k Γ s)
    (h : Reaches us (c.next t) s ts rs d G n Γ') :
    Reaches us c s (t :: ts) (.other :: rs) d G n Γ' :=
  .cons (.inert ht hs.idle) h

/-- A statement of one token. -/
theorem single (ht : t.isInert = true) (hsel : t.selects = false) (hl : c.Level d 0)
    (hs : Scoped F k Γ s) : Reaches us c s [t] [.other] d F k Γ :=
  .inert ht hs (.nil (hl.flat (Token.isFlat_of_isInert ht) hsel) hs)

/-- A block up to the `end` that closes it. -/
theorem body {b : Tree .block} (hb : Walks b) (hl : c.Level (d + 1) 0) (hs : Scoped G k Γ' s)
    (hG : Held F Γ G) :
    Reaches us c s (b.tokens ++ [.keyword .endKw]) (b.roles Γ' k ++ [.other]) d F (k + b.decls) Γ := by
  refine .append (hb _ _ c s G k Γ' hl hs (.cons rfl)) (by simp) fun s' hl' hs' => ?_
  exact .of_scoped (.of_idle_step hs'.idle rfl rfl) (hl'.left rfl) (hs'.leave hG)

/-- A condition and the blocks that depend on it. -/
theorem branch {e : Tree .expr} {b : Tree .block} {f : Tree .tail} (he : Readable e) (hb : Walks b)
    (hf : WalksTail f) (hl : c.Level d 0) (hs : Scoped F k Γ s) :
    Reaches us c s (e.tokens ++ .keyword .thenKw :: (b.tokens ++ f.tokens))
      (e.roles Γ k ++ .other :: (b.roles Γ (k + e.decls) ++ f.roles Γ (k + e.decls + b.decls))) d F
      (k + (e.decls + b.decls + f.decls)) Γ := by
  rw [he.decls, Nat.add_zero, Nat.zero_add, ← Nat.add_assoc]
  refine .append (he.reaches hl hs k) (by simp) fun s₁ hl₁ hs₁ => ?_
  refine .cons (.of_idle_step hs₁.idle (step_opened rfl) rfl) ?_
  have hheld := hs₁.held
  obtain ⟨t, ts, htail, ht⟩ := f.head_tail
  have hfollow : Follow (f.tokens ++ us) := by
    rw [htail]
    exact .cons (by rw [Token.mayFollow, ht, Bool.true_or])
  refine .append (hb _ _ _ _ s₁.frames k Γ (hl₁.opened rfl) hs₁.enter hfollow) ?_
    fun s₂ hl₂ hs₂ => hf _ _ _ _ _ _ _ _ _ hl₂ hs₂ hheld
  rw [htail]
  exact List.cons_ne_nil _ _

/-- From behind the header of a loop to its end. -/
theorem loop {kind : Kind} {e : Tree kind} {b : Tree .block} {vs : List Variable} (he : Readable e)
    (hb : Walks b) (hl : c.Level d 1) (ho : c.nesting.openedBlock = false)
    (hs : Scoped F k Γ { s with loops := [] }) (hloops : s.loops = [Env.entries vs])
    (number : Nat) :
    Reaches us c s (e.tokens ++ .keyword .doKw :: (b.tokens ++ [.keyword .endKw]))
      (e.roles Γ number ++ .other :: (b.roles (Γ.declare vs) k ++ [.other])) d F (k + b.decls) Γ := by
  have hreads : Reads Γ (.keyword .doKw :: (b.tokens ++ [.keyword .endKw]) ++ us) c s e.tokens := by
    have hplain : Reads Γ us c { s with loops := [] } e.tokens := hs.reads hl
    obtain ⟨⟨hscope, hidle, hbefore, hfit⟩, -⟩ := hplain
    refine ⟨⟨hscope, hidle, hbefore, hfit⟩, fun hbrace => ?_⟩
    rw [show s.brackets = [] from hs.brackets] at hbrace
    cases hbrace
  refine .read_prepend (he.reads Γ number _ c s hreads) fun s₁ hcore => ?_
  have hs₁ : Scoped F k Γ { s₁ with loops := [] } :=
    hs.of_core (congrArg (fun s : ScopeState => { s with loops := [] }) hcore)
  have hl₁ := hl.phrase he.phrase
  obtain ⟨q, hq, hends⟩ := he.phrase.before_after c
  have hstart := hl₁.starts_do (Cursor.openedBlock_after he.phrase.balanced hl.fit.params ho) hq hends
  have hloops₁ : s₁.loops = [Env.entries vs] := by
    rw [(ScopeState.core_eq_iff.mp hcore).2.2.2.1, hloops]
  have hin : Scoped s₁.frames k (Γ.declare vs)
      ({ s₁.enter with loops := [] }.activate (Env.entries vs)) :=
    hs₁.enter.activate vs
  refine .cons (.of_idle_step hs₁.idle (step_loop hloops₁ hstart) rfl) ?_
  exact .body hb (hl₁.closed_header hstart) hin hs₁.held

end Reaches

end

namespace Walks

variable {kind : Kind} {es : Tree .exprs} {b : Tree .block}

theorem semicolon : Walks .semicolon := fun _ _ _ _ _ _ _ hl hs _ => .single rfl rfl hl hs

theorem breakLoop : Walks .breakLoop := fun _ _ _ _ _ _ _ hl hs _ => .single rfl rfl hl hs

theorem gotoLabel (n : Name) : Walks (.gotoLabel n) := fun _ _ _ _ _ _ _ hl hs _ =>
  .of_scoped (.of_idle_step hs.idle rfl rfl) ((hl.flat rfl rfl).flat rfl rfl) hs

theorem label (n : Name) : Walks (.label n) := fun _ _ _ _ _ _ _ hl hs _ =>
  .of_scoped (.of_idle_step hs.idle rfl rfl) (((hl.flat rfl rfl).flat rfl rfl).flat rfl rfl) hs

theorem callOnly {call : Tree .call} (hcall : Readable call) : Walks (.callOnly call) := by
  intro d us c s F k Γ hl hs _
  show Reaches us c s call.tokens (call.roles Γ k) d F (k + call.decls) Γ
  rw [hcall.decls]
  exact hcall.reaches hl hs k

theorem assign {vs : Tree .vars} (hvs : Readable vs) (hes : Readable es) : Walks (.assign vs es) := by
  intro d us c s F k Γ hl hs _
  show Reaches us c s (vs.tokens ++ .symbol .assign :: es.tokens)
    (vs.roles Γ k ++ .other :: es.roles Γ (k + vs.decls)) d F (k + (vs.decls + es.decls)) Γ
  rw [hvs.decls, hes.decls]
  refine .append (hvs.reaches hl hs k) (by simp) fun s' hl' hs' => ?_
  exact .inert rfl hs' (hes.reaches (hl'.flat rfl rfl) hs' k)

theorem doEnd (hb : Walks b) : Walks (.doEnd b) := by
  intro d us c s F k Γ hl hs _
  refine .cons (.of_idle_step hs.idle (step_do hs.loops) rfl) ?_
  exact .body hb hl.opened_do hs.enter hs.held

theorem ifThen {e : Tree .expr} {f : Tree .tail} (he : Readable e) (hb : Walks b)
    (hf : WalksTail f) : Walks (.ifThen e b f) := by
  intro d us c s F k Γ hl hs _
  have htokens : (Tree.ifThen e b f).tokens = .keyword .ifKw ::
      (e.tokens ++ .keyword .thenKw :: (b.tokens ++ f.tokens)) := regroup ..
  have hroles : (Tree.ifThen e b f).roles Γ k = .other :: (e.roles Γ k ++
      .other :: (b.roles Γ (k + e.decls) ++ f.roles Γ (k + e.decls + b.decls))) := regroup ..
  rw [htokens, hroles]
  exact .inert rfl hs (.branch he hb hf (hl.flat rfl rfl) hs)

theorem ret (closed : Bool) : Walks (.ret closed) := by
  intro d us c s F k Γ hl hs _
  refine .inert rfl hs ?_
  have hl' := hl.flat (t := .keyword .returnKw) rfl rfl
  cases closed with
  | false => exact .nil hl' hs
  | true => exact .single rfl rfl hl' hs

theorem retValues (hes : Readable es) (closed : Bool) : Walks (.retValues es closed) := by
  intro d us c s F k Γ hl hs _
  have hl' := hl.flat (t := .keyword .returnKw) rfl rfl
  show Reaches us c s (.keyword .returnKw :: (es.tokens ++ if closed then [.symbol .semicolon] else []))
    (.other :: (es.roles Γ k ++ if closed then [.other] else [])) d F (k + es.decls) Γ
  rw [hes.decls]
  refine .inert rfl hs ?_
  cases closed with
  | false =>
    simp only [Bool.false_eq_true, if_false, List.append_nil]
    exact hes.reaches hl' hs k
  | true =>
    exact .append (hes.reaches hl' hs k) (by simp) fun s₁ hl₁ hs₁ => .single rfl rfl hl₁ hs₁

end Walks

/-! ### Loops -/

section

variable {us : List Token} {c : Cursor} {s : ScopeState} {d k : Nat} {F : List Frame} {Γ : Env}

theorem Runs.for_names {t : Token} (n : Name) (ns : List Name) (hidle : s.Idle c.index)
    (hless : t ≠ .symbol .less) (hcomma : t ≠ .symbol .comma) :
    Runs (t :: us) c s (.keyword .forKw :: nameTokens (n :: ns))
      (bindings (.other :: declaring (declared s.declared (n :: ns))))
      { s.number (1 + ns.length) with
        loops := Env.entries (declared s.declared (n :: ns)) :: s.loops } := by
  have hnames : declareNames false s ((c.next (.keyword .forKw)).sites
      (nameTokens (n :: ns) ++ t :: us)) = _ :=
    declareNames_names n ns (by simpa using hless) (by simpa using hcomma)
  refine .of_idle_step hidle ?_ ?_
  · simp only [step, stepKeyword, Cursor.site_token]
    rw [hnames]
    rfl
  · rw [bindings, List.length_map, List.length_cons, declaring_length]

theorem Reaches.for_loop {kind : Kind} {e : Tree kind} {b : Tree .block} {t : Token} (n : Name)
    (ns : List Name) (he : Readable e) (hb : Walks b) (ht : t.isInert = true)
    (hsel : t.selects = false)
    (hless : t ≠ .symbol .less) (hcomma : t ≠ .symbol .comma) (hl : c.Level d 0)
    (hs : Scoped F k Γ s) (number : Nat) :
    Reaches us c s
      (.keyword .forKw :: nameTokens (n :: ns) ++
        t :: (e.tokens ++ .keyword .doKw :: (b.tokens ++ [.keyword .endKw])))
      (.other :: declaring (declared k (n :: ns)) ++ .other :: (e.roles Γ number ++
        .other :: (b.roles (Γ.declare (declared k (n :: ns))) (k + (1 + ns.length)) ++ [.other])))
      d F (k + (1 + ns.length) + b.decls) Γ := by
  have hnames := hs.number (1 + ns.length)
  refine .prepend (by rw [← hs.declared]; exact .for_names n ns hs.idle hless hcomma) ?_
  have hidle : ∀ index, ScopeState.Idle { s.number (1 + ns.length) with
      loops := Env.entries (declared s.declared (n :: ns)) :: s.loops } index :=
    fun index => hnames.idle
  refine .cons (.inert ht (hidle _)) ?_
  have hl' := (hl.opened_header (t := .keyword .forKw) rfl).flats (nameTokens_flat (n :: ns))
    (Token.isFlat_of_isInert ht) hsel
  refine .loop he hb hl' ?_ ?_ ?_ number
  · rw [Cursor.next_flat (Token.isFlat_of_isInert ht)]
    rfl
  · exact ⟨hnames.held, hnames.declared, hnames.brackets, rfl, hnames.waiting⟩
  · show Env.entries (declared s.declared (n :: ns)) :: s.loops = _
    rw [hs.loops, hs.declared]

end

namespace Walks

variable {b : Tree .block}

theorem whileDo {e : Tree .expr} (he : Readable e) (hb : Walks b) : Walks (.whileDo e b) := by
  intro d us c s F k Γ hl hs _
  have htokens : (Tree.whileDo e b).tokens = .keyword .whileKw ::
      (e.tokens ++ .keyword .doKw :: (b.tokens ++ [.keyword .endKw])) := regroup ..
  have hroles : (Tree.whileDo e b).roles Γ k = .other :: (e.roles Γ k ++
      .other :: (b.roles Γ (k + e.decls) ++ [.other])) := regroup ..
  show Reaches us c s _ _ d F (k + (e.decls + b.decls)) Γ
  rw [htokens, hroles, he.decls, Nat.zero_add]
  refine .cons (.of_idle_step hs.idle rfl rfl) ?_
  let header : ScopeState := { s with loops := [] :: s.loops }
  have hloop : Scoped F k Γ { header with loops := [] } :=
    ⟨hs.held, hs.declared, hs.brackets, rfl, hs.waiting⟩
  have hloops : header.loops = [Env.entries []] := by
    show [] :: s.loops = _
    rw [hs.loops]
    rfl
  exact .loop he hb (hl.opened_header (t := .keyword .whileKw) rfl) rfl hloop hloops k

theorem forRange {r : Tree .range} (n : Name) (hr : Readable r) (hb : Walks b) :
    Walks (.forRange n r b) := by
  intro d us c s F k Γ hl hs _
  have htokens : (Tree.forRange n r b).tokens = .keyword .forKw :: nameTokens [n] ++
      .symbol .assign :: (r.tokens ++ .keyword .doKw :: (b.tokens ++ [.keyword .endKw])) :=
    regroup ..
  have hroles : (Tree.forRange n r b).roles Γ k = .other :: declaring (declared k [n]) ++
      .other :: (r.roles Γ (k + 1) ++
        .other :: (b.roles (Γ.declare (declared k [n])) (k + 1 + r.decls) ++ [.other])) := by
    show .other :: (declaring _ ++ _ ++ _ ++ _) = _
    simp
  have hcount : k + (1 + r.decls + b.decls) = k + (1 + 0) + b.decls := by
    rw [hr.decls]
    omega
  show Reaches us c s _ _ d F (k + (1 + r.decls + b.decls)) Γ
  rw [htokens, hroles, hcount, hr.decls]
  exact .for_loop (t := .symbol .assign) n [] hr hb rfl rfl (by decide) (by decide) hl hs _

theorem forIn {es : Tree .exprs} (n : Name) (ns : List Name) (hes : Readable es) (hb : Walks b) :
    Walks (.forIn n ns es b) := by
  intro d us c s F k Γ hl hs _
  have htokens : (Tree.forIn n ns es b).tokens = .keyword .forKw :: nameTokens (n :: ns) ++
      .keyword .inKw :: (es.tokens ++ .keyword .doKw :: (b.tokens ++ [.keyword .endKw])) := by
    show .keyword .forKw :: (nameTokens (n :: ns) ++ _ ++ _ ++ _) = _
    simp
  have hroles : (Tree.forIn n ns es b).roles Γ k = .other :: declaring (declared k (n :: ns)) ++
      .other :: (es.roles Γ (k + (1 + ns.length)) ++
        .other :: (b.roles (Γ.declare (declared k (n :: ns))) (k + (1 + ns.length) + es.decls) ++
          [.other])) := by
    show .other :: (declaring _ ++ _ ++ _ ++ _) = _
    simp
  have hcount : k + (1 + ns.length + es.decls + b.decls) = k + (1 + ns.length) + b.decls := by
    rw [hes.decls]
    omega
  show Reaches us c s _ _ d F (k + (1 + ns.length + es.decls + b.decls)) Γ
  rw [htokens, hroles, hcount, hes.decls]
  exact .for_loop (t := .keyword .inKw) n ns hes hb rfl rfl (by decide) (by decide) hl hs _

end Walks

/-! ### Functions -/

section

variable {us : List Token} {c : Cursor} {s : ScopeState} {d k : Nat} {F : List Frame} {Γ : Env}

theorem Cursor.Level.parameters (hl : c.Level d 0) (ts : List Token)
    (hts : ∀ t ∈ ts, t.isFlat = true) (ps : Params) :
    (c.after (.keyword .functionKw :: ts ++ ps.tokens)).Level (d + 1) 0 := by
  rw [Params.tokens, ← List.append_assoc]
  refine hl.function hts (forall_mem_intersperse rfl fun t ht => ?_)
  rcases List.mem_append.mp ht with ht | ht
  · obtain ⟨n, -, rfl⟩ := List.mem_map.mp ht
    rfl
  · split at ht
    · rw [List.mem_singleton.mp ht]
      rfl
    · cases ht

theorem FunctionName.tokens_flat (f : FunctionName) : ∀ t ∈ f.tokens, t.isFlat = true := by
  intro t ht
  simp only [tokens, List.cons_append, List.mem_cons, List.mem_append, List.mem_flatMap,
    List.not_mem_nil, or_false] at ht
  rcases ht with rfl | ⟨n, -, rfl | rfl⟩ | ⟨n, -, rfl | rfl⟩ <;> rfl

end

namespace Walks

variable {b : Tree .block}

theorem localFunction (n : Name) (ps : Params) (hb : Walks b) : Walks (.localFunction n ps b) := by
  intro d us c s F k Γ hl hs _
  have htokens : (Tree.localFunction n ps b).tokens =
      (.keyword .localKw :: .keyword .functionKw :: .name n :: ps.tokens) ++
        (b.tokens ++ [.keyword .endKw]) := by
    show (_ :: _ :: _ :: ps.tokens ++ b.tokens) ++ _ = _
    simp
  have hroles : (Tree.localFunction n ps b).roles Γ k =
      (.other :: .other :: (declaring (declared k [n]) ++ ps.roles (k + 1))) ++
        (b.roles ((Γ.declare (declared k [n])).declare (declared (k + 1) ps.names))
          (k + 1 + ps.names.length) ++ [.other]) := by
    show (_ :: _ :: (declaring (declared k [n]) ++ ps.roles (k + 1))) ++ b.roles _ _ ++ _ = _
    simp
  have hcount : k + (1 + ps.names.length + b.decls) = k + 1 + ps.names.length + b.decls := by omega
  have hstep := localFunction_named (c := (c.next (.keyword .localKw)).next (.keyword .functionKw))
    (s := s) n ps (b.tokens ++ [.keyword .endKw] ++ us)
  rw [hs.declared] at hstep
  have hdeclared := hs.declare [n]
  have hbody := (hdeclared.receive []).declare ps.names
  show Reaches us c s _ _ d F (k + (1 + ps.names.length + b.decls)) (Γ.declare (declared k [n]))
  rw [htokens, hroles, hcount]
  refine .prepend (.of_idle_step hs.idle ?_ ?_) (.body hb ?_ hbody hdeclared.held)
  · exact step_localFunction.trans
      (congrArg (fun passed => after .unbound (after .unbound passed)) hstep)
  · simp [bindings, declaring_length, ps.roles_length, nameTokens, Nat.add_comm]
  · exact (hl.flat (t := .keyword .localKw) rfl rfl).parameters [.name n]
      (by simp [Token.isFlat]) ps

theorem functionNamed (f : FunctionName) (ps : Params) (hb : Walks b) :
    Walks (.functionNamed f ps b) := by
  intro d us c s F k Γ hl hs _
  have hreceiver : (f.receiver k).length = f.method.toList.length := List.length_map _
  have htokens : (Tree.functionNamed f ps b).tokens =
      (.keyword .functionKw :: (f.tokens ++ ps.tokens)) ++ (b.tokens ++ [.keyword .endKw]) := by
    show (_ :: f.tokens ++ ps.tokens ++ b.tokens) ++ _ = _
    simp
  have hroles : (Tree.functionNamed f ps b).roles Γ k =
      (.other :: (f.roles Γ ++ ps.roles (k + (f.receiver k).length))) ++
        (b.roles ((Γ.declare (f.receiver k)).declare
          (declared (k + (f.receiver k).length) ps.names))
          (k + (f.receiver k).length + ps.names.length) ++ [.other]) := by
    rw [hreceiver]
    show (_ :: f.roles Γ ++ ps.roles _) ++ b.roles _ _ ++ _ = _
    simp
  have hcount : k + (f.method.toList.length + ps.names.length + b.decls) =
      k + (f.receiver k).length + ps.names.length + b.decls := by omega
  obtain ⟨s', hstep, hcore⟩ := functionHeader_named (c := c.next (.keyword .functionKw))
    hs.held.scope f ps (b.tokens ++ [.keyword .endKw] ++ us)
  rw [hs.declared] at hstep hcore
  have hbody := ((hs.receive (f.receiver k)).declare ps.names).of_core hcore
  show Reaches us c s _ _ d F (k + (f.method.toList.length + ps.names.length + b.decls)) Γ
  rw [htokens, hroles, hcount]
  refine .prepend (.of_idle_step hs.idle ?_ ?_) (.body hb ?_ hbody hs.held)
  · rw [List.append_assoc]
    exact congrArg (after .unbound) hstep
  · simp [bindings, f.roles_length, ps.roles_length]
  · exact hl.parameters _ f.tokens_flat ps

end Walks

/-! ### Locals -/

section

variable {us : List Token} {c : Cursor} {s : ScopeState} {d k depth : Nat} {F : List Frame} {Γ : Env}

theorem Joined.local_tokens {p : Token} (l : Local) (hp : p.endsExpression = false)
    (hs : p ≠ .symbol .semicolon) :
    ∃ q, q ≠ .symbol .semicolon ∧ q.selects = false ∧ Joined p l.tokens q := by
  obtain ⟨n, attrib⟩ := l
  have hname : p.joins (.name n) = true := Token.joins_of_operand hp hs rfl
  cases attrib with
  | none => exact ⟨.name n, nofun, rfl, .flat hname rfl .nil⟩
  | some a =>
    refine ⟨.symbol .greater, by decide, rfl, .flat hname rfl (.flat rfl rfl (.flat ?_ rfl ?_))⟩
    · exact Token.joins_of_operand rfl (by decide) rfl
    · exact .flat rfl rfl .nil

/-- The names of a `local` statement go on with it. -/
theorem Joined.locals {p : Token} (l : Local) (ls : List Local) (hp : p.endsExpression = false)
    (hs : p ≠ .symbol .semicolon) :
    ∃ q, q ≠ .symbol .semicolon ∧ q.selects = false ∧ Joined p (localTokens l ls) q := by
  induction ls generalizing l p with
  | nil => exact Joined.local_tokens l hp hs
  | cons m ls ih =>
    obtain ⟨q, hq, -, hfirst⟩ := Joined.local_tokens l hp hs
    obtain ⟨r, hr, hsel, hrest⟩ := ih m (p := .symbol .comma) rfl (by decide)
    exact ⟨r, hr, hsel, hfirst.append (.flat (Token.joins_of_continues hq rfl) rfl hrest)⟩

theorem step_local (l : Local) (ls : List Local) :
    step s (c.site (.keyword .localKw)) ((c.next (.keyword .localKw)).sites
        (localTokens l ls ++ us)) =
      after .unbound (localStatement s (c.site (.keyword .localKw))
        ((c.next (.keyword .localKw)).sites (localTokens l ls ++ us))) := by
  have hname : ∃ ts, localTokens l ls = .name l.name :: ts := by
    cases ls <;> exact ⟨_, rfl⟩
  obtain ⟨ts, hts⟩ := hname
  have hne : Token.name l.name ≠ .keyword .functionKw := nofun
  rw [hts]
  simp only [step, stepKeyword, Cursor.site_token, List.cons_append, Cursor.sites, if_neg hne]

theorem localStatement_plain (site : Site) (l : Local) (ls : List Local)
    (hless : us.head? ≠ some (.symbol .less)) (hcomma : us.head? ≠ some (.symbol .comma))
    (hassign : us.head? ≠ some (.symbol .assign)) :
    localStatement s site (c.sites (localTokens l ls ++ us)) =
      .ok (bindings (localRoles s.declared l ls), s.declare (l.name :: ls.map Local.name)) := by
  have hnumber : 1 + ls.length = (l.name :: ls.map Local.name).length := by simp [Nat.add_comm]
  rw [localStatement, declareNames_locals l ls (.inl rfl) hless hcomma, hnumber]
  dsimp only
  rw [if_neg nofun, startsWith_sites, if_neg (by simpa using hassign)]
  rfl

theorem localStatement_init (site : Site) {es : List Token} (l : Local) (ls : List Local)
    (hend : (c.sites (localTokens l ls ++ .symbol .assign :: (es ++ us))).find?
        (·.mark.endsAt site.mark.depth) =
      us.head?.map (c.after (localTokens l ls ++ .symbol .assign :: es)).site) :
    localStatement s site (c.sites (localTokens l ls ++ .symbol .assign :: (es ++ us))) =
      .ok (bindings (localRoles s.declared l ls),
        (s.number (1 + ls.length)).defer us (c.after (localTokens l ls ++ .symbol .assign :: es)).index
          (.activate (s.frames.length - 1)
            (Env.entries (declared s.declared (l.name :: ls.map Local.name))))) := by
  have hnames : declareNames true s (c.sites (localTokens l ls ++ .symbol .assign :: (es ++ us))) = _ :=
    declareNames_locals l ls (.inl rfl) (by simp) (by simp)
  rw [localStatement, hend, hnames]
  dsimp only
  rw [if_neg nofun, startsWith_sites, List.head?_cons, beq_self_eq_true, if_pos rfl]
  cases us <;> rfl

theorem Cursor.Level.locals (hl : c.Level d 0) (l : Local) (ls : List Local) :
    ((c.next (.keyword .localKw)).after (localTokens l ls)).Level d 0 := by
  obtain ⟨q, -, hsel, hjoined⟩ := Joined.locals (p := .keyword .localKw) l ls rfl nofun
  refine (hl.flat (t := .keyword .localKw) rfl rfl).of_balanced hjoined.balanced ?_
  rintro ⟨r, hr, hsel'⟩
  rw [Cursor.before_of_joined hjoined rfl] at hr
  rw [← Option.some.inj hr, hsel] at hsel'
  cases hsel'

/-- A `local` statement with values ends behind them. -/
theorem Follow.find_values {es : Tree .exprs} (hfollow : Follow us) (hl : c.Level d 0) (l : Local)
    (ls : List Local) (hes : Readable es) :
    ((c.next (.keyword .localKw)).sites
        (localTokens l ls ++ .symbol .assign :: (es.tokens ++ us))).find? (·.mark.endsAt d) =
      us.head?.map ((c.next (.keyword .localKw)).after
        (localTokens l ls ++ .symbol .assign :: es.tokens)).site := by
  obtain ⟨q, hq, -, hnames⟩ := Joined.locals (p := .keyword .localKw) l ls rfl nofun
  obtain ⟨r, hr, hvalues⟩ := hes.phrase
  have hjoined : Joined (.keyword .localKw) (localTokens l ls ++ .symbol .assign :: es.tokens) r :=
    hnames.append (.flat (Token.joins_of_continues hq rfl) rfl (hvalues _ rfl (by decide)))
  have hfit := (hl.flat (t := .keyword .localKw) rfl rfl).fit
  have hlevel := ((hl.locals l ls).flat (t := .symbol .assign) rfl rfl).phrase hes.phrase
  have hbefore := Cursor.before_of_joined (c := c.next (.keyword .localKw)) hjoined rfl
  have hend := hfollow.find_end (Cursor.quiet_of_joined hjoined hfit rfl rfl)
    (by rw [Cursor.after_append]; exact hlevel) ⟨r, hbefore, hr⟩ (Nat.le_refl d)
  rw [List.append_assoc, List.cons_append] at hend
  exact hend

/-- The names of a `local` statement wait for the end of its values. -/
theorem Runs.local_values {es : Tree .exprs} (hfollow : Follow us) (hl : c.Level d 0)
    (hidle : s.Idle c.index) (l : Local) (ls : List Local) (hes : Readable es) :
    Runs (.symbol .assign :: (es.tokens ++ us)) c s (.keyword .localKw :: localTokens l ls)
      (bindings (.other :: localRoles s.declared l ls))
      ((s.number (1 + ls.length)).defer us
        ((((c.next (.keyword .localKw)).after (localTokens l ls)).next (.symbol .assign)).after
          es.tokens).index
        (.activate (s.frames.length - 1)
          (Env.entries (declared s.declared (l.name :: ls.map Local.name))))) := by
  have hdepth : (c.site (.keyword .localKw)).mark.depth = d := by
    show c.nesting.blocks.length = d
    rw [hl.blocks, List.length_replicate]
  have hend := hfollow.find_values hl l ls hes
  rw [← hdepth] at hend
  have hinit := localStatement_init (s := s) (c.site (.keyword .localKw)) l ls hend
  rw [Cursor.after_append] at hinit
  refine .of_idle_step hidle ((step_local l ls).trans (congrArg _ hinit)) ?_
  rw [bindings, List.length_map, List.length_cons, localRoles_length]

end

/-- A reading that ends where something waits. -/
theorem Readable.deferred {kind : Kind} {e : Tree kind} {us : List Token} {c : Cursor}
    {s : ScopeState} {d : Nat} {Γ : Env} {action : Waiting} (he : Readable e) (hl : c.Level d 0)
    (hscope : s.frames.flatten = Γ.entries) (hbrackets : s.brackets = [])
    (hwaiting : s.waiting = [])
    (number : Nat) :
    ReadAs us c (s.defer us (c.after e.tokens).index action) e.tokens (e.roles Γ number) := by
  refine he.reads Γ number us c _ ⟨⟨?_, fun w hw => ?_, hl.before, hl.fit⟩, fun hbrace => ?_⟩
  · rw [ScopeState.frames_defer]
    exact hscope
  · have := ScopeState.mem_waiting_defer hwaiting hw
    rw [Cursor.index_after] at this
    omega
  · rw [ScopeState.brackets_defer, hbrackets] at hbrace
    cases hbrace

/-- The condition of a loop still sees what the body declares. -/
theorem Reaches.until {e : Tree .expr} {us : List Token} {c : Cursor} {s : ScopeState} {d k : Nat}
    {F G : List Frame} {Γ Γ' : Env} (he : Readable e) (hl : c.Level (d + 1) 0)
    (hs : Scoped G k Γ' s) (hG : Held F Γ G) (hfollow : Follow us) (number : Nat) :
    Reaches us c s (.keyword .untilKw :: e.tokens) (.other :: e.roles Γ' number) d F k Γ := by
  have hl' := hl.left (t := .keyword .untilKw) rfl
  obtain ⟨q, hq, hjoined⟩ := he.phrase
  have hquiet := Cursor.quiet_of_joined (c := c.next (.keyword .untilKw))
    (hjoined (.keyword .untilKw) rfl (by decide)) hl'.fit rfl rfl
  have hend := hfollow.find_end hquiet (hl'.phrase he.phrase) (he.phrase.before_after _)
    (Nat.le_refl d)
  have hdepth : (c.site (.keyword .untilKw)).mark.depth = d := by
    show c.nesting.blocks.length - 1 = d
    rw [hl.blocks, List.length_replicate, Nat.add_sub_cancel]
  have hstep : Runs (e.tokens ++ us) c s [.keyword .untilKw] [Role.other.binding]
      (s.defer us ((c.next (.keyword .untilKw)).after e.tokens).index .leave) := by
    refine .of_idle_step hs.idle ?_ rfl
    simp only [step, stepKeyword, Cursor.site_token]
    rw [List.nil_append, hdepth, hend]
    cases us <;> rfl
  refine .cons hstep (.of_deferred ?_ hs.waiting (hl'.phrase he.phrase) ?_)
  · exact he.deferred hl' hs.held.scope hs.brackets hs.waiting number
  · exact fun s' hcore => (hs.of_core hcore).leave hG

namespace Walks

theorem locals (l : Local) (ls : List Local) : Walks (.locals l ls) := by
  intro d us c s F k Γ hl hs hfollow
  have hplain := localStatement_plain (c := c.next (.keyword .localKw)) (s := s)
    (c.site (.keyword .localKw)) l ls (hfollow.head_ne (t := .symbol .less) rfl)
    (hfollow.head_ne (t := .symbol .comma) rfl) (hfollow.head_ne (t := .symbol .assign) rfl)
  rw [hs.declared] at hplain
  have hcount : k + (1 + ls.length) = k + (l.name :: ls.map Local.name).length := by
    simp [Nat.add_comm]
  show Reaches us c s (.keyword .localKw :: localTokens l ls) (.other :: localRoles k l ls) d F
    (k + (1 + ls.length)) (Γ.declare (declared k (l.name :: ls.map Local.name)))
  rw [hcount]
  refine .of_scoped (.of_idle_step hs.idle ((step_local l ls).trans (congrArg _ hplain)) ?_) ?_
    (hs.declare _)
  · rw [bindings, List.length_map, List.length_cons, localRoles_length]
  · exact hl.locals l ls

theorem localsInit {es : Tree .exprs} (l : Local) (ls : List Local) (hes : Readable es) :
    Walks (.localsInit l ls es) := by
  intro d us c s F k Γ hl hs hfollow
  let c₁ := ((c.next (.keyword .localKw)).after (localTokens l ls)).next (.symbol .assign)
  have hl₁ : c₁.Level d 0 := (hl.locals l ls).flat rfl rfl
  have hrun := Runs.local_values hfollow hl hs.idle l ls hes
  have hnumber := hs.number (1 + ls.length)
  rw [hs.declared] at hrun
  show Reaches us c s ((.keyword .localKw :: localTokens l ls) ++ .symbol .assign :: es.tokens)
    ((.other :: localRoles k l ls) ++ .other :: es.roles Γ (k + (1 + ls.length))) d F
    (k + (1 + ls.length + es.decls)) (Γ.declare (declared k (l.name :: ls.map Local.name)))
  rw [hes.decls, Nat.add_zero]
  refine .prepend hrun (.cons (.inert rfl ?_) (.of_deferred ?_ hnumber.waiting
    (hl₁.phrase hes.phrase) ?_))
  · -- the equals sign stands before the place that the declaration waits for
    intro w hw
    have hend := ScopeState.mem_waiting_defer hnumber.waiting hw
    rw [Cursor.index_after, Cursor.next_index] at hend
    show w.1 ≠ ((c.next (.keyword .localKw)).after (localTokens l ls)).index
    omega
  · exact hes.deferred hl₁ hnumber.held.scope hnumber.brackets hnumber.waiting _
  · intro s' hcore
    have hframes : s'.frames = s.frames := (ScopeState.core_eq_iff.mp hcore).1
    show Scoped F _ _ (s'.activateAt (s.frames.length - 1) _)
    rw [← hframes]
    exact (hnumber.of_core hcore).activateAt _

theorem repeatUntil {b : Tree .block} {e : Tree .expr} (hb : Walks b) (he : Readable e) :
    Walks (.repeatUntil b e) := by
  intro d us c s F k Γ hl hs hfollow
  show Reaches us c s (.keyword .repeatKw :: (b.tokens ++ .keyword .untilKw :: e.tokens))
    (.other :: (b.roles Γ k ++ .other :: e.roles (b.extend Γ k) (k + b.decls))) d F
    (k + (b.decls + e.decls)) Γ
  rw [he.decls, Nat.add_zero]
  refine .cons (.of_idle_step hs.idle (step_opened rfl) rfl) ?_
  exact .append (hb _ _ _ _ s.frames k Γ (hl.opened rfl) hs.enter (.cons rfl)) (by simp)
    fun s₁ hl₁ hs₁ => .until he hl₁ hs₁ hs.held hfollow _

end Walks

namespace WalksTail

variable {b : Tree .block}

theorem endIf : WalksTail .endIf := fun _ _ _ _ _ _ _ _ _ hl hs hG =>
  .of_scoped (.of_idle_step hs.idle rfl rfl) (hl.left rfl) (hs.leave hG)

theorem elseEnd (hb : Walks b) : WalksTail (.elseEnd b) := by
  intro d us c s F G k Γ Γ' hl hs hG
  have hleft := hs.leave hG
  exact .cons (.of_idle_step hs.idle rfl rfl) (.body hb hl.passed_else hleft.enter hleft.held)

theorem elseIf {e : Tree .expr} {f : Tree .tail} (he : Readable e) (hb : Walks b)
    (hf : WalksTail f) : WalksTail (.elseIf e b f) := by
  intro d us c s F G k Γ Γ' hl hs hG
  have htokens : (Tree.elseIf e b f).tokens = .keyword .elseifKw ::
      (e.tokens ++ .keyword .thenKw :: (b.tokens ++ f.tokens)) := regroup ..
  have hroles : (Tree.elseIf e b f).roles Γ k = .other :: (e.roles Γ k ++
      .other :: (b.roles Γ (k + e.decls) ++ f.roles Γ (k + e.decls + b.decls))) := regroup ..
  rw [htokens, hroles]
  exact .cons (.of_idle_step hs.idle rfl rfl) (.branch he hb hf (hl.left rfl) (hs.leave hG))

end WalksTail

/-! ### Blocks -/

namespace Tree

/-- What can be called, indexed or assigned begins with a name or a parenthesis. -/
def Headed : {kind : Kind} → Tree kind → Prop
  | .operand, t | .var, t | .call, t | .vars, t =>
    ∃ x, t.tokens.head? = some x ∧ (x.isName = true ∨ x = .symbol .parenOpen)
  | .expr, _ | .args, _ | .exprs, _ | .range, _ | .field, _ | .fields, _ | .stmt, _ | .tail, _
  | .block, _ => True

theorem head_append {ts : List Token} {x : Token} (h : ts.head? = some x) (us : List Token) :
    (ts ++ us).head? = some x := by
  rw [List.head?_append, h, Option.some_or]

theorem headed {kind : Kind} (t : Tree kind) : t.Headed := by
  induction t with
  | read v ih | result c ih | target v ih => exact ih
  | paren e => exact ⟨_, rfl, .inr rfl⟩
  | name n => exact ⟨_, rfl, .inl rfl⟩
  | index p e ih =>
    obtain ⟨x, hp, hx⟩ := ih
    exact ⟨x, head_append (head_append hp _) _, hx⟩
  | member p n ih | apply p a ih | invoke p n a ih | targets v vs ih =>
    obtain ⟨x, hp, hx⟩ := ih
    exact ⟨x, head_append hp _, hx⟩
  | _ => trivial

/-- Without functions nothing is declared outside statements. -/
def Undeclaring : {kind : Kind} → Tree kind → Prop
  | .stmt, _ | .tail, _ | .block, _ => True
  | .expr, t | .operand, t | .var, t | .call, t | .args, t | .exprs, t | .vars, t | .range, t
  | .field, t | .fields, t => t.decls = 0

theorem undeclaring {kind : Kind} (t : Tree kind) (h : t.plainly = true) : t.Undeclaring := by
  induction t with
  | literal t => exact Eq.refl 0
  | name n => exact Eq.refl 0
  | noArgs => exact Eq.refl 0
  | stringArg text => exact Eq.refl 0
  | noField => exact Eq.refl 0
  | plain p ih | table fs ih | unary op e ih | read v ih | result c ih | paren e ih
  | member p n ih | someArgs es ih | tableArg fs ih | one e ih | target v ih | item e ih
  | named n e ih | lastField f ih => exact ih h
  | binary l op r ih ih' | index p e ih ih' | apply p a ih ih' | invoke p n a ih ih'
  | more e es ih ih' | targets v vs ih ih' | span first limit ih ih' | keyed key e ih ih'
  | fieldThen f sep fs ih ih' =>
    obtain ⟨h, h'⟩ := and_and_inv h
    exact Nat.add_eq_zero_iff.mpr ⟨ih h, ih' h'⟩
  | stride first limit step ih ih' ih'' =>
    obtain ⟨h, h', h''⟩ := and_and_and_inv h
    exact Nat.add_eq_zero_iff.mpr ⟨Nat.add_eq_zero_iff.mpr ⟨ih h, ih' h'⟩, ih'' h''⟩
  | function ps b => cases h
  | _ => trivial

/-- A statement's first token shows that a statement begins. -/
theorem head_stmt (t : Tree .stmt) (h : t.plainly = true) :
    ∃ x, t.tokens.head? = some x ∧ x.mayFollow = true := by
  have hname : ∀ {ts : List Token}, (∃ x, ts.head? = some x ∧
      (x.isName = true ∨ x = .symbol .parenOpen)) →
      (!(ts.head? == some (.symbol .parenOpen))) = true →
      ∃ x, ts.head? = some x ∧ x.mayFollow = true := by
    rintro ts ⟨x, hx, hhead⟩ hparen
    refine ⟨x, hx, ?_⟩
    rw [hx] at hparen
    rcases hhead with hname | rfl
    · cases x with
      | name n => rfl
      | keyword _ | number _ | string _ | comment _ | symbol _ => cases hname
    · cases hparen
  cases t with
  | assign vs es =>
    have hparen := (and_inv (and_inv (and_inv h).1).1).2
    obtain ⟨x, hx, hhead⟩ := vs.headed
    exact hname ⟨x, head_append hx _, hhead⟩ hparen
  | callOnly call => exact hname call.headed (and_and_inv h).1
  | _ => exact ⟨_, rfl, rfl⟩

theorem head_block (b : Tree .block) (h : b.plainly = true) :
    b = .nothing ∨ ∃ x, b.tokens.head? = some x ∧ x.mayFollow = true := by
  cases b with
  | nothing => exact .inl rfl
  | ret closed => exact .inr ⟨_, rfl, rfl⟩
  | retValues es closed => exact .inr ⟨.keyword .returnKw, rfl, rfl⟩
  | cons t b =>
    obtain ⟨x, hx, hfollow⟩ := t.head_stmt (and_and_inv h).1
    exact .inr ⟨x, head_append hx _, hfollow⟩

end Tree

theorem Walks.nothing : Walks .nothing := fun _ _ _ _ _ _ _ hl hs _ => .nil hl hs

theorem Walks.cons {t : Tree .stmt} {b : Tree .block} (ht : Walks t) (hb : Walks b)
    (hhead : b = .nothing ∨ ∃ x, b.tokens.head? = some x ∧ x.mayFollow = true) :
    Walks (.cons t b) := by
  intro d us c s F k Γ hl hs hfollow
  rcases hhead with rfl | ⟨x, hx, hnext⟩
  · show Reaches us c s (t.tokens ++ []) (t.roles Γ k ++ []) d F (k + t.decls) (t.extend Γ k)
    rw [List.append_nil, List.append_nil]
    exact ht d us c s F k Γ hl hs hfollow
  · have hhead : (b.tokens ++ us).head? = some x := Tree.head_append hx us
    have hnext : Follow (b.tokens ++ us) := by
      intro y hy
      rw [hhead] at hy
      rw [← Option.some.inj hy]
      exact hnext
    have hne : b.tokens ++ us ≠ [] := by
      intro h
      rw [h] at hhead
      cases hhead
    show Reaches us c s (t.tokens ++ b.tokens) _ d F (k + (t.decls + b.decls)) _
    rw [← Nat.add_assoc]
    exact .append (ht d _ c s F k Γ hl hs hnext) hne fun s' hl' hs' =>
      hb d us _ s' F _ _ hl' hs' hfollow

/-- Without functions everything that is an expression or a list of them can be read. -/
def Tree.ReadableAs : {kind : Kind} → Tree kind → Prop
  | .expr, t | .call, t | .exprs, t | .vars, t | .range, t => Readable t
  | .operand, _ | .var, _ | .args, _ | .field, _ | .fields, _ | .stmt, _ | .tail, _ | .block, _ =>
    True

theorem Tree.readable {kind : Kind} (t : Tree kind) (h : t.plainly = true) : t.ReadableAs := by
  cases kind with
  | expr | call | exprs | vars | range => exact ⟨t.shaped h, t.reads h, t.undeclaring h⟩
  | operand | var | args | field | fields | stmt | tail | block => trivial

/-- What the walk does on a tree of a statement or a block. -/
def Tree.Walked : {kind : Kind} → Tree kind → Prop
  | .stmt, t | .block, t => Walks t
  | .tail, t => WalksTail t
  | .expr, _ | .operand, _ | .var, _ | .call, _ | .args, _ | .exprs, _ | .vars, _ | .range, _
  | .field, _ | .fields, _ => True

theorem Tree.walked {kind : Kind} (t : Tree kind) (h : t.plainly = true) : t.Walked := by
  induction t with
  | semicolon => exact Walks.semicolon
  | locals l ls => exact Walks.locals l ls
  | localsInit l ls es => exact Walks.localsInit l ls (es.readable h)
  | assign vs es =>
    obtain ⟨h, h'⟩ := and_and_inv h
    exact Walks.assign (vs.readable h) (es.readable h')
  | callOnly call =>
    obtain ⟨-, h⟩ := and_inv h
    exact Walks.callOnly (call.readable h)
  | doEnd b ih => exact Walks.doEnd (ih h)
  | whileDo e b _ ih =>
    obtain ⟨h, hb⟩ := and_and_inv h
    exact Walks.whileDo (e.readable h) (ih hb)
  | repeatUntil b e ih _ =>
    obtain ⟨h, he⟩ := and_and_inv h
    exact Walks.repeatUntil (ih h) (e.readable he)
  | ifThen e b f _ ihb ihf =>
    obtain ⟨h, hb, hf⟩ := and_and_and_inv h
    exact Walks.ifThen (e.readable h) (ihb hb) (ihf hf)
  | forRange n r b _ ih =>
    obtain ⟨h, hb⟩ := and_and_inv h
    exact Walks.forRange n (r.readable h) (ih hb)
  | forIn n ns es b _ ih =>
    obtain ⟨h, hb⟩ := and_and_inv h
    exact Walks.forIn n ns (es.readable h) (ih hb)
  | localFunction n ps b ih => exact Walks.localFunction n ps (ih h)
  | functionNamed f ps b ih => exact Walks.functionNamed f ps (ih h)
  | breakLoop => exact Walks.breakLoop
  | gotoLabel n => exact Walks.gotoLabel n
  | label n => exact Walks.label n
  | endIf => exact WalksTail.endIf
  | elseEnd b ih => exact WalksTail.elseEnd (ih h)
  | elseIf e b f _ ihb ihf =>
    obtain ⟨h, hb, hf⟩ := and_and_and_inv h
    exact WalksTail.elseIf (e.readable h) (ihb hb) (ihf hf)
  | nothing => exact Walks.nothing
  | ret closed => exact Walks.ret closed
  | retValues es closed => exact Walks.retValues (es.readable h) closed
  | cons t b iht ihb =>
    obtain ⟨h, hb⟩ := and_and_inv h
    exact Walks.cons (iht h) (ihb hb) (b.head_block hb)
  | _ => trivial

end LuaBundle.Lua
