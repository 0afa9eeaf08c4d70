import LuaBundle.Proofs.Lua.Declaring

/-!
# Between statements

No bracket is open between two statements, and the frames of the walk hold the scope: one frame for
each open block. What waits for the end of a statement takes effect before the next token.
-/
namespace LuaBundle.Lua

/-! ### The layout between statements -/

/-- So many blocks and headers of loops are open, and no bracket is. -/
structure Cursor.Level (blocks headers : Nat) (c : Cursor) : Prop where
  calm : c.nesting.calm = ⟨List.replicate blocks 0, [], false, headers, false⟩
  before : ¬ c.Selecting

namespace Token

def opensBlock : Token → Bool
  | keyword .thenKw | keyword .repeatKw => true
  | _ => false

def opensLoop : Token → Bool
  | keyword .whileKw | keyword .forKw => true
  | _ => false

/-- Tokens that close a block and open none. -/
def leavesBlock : Token → Bool
  | keyword .endKw | keyword .elseifKw | keyword .untilKw => true
  | _ => false

/-- A statement may begin with this token, or a block end. -/
def mayFollow (t : Token) : Bool :=
  t.closesBlock || !t.continuesExpression && t != .keyword .thenKw && t != .keyword .inKw

end Token

namespace Cursor

variable {c : Cursor} {t : Token} {ts us : List Token} {d n : Nat}

theorem calm_next : (c.next t).nesting.calm =
    (c.nesting.calm.after (c.nesting.starts c.before t) t).calm := rfl

theorem level_start : start.Level 0 0 := ⟨rfl, nofun⟩

namespace Level

theorem blocks (h : c.Level d n) : c.nesting.blocks = List.replicate d 0 :=
  congrArg Nesting.blocks h.calm

theorem brackets (h : c.Level d n) : c.nesting.brackets = [] := congrArg Nesting.brackets h.calm

theorem loopHeaders (h : c.Level d n) : c.nesting.loopHeaders = n :=
  congrArg Nesting.loopHeaders h.calm

theorem atStatementLevel (h : c.Level d n) : c.nesting.atStatementLevel = true := by
  rw [Nesting.atStatementLevel, h.blocks, h.brackets]
  cases d <;> rfl

theorem fit (h : c.Level d n) : c.nesting.Fit := by
  refine ⟨congrArg Nesting.expectParams h.calm, ?_⟩
  rw [h.blocks, h.brackets]
  cases d <;> exact Nat.le_refl 0

theorem of_balanced (h : c.Level d n) (hts : Balanced ts) (hsel : ¬ (c.after ts).Selecting) :
    (c.after ts).Level d n :=
  ⟨(nesting_after hts h.fit.params).trans h.calm, hsel⟩

theorem phrase (h : c.Level d n) (hts : Phrase ts) : (c.after ts).Level d n :=
  h.of_balanced hts.balanced (hts.not_selecting c)

theorem flat (h : c.Level d n) (ht : t.isFlat = true) (hsel : t.selects = false) :
    (c.next t).Level d n := by
  have hone : Balanced [t] := .flat ht .nil
  exact h.of_balanced hone (not_selecting_next hsel c)

theorem flats (h : c.Level d n) (hts : ∀ t ∈ ts, t.isFlat = true) (ht : t.isFlat = true)
    (hsel : t.selects = false) : ((c.after ts).next t).Level d n := by
  have hlist : Balanced (ts ++ [t]) := (Balanced.of_flat hts).append (.flat ht .nil)
  have hend : c.after (ts ++ [t]) = (c.after ts).next t := after_append
  rw [← hend]
  refine h.of_balanced hlist ?_
  rw [hend]
  exact not_selecting_next hsel _

theorem opened (h : c.Level d 0) (ht : t.opensBlock = true) : (c.next t).Level (d + 1) 0 := by
  cases t with
  | keyword w =>
    cases w <;> first
      | exact ⟨by rw [calm_next, h.calm]; rfl, not_selecting_next rfl c⟩
      | cases ht
  | symbol _ | name _ | number _ | string _ | comment _ => cases ht

theorem opened_do (h : c.Level d 0) : (c.next (.keyword .doKw)).Level (d + 1) 0 := by
  refine ⟨?_, not_selecting_next rfl c⟩
  rw [calm_next, h.calm]
  cases c.nesting.starts c.before (.keyword .doKw) <;> rfl

theorem closed_header (h : c.Level d (n + 1))
    (hstart : c.nesting.starts c.before (.keyword .doKw) = false) :
    (c.next (.keyword .doKw)).Level (d + 1) n := by
  refine ⟨?_, not_selecting_next rfl c⟩
  rw [calm_next, h.calm, hstart]
  rfl

theorem opened_header (h : c.Level d n) (ht : t.opensLoop = true) : (c.next t).Level d (n + 1) := by
  cases t with
  | keyword w =>
    cases w <;> first
      | exact ⟨by rw [calm_next, h.calm]; rfl, not_selecting_next rfl c⟩
      | cases ht
  | symbol _ | name _ | number _ | string _ | comment _ => cases ht

theorem left (h : c.Level (d + 1) n) (ht : t.leavesBlock = true) : (c.next t).Level d n := by
  cases t with
  | keyword w =>
    cases w <;> first
      | exact ⟨by rw [calm_next, h.calm]; rfl, not_selecting_next rfl c⟩
      | cases ht
  | symbol _ | name _ | number _ | string _ | comment _ => cases ht

theorem passed_else (h : c.Level (d + 1) n) : (c.next (.keyword .elseKw)).Level (d + 1) n :=
  ⟨by rw [calm_next, h.calm]; rfl, not_selecting_next rfl c⟩

end Level

/-- The `do` of a loop goes on with the header. -/
theorem Level.starts_do {p : Token} (h : c.Level d (n + 1)) (ho : c.nesting.openedBlock = false)
    (hp : c.before = some p) (hends : p.endsExpression = true) :
    c.nesting.starts c.before (.keyword .doKw) = false := by
  have hsemi : (p == .symbol .semicolon) = false := by simpa using Token.ne_semicolon_of_ends hends
  have hgoes : c.nesting.goesOn (.keyword .doKw) = true := by simp [Nesting.goesOn, h.loopHeaders]
  rw [hp, Nesting.starts, ho, hsemi, hgoes]
  simp [Token.closesBlock]

theorem calm_after_flat (h : ∀ t ∈ ts, t.isFlat = true) :
    (c.after ts).nesting.calm = c.nesting.calm := by
  induction ts generalizing c with
  | nil => rfl
  | cons t ts ih =>
    rw [after_cons, next_flat (h t List.mem_cons_self)]
    exact ih fun t' ht' => h t' (List.mem_cons_of_mem _ ht')

theorem Level.function (h : c.Level d 0) (hts : ∀ t ∈ ts, t.isFlat = true)
    (hus : ∀ t ∈ us, t.isFlat = true) :
    (c.after (.keyword .functionKw :: ts ++ .symbol .parenOpen :: us ++ [.symbol .parenClose])).Level
      (d + 1) 0 := by
  have hword : (c.next (.keyword .functionKw)).nesting.calm =
      ⟨List.replicate d 0, [], true, 0, false⟩ := by
    rw [calm_next, h.calm]
    rfl
  have hopen : (((c.next (.keyword .functionKw)).after ts).next (.symbol .parenOpen)).nesting.calm =
      ⟨List.replicate d 0, [true], false, 0, false⟩ := by
    rw [calm_next, calm_after_flat hts, hword]
    rfl
  refine ⟨?_, ?_⟩
  · rw [after_append, after_append, after_cons, after_cons, after_cons, after_nil, calm_next,
      calm_after_flat hus, hopen]
    rfl
  · rw [after_append]
    exact not_selecting_next rfl _

end Cursor

/-! ### Where statements end -/

/-- What may follow a statement or a block. -/
def Follow (us : List Token) : Prop := ∀ t ∈ us.head?, t.mayFollow = true

namespace Follow

variable {c : Cursor} {p t : Token} {ts us : List Token} {d n depth : Nat}

theorem nil : Follow [] := nofun

theorem cons (h : t.mayFollow = true) : Follow (t :: us) := by
  intro t' ht'
  rw [← Option.some.inj ht']
  exact h

theorem head_ne (h : Follow us) (ht : t.mayFollow = false) : us.head? ≠ some t := by
  intro hhead
  have := h t hhead
  rw [ht] at this
  cases this

/-- What follows an expression begins a statement. -/
theorem starts (hl : c.Level d 0) (hp : c.before = some p) (hends : p.endsExpression = true)
    (ht : t.mayFollow = true) : c.nesting.starts c.before t = true := by
  have hgoes : t.closesBlock = false → c.nesting.goesOn t = false := by
    intro hc
    simp only [Token.mayFollow, hc, Bool.false_or, Bool.and_eq_true, bne_iff_ne, ne_eq] at ht
    obtain ⟨⟨-, hthen⟩, hin⟩ := ht
    rw [Nesting.goesOn.eq_def]
    split
    · exact absurd rfl hthen
    · exact absurd rfl hin
    · rw [hl.loopHeaders]
      rfl
    · rfl
  rw [hp, Nesting.starts, hl.atStatementLevel]
  cases hc : t.closesBlock with
  | true => rfl
  | false =>
    simp only [Token.mayFollow, hc, Bool.false_or, Bool.and_eq_true, Bool.not_eq_true'] at ht
    simp [hends, ht.1.1, hgoes hc]

/-- A statement whose tokens are quiet ends where the next token is, if there is one. -/
theorem find_end (h : Follow us) (hquiet : Quiet c ts) (hl : (c.after ts).Level d 0)
    (hends : ∃ q, (c.after ts).before = some q ∧ q.endsExpression = true) (hd : d ≤ depth) :
    (c.sites (ts ++ us)).find? (·.mark.endsAt depth) = us.head?.map (c.after ts).site := by
  have hnone : (c.sites ts).find? (·.mark.endsAt depth) = none := by
    refine List.find?_eq_none.mpr fun site hsite => ?_
    simp [Mark.endsAt, hquiet site hsite]
  rw [Cursor.sites_append, List.find?_append, hnone, Option.none_or]
  cases us with
  | nil => rfl
  | cons t us =>
    obtain ⟨q, hq, hends⟩ := hends
    have hstart := starts hl hq hends (h t rfl)
    have hdepth : (c.after ts).nesting.depthOf t ≤ depth := by
      have : (c.after ts).nesting.blocks.length = d := by
        rw [hl.blocks, List.length_replicate]
      unfold Nesting.depthOf
      split <;> omega
    exact List.find?_cons_of_pos (by simp [Cursor.site, Nesting.mark, Mark.endsAt, hstart, hdepth])

end Follow

/-! ### Frames and scopes -/

/-- Frames hold a scope; `F` is all of them but the innermost. -/
structure Held (F : List Frame) (Γ : Env) (frames : List Frame) : Prop where
  nonempty : frames ≠ []
  outer : frames.tail = F
  scope : frames.flatten = Γ.entries

/-- Nothing is unfinished, and the frames hold the scope. -/
structure Scoped (F : List Frame) (k : Nat) (Γ : Env) (s : ScopeState) : Prop where
  held : Held F Γ s.frames
  declared : s.declared = k
  brackets : s.brackets = []
  loops : s.loops = []
  waiting : s.waiting = []

namespace Scoped

variable {F G : List Frame} {k : Nat} {Γ Γ' : Env} {s s' : ScopeState} {index : Nat}

theorem initial : Scoped [] 0 [] .initial := ⟨⟨nofun, rfl, rfl⟩, rfl, rfl, rfl, rfl⟩

theorem of_core (h : Scoped F k Γ s) (hcore : s'.core = s.core) : Scoped F k Γ s' := by
  obtain ⟨hframes, hdeclared, hbrackets, hloops, hwaiting⟩ := ScopeState.core_eq_iff.mp hcore
  refine ⟨?_, hdeclared.trans h.declared, hbrackets.trans h.brackets, hloops.trans h.loops,
    hwaiting.trans h.waiting⟩
  rw [hframes]
  exact h.held

theorem idle (h : Scoped F k Γ s) : s.Idle index := by
  intro w hw
  rw [h.waiting] at hw
  cases hw

theorem settle (h : Scoped F k Γ s) : Scoped F k Γ (s.settle index) := by
  rw [ScopeState.settle_of_idle h.idle]
  exact h

/-- A new block has an empty frame. -/
theorem enter (h : Scoped F k Γ s) : Scoped s.frames k Γ s.enter :=
  ⟨⟨nofun, rfl, h.held.scope⟩, h.declared, h.brackets, h.loops, h.waiting⟩

theorem leave (h : Scoped G k Γ' s) (hG : Held F Γ G) : Scoped F k Γ s.leave := by
  obtain ⟨hne, houter, -⟩ := h.held
  have hlength : s.frames.length > 1 := by
    have hpos : 0 < G.length := List.length_pos_iff.mpr hG.nonempty
    rw [← houter, List.length_tail] at hpos
    omega
  rw [ScopeState.leave, if_pos hlength]
  refine ⟨?_, h.declared, h.brackets, h.loops, h.waiting⟩
  show Held F Γ s.frames.tail
  rw [houter]
  exact hG

/-- Declared in the innermost frame. -/
theorem activate (h : Scoped F k Γ s) (vs : List Variable) :
    Scoped F k (Γ.declare vs) (s.activate (Env.entries vs)) := by
  obtain ⟨⟨hne, houter, hscope⟩, hdeclared, hbrackets, hloops, hwaiting⟩ := h
  refine ⟨?_, hdeclared, hbrackets, hloops, hwaiting⟩
  obtain ⟨f, frames, hframes⟩ := List.exists_cons_of_ne_nil hne
  rw [hframes] at houter hscope
  show Held F _ (s.frames.modifyHead _)
  rw [hframes, List.modifyHead_cons]
  exact ⟨nofun, houter, Env.flatten_declare hscope vs⟩

theorem activateAt (h : Scoped F k Γ s) (vs : List Variable) :
    Scoped F k (Γ.declare vs) (s.activateAt (s.frames.length - 1) (Env.entries vs)) := by
  have hne := List.length_pos_iff.mpr h.held.nonempty
  have hsame : s.activateAt (s.frames.length - 1) (Env.entries vs) = s.activate (Env.entries vs) := by
    rw [ScopeState.activateAt, if_pos (by omega), Nat.sub_self, ← List.modifyHead_eq_modify_zero]
    rfl
  rw [hsame]
  exact h.activate vs

theorem number (h : Scoped F k Γ s) (count : Nat) : Scoped F (k + count) Γ (s.number count) :=
  ⟨h.held, congrArg (· + count) h.declared, h.brackets, h.loops, h.waiting⟩

theorem declare (h : Scoped F k Γ s) (ns : List Name) :
    Scoped F (k + ns.length) (Γ.declare (Lua.declared k ns)) (s.declare ns) := by
  rw [ScopeState.declare, h.declared]
  exact (h.number ns.length).activate _

theorem receive (h : Scoped F k Γ s) (vs : List Variable) :
    Scoped s.frames (k + vs.length) (Γ.declare vs) (s.receive vs) :=
  (h.enter.number vs.length).activate vs

end Scoped

/-! ### What waits for the end of a statement -/

namespace ScopeState

variable {s s' : ScopeState} {us : List Token} {index : Nat} {action : Waiting}

/-- Wait for the end of a statement; nothing waits for the end of the chunk. -/
def defer (s : ScopeState) (us : List Token) (index : Nat) (action : Waiting) : ScopeState :=
  if us = [] then s else s.wait index action

def perform (s : ScopeState) : Waiting → ScopeState
  | .activate level names => s.activateAt level names
  | .leave => s.leave

theorem frames_defer : (s.defer us index action).frames = s.frames := by
  unfold defer
  split <;> rfl

theorem brackets_defer : (s.defer us index action).brackets = s.brackets := by
  unfold defer
  split <;> rfl

theorem mem_waiting_defer (hwaiting : s.waiting = []) {w : Nat × Waiting}
    (hw : w ∈ (s.defer us index action).waiting) : w.1 = index := by
  unfold defer at hw
  split at hw
  · rw [hwaiting] at hw
    cases hw
  · rw [wait, hwaiting, List.nil_append, List.mem_singleton] at hw
    rw [hw]

theorem settle_wait (hwaiting : s.waiting = []) :
    (s.wait index action).settle index = s.perform action := by
  obtain ⟨frames, k, brackets, loops, waiting, targets, assigned⟩ := s
  subst hwaiting
  cases action <;> simp [settle, wait, perform]

/-- What has waited takes effect, whatever the names between were bound to. -/
theorem settle_defer (hwaiting : s.waiting = []) (hne : us ≠ [])
    (hcore : s'.core = (s.defer us index action).core) :
    ∃ s₁ : ScopeState, s₁.core = s.core ∧ s'.settle index = s₁.perform action := by
  rw [defer, if_neg hne] at hcore
  obtain ⟨hframes, hdeclared, hbrackets, hloops, hs'⟩ := core_eq_iff.mp hcore
  let s₁ : ScopeState := { s with targets := s'.targets, assigned := s'.assigned }
  have hsame : s' = s₁.wait index action := by
    obtain ⟨frames, k, brackets, loops, waiting, targets, assigned⟩ := s'
    subst hframes hdeclared hbrackets hloops hs'
    rfl
  refine ⟨s₁, rfl, ?_⟩
  rw [hsame]
  exact settle_wait hwaiting

end ScopeState

/-! ### Runs between statements -/

/-- The walk passes `ts` with these roles; if tokens follow, it has come to a place between
statements with this scope. -/
def Reaches (us : List Token) (c : Cursor) (s : ScopeState) (ts : List Token) (rs : List Role)
    (d : Nat) (F : List Frame) (k : Nat) (Γ : Env) : Prop :=
  ∃ s', Runs us c s ts (bindings rs) s' ∧ (c.after ts).Level d 0 ∧
    (us ≠ [] → Scoped F k Γ (s'.settle (c.after ts).index))

namespace Reaches

variable {us ts vs : List Token} {c : Cursor} {s s' : ScopeState} {rs rs' : List Role} {d d' : Nat}
  {F F' : List Frame} {k k' : Nat} {Γ Γ' : Env} {t : Token} {r : Role}

theorem of_scoped (h : Runs us c s ts (bindings rs) s') (hl : (c.after ts).Level d 0)
    (hs : Scoped F k Γ s') : Reaches us c s ts rs d F k Γ :=
  ⟨s', h, hl, fun _ => hs.settle⟩

theorem of_read (h : ReadAs us c s ts rs) (hl : (c.after ts).Level d 0) (hs : Scoped F k Γ s) :
    Reaches us c s ts rs d F k Γ := by
  obtain ⟨s', hcore, hrun⟩ := h
  exact .of_scoped hrun hl (hs.of_core hcore)

/-- A reading at whose end something takes effect. -/
theorem of_deferred {action : Waiting}
    (h : ReadAs us c (s.defer us (c.after ts).index action) ts rs) (hwaiting : s.waiting = [])
    (hl : (c.after ts).Level d 0)
    (hs : ∀ s' : ScopeState, s'.core = s.core → Scoped F k Γ (s'.perform action)) :
    Reaches us c (s.defer us (c.after ts).index action) ts rs d F k Γ := by
  obtain ⟨s', hcore, hrun⟩ := h
  refine ⟨s', hrun, hl, fun hne => ?_⟩
  obtain ⟨s₁, hcore', hsettle⟩ := ScopeState.settle_defer hwaiting hne hcore
  rw [hsettle]
  exact hs s₁ hcore'

theorem nil (hl : c.Level d 0) (hs : Scoped F k Γ s) : Reaches us c s [] [] d F k Γ :=
  .of_scoped .nil hl hs

/-- What is reached is settled before the next token. -/
theorem append (h : Reaches (vs ++ us) c s ts rs d F k Γ) (hne : vs ++ us ≠ [])
    (h' : ∀ s', (c.after ts).Level d 0 → Scoped F k Γ s' →
      Reaches us (c.after ts) s' vs rs' d' F' k' Γ') :
    Reaches us c s (ts ++ vs) (rs ++ rs') d' F' k' Γ' := by
  obtain ⟨s₁, hrun, hl, hs⟩ := h
  obtain ⟨s₂, hrun', hl', hs'⟩ := h' _ hl (hs hne)
  refine ⟨s₂, ?_, ?_, ?_⟩
  · rw [bindings_append]
    exact hrun.append (hrun'.of_settle hne)
  · rw [Cursor.after_append]
    exact hl'
  · rw [Cursor.after_append]
    exact hs'

/-- Tokens before a place that is reached, in a state of any kind. -/
theorem prepend (h : Runs (vs ++ us) c s ts (bindings rs) s')
    (h' : Reaches us (c.after ts) s' vs rs' d F k Γ) :
    Reaches us c s (ts ++ vs) (rs ++ rs') d F k Γ := by
  obtain ⟨s₂, hrun, hl, hs⟩ := h'
  refine ⟨s₂, ?_, ?_, ?_⟩
  · rw [bindings_append]
    exact h.append hrun
  · rw [Cursor.after_append]
    exact hl
  · rw [Cursor.after_append]
    exact hs

theorem cons (h : Runs (ts ++ us) c s [t] [r.binding] s')
    (h' : Reaches us (c.next t) s' ts rs d F k Γ) : Reaches us c s (t :: ts) (r :: rs) d F k Γ := by
  have hone : Runs (ts ++ us) c s [t] (bindings [r]) s' := h
  exact prepend hone h'

theorem read_prepend (h : ReadAs (vs ++ us) c s ts rs)
    (h' : ∀ s' : ScopeState, s'.core = s.core → Reaches us (c.after ts) s' vs rs' d F k Γ) :
    Reaches us c s (ts ++ vs) (rs ++ rs') d F k Γ := by
  obtain ⟨s', hcore, hrun⟩ := h
  exact prepend hrun (h' s' hcore)

end Reaches

end LuaBundle.Lua
