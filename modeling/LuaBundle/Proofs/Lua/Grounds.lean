import LuaBundle.Proofs.Lua.Nested
import LuaBundle.Proofs.Lua.Waiting

/-!
# The walk between two tokens

Where a statement stands, what the walk holds between two of its tokens, and how single tokens,
brackets and blocks change that.
-/
namespace LuaBundle.Lua

/-- Where a statement stands: what is open around it, and what waits for the ends of the statements
around it. -/
structure Ground where
  blocks : List Nat
  opened : List Bool
  brackets : List Symbol
  outer : List Frame
  waits : List (Nat × Waiting)
  level : blocks.head?.getD 0 ≤ opened.length
  outside : ∀ w ∈ waits, w.1 < blocks.length

namespace Ground

variable {g : Ground} {own : Option Waiting} {b : Symbol}

/-- The whole chunk. -/
def chunk : Ground := ⟨[], [], [], [], [], Nat.le_refl 0, nofun⟩

/-- What waits for the end of the statement itself. -/
def pending (g : Ground) (own : Option Waiting) : List (Nat × Waiting) :=
  own.toList.map fun action => (g.blocks.length, action)

/-- Inside a bracket. -/
def push (g : Ground) (b : Symbol) : Ground where
  blocks := g.blocks
  opened := false :: g.opened
  brackets := b :: g.brackets
  outer := g.outer
  waits := g.waits
  level := Nat.le_succ_of_le g.level
  outside := g.outside

/-- Inside a block, around which `frames` hold the scope. -/
def block (g : Ground) (own : Option Waiting) (frames : List Frame) : Ground where
  blocks := g.opened.length :: g.blocks
  opened := g.opened
  brackets := g.brackets
  outer := frames
  waits := g.waits ++ g.pending own
  level := Nat.le_refl _
  outside := by
    intro w hw
    rcases List.mem_append.mp hw with hw | hw
    · exact Nat.lt_succ_of_lt (g.outside w hw)
    · obtain ⟨action, -, rfl⟩ := List.mem_map.mp hw
      exact Nat.lt_succ_self _

/-- No bracket is open around the statement since its block began. -/
def AtLevel (g : Ground) : Prop := Cursor.AtLevel g.blocks g.opened

def braced (g : Ground) : Bool := g.brackets.head? == some .braceOpen

/-- A bracket is open around the statement since its block began. -/
def Deep (g : Ground) : Prop := g.blocks.head?.getD 0 < g.opened.length

theorem deep_push (g : Ground) (b : Symbol) : (g.push b).Deep := Nat.lt_succ_of_le g.level

theorem map_pending (g : Ground) (own : Option Waiting) :
    (g.pending own).map Prod.snd = own.toList := by
  rw [pending, List.map_map, Function.comp_def]
  exact List.map_id _

/-- A token as deep as the statement ends none around it, and the statement only if it seems to
begin one. -/
theorem ends_nothing {m : Mark} (hdepth : m.depth = g.blocks.length)
    (hstart : own ≠ none → m.start = false) :
    ∀ w ∈ g.waits ++ g.pending own, m.endsAt w.1 = false := by
  intro w hw
  rw [Mark.endsAt, hdepth]
  rcases List.mem_append.mp hw with hw | hw
  · have := g.outside w hw
    simp only [Bool.and_eq_false_imp, decide_eq_false_iff_not]
    omega
  · obtain ⟨action, haction, rfl⟩ := List.mem_map.mp hw
    have hown : own ≠ none := by
      rintro rfl
      cases haction
    rw [hstart hown]
    rfl

end Ground

/-- What the walk holds in front of `sites`. -/
structure Holds (g : Ground) (own : Option Waiting) (x : View) (k : Nat) (sites : List Site)
    (s : ScopeState) : Prop where
  frames : Frames g.outer own x.env x.later s.frames
  declared : s.declared = k
  brackets : s.brackets = g.brackets
  braced : x.braced = g.braced
  loops : s.loops = x.loops.map Env.entries
  waiting : s.waiting = due sites (g.waits ++ g.pending own)

/-- The same, with the layout, in front of `ts`. -/
structure Sees (g : Ground) (own : Option Waiting) (x : View) (k : Nat) (ts : List Token)
    (c : Cursor) (s : ScopeState) : Prop where
  holds : Holds g own x k (c.sites ts) s
  stands : c.Stands g.blocks g.opened x.loops.length

namespace Holds

variable {g : Ground} {own : Option Waiting} {x : View} {k : Nat} {sites sites' : List Site}
  {s s' : ScopeState} {frames : List Frame}

theorem of_core (h : Holds g own x k sites s) (hcore : s'.core = s.core) :
    Holds g own x k sites s' := by
  obtain ⟨hframes, hdeclared, hbrackets, hloops, hwaiting⟩ := ScopeState.core_eq_iff.mp hcore
  refine ⟨?_, hdeclared.trans h.declared, hbrackets.trans h.brackets, h.braced,
    hloops.trans h.loops, hwaiting.trans h.waiting⟩
  rw [hframes]
  exact h.frames

theorem of_due (h : Holds g own x k sites s)
    (hdue : due sites (g.waits ++ g.pending own) = due sites' (g.waits ++ g.pending own)) :
    Holds g own x k sites' s :=
  ⟨h.frames, h.declared, h.brackets, h.braced, h.loops, h.waiting.trans hdue⟩

theorem env_eq (h : Holds g none x k sites s) : x.env = x.later := h.frames.eq_of_none

/-- A block begins. -/
theorem enter (h : Holds g own x k sites s) :
    Holds (g.block own s.frames) none (x.opened []) k sites s.enter where
  frames := h.frames.enter
  declared := h.declared
  brackets := h.brackets
  braced := h.braced
  loops := h.loops
  waiting := by
    show s.waiting = due sites (g.waits ++ g.pending own ++ [])
    rw [List.append_nil, h.waiting]

theorem number (h : Holds g own x k sites s) (count : Nat) :
    Holds g own x (k + count) sites (s.number count) :=
  ⟨h.frames, congrArg (· + count) h.declared, h.brackets, h.braced, h.loops, h.waiting⟩

theorem activate (h : Holds g none x k sites s) (vs : List Variable) :
    Holds g none (x.opened vs) k sites (s.activate (Env.entries vs)) := by
  have hframes := h.frames.activate vs
  exact ⟨hframes, h.declared, h.brackets, h.braced, h.loops, h.waiting⟩

theorem declare (h : Holds g none x k sites s) (ns : List Name) :
    Holds g none (x.opened (Lua.declared k ns)) (k + ns.length) sites (s.declare ns) := by
  rw [ScopeState.declare, h.declared]
  exact (h.number ns.length).activate _

theorem receive (h : Holds g own x k sites s) (vs : List Variable) :
    Holds (g.block own s.frames) none (x.opened vs) (k + vs.length) sites (s.receive vs) :=
  (h.enter.number vs.length).activate vs

end Holds

/-- Where something waits for the end of the statement, the next token does not seem to end it. -/
def Hushed (own : Option Waiting) (c : Cursor) (ts : List Token) : Prop :=
  own ≠ none → ∀ t ∈ ts.head?, (c.site t).mark.start = false

namespace Hushed

variable {own : Option Waiting} {c : Cursor} {t p : Token} {ts us : List Token}

theorem of_none : Hushed none c ts := fun h => absurd rfl h

theorem head (h : Hushed own c (t :: ts)) : own ≠ none → (c.site t).mark.start = false :=
  fun hown => h hown t rfl

theorem cons (h : (c.site t).mark.start = false) : Hushed own c (t :: ts) := by
  intro _ t' ht'
  cases ht'
  exact h

theorem append (h : Hushed own c (ts ++ us)) : Hushed own c ts := by
  intro hown t ht
  refine h hown t ?_
  rw [Option.mem_def] at ht ⊢
  rw [List.head?_append, ht, Option.some_or]

theorem of_joins (hp : c.before = some p) (ho : c.nesting.openedBlock = false)
    (h : ∀ t ∈ ts.head?, p.joins t = true) : Hushed own c ts :=
  fun _ t ht => Cursor.mark_of_joins (h t ht) hp ho

theorem of_deep (hd : c.nesting.Deep) (hp : c.before = some p) : Hushed own c ts :=
  fun _ t _ => Cursor.mark_of_deep hd hp t

end Hushed

/-! ### Single tokens -/

theorem Token.closesBlock_of_flat {t : Token} (h : t.isFlat = true) : t.closesBlock = false := by
  cases t with
  | keyword k => cases k <;> first | rfl | cases h
  | symbol s => rfl
  | name _ | number _ | string _ | comment _ => rfl

theorem Token.closesBlock_of_closes {t : Token} (h : t.closesBracket = true) :
    t.closesBlock = false := by
  cases t with
  | symbol s => rfl
  | keyword _ | name _ | number _ | string _ | comment _ => cases h

namespace Sees

variable {g : Ground} {own : Option Waiting} {x : View} {k : Nat} {us ts : List Token} {t : Token}
  {c : Cursor} {s s' : ScopeState}

theorem depth (h : Sees g own x k ts c s) (ht : t.closesBlock = false) :
    (c.site t).mark.depth = g.blocks.length := by
  have hblocks : c.nesting.blocks = g.blocks := congrArg Nesting.blocks h.stands
  show c.nesting.depthOf t = _
  rw [Nesting.depthOf, ht, hblocks]
  rfl

theorem deep (h : Sees g own x k ts c s) (hg : g.Deep) : c.nesting.Deep := by
  have hblocks : c.nesting.blocks = g.blocks := congrArg Nesting.blocks h.stands
  have hbrackets : c.nesting.brackets = g.opened := congrArg Nesting.brackets h.stands
  rw [Nesting.Deep, hblocks, hbrackets]
  exact hg

/-- A token that ends no statement leaves what waits. -/
theorem due_next (h : Sees g own x k (t :: us) c s) (ht : t.closesBlock = false)
    (hhush : Hushed own c (t :: us)) :
    due (c.sites (t :: us)) (g.waits ++ g.pending own) =
      due ((c.next t).sites us) (g.waits ++ g.pending own) :=
  due_skip [c.site t] fun w hw site hsite => by
    rw [List.mem_singleton.mp hsite]
    exact Ground.ends_nothing (h.depth ht) hhush.head w hw

theorem idle (h : Sees g own x k (t :: us) c s) (ht : t.closesBlock = false)
    (hhush : Hushed own c (t :: us)) : s.Idle c.index := by
  intro w hw
  rw [h.holds.waiting, h.due_next ht hhush] at hw
  have := index_le_of_mem_due hw
  rw [Cursor.next_index] at this
  omega

theorem next (h : Sees g own x k (t :: us) c s) (ht : t.closesBlock = false)
    (hhush : Hushed own c (t :: us)) : Holds g own x k ((c.next t).sites us) s :=
  h.holds.of_due (h.due_next ht hhush)

end Sees

/-! ### Runs -/

/-- The walk passes `ts` with these roles and then sees this. -/
def Passes (g : Ground) (us : List Token) (c : Cursor) (s : ScopeState) (ts : List Token)
    (rs : List Role) (own : Option Waiting) (x : View) (k : Nat) : Prop :=
  ∃ s', Runs us c s ts (bindings rs) s' ∧ Sees g own x k us (c.after ts) s'

namespace Passes

variable {g : Ground} {own own' : Option Waiting} {x x' : View} {k k' : Nat}
  {us vs ts : List Token} {t : Token} {rs rs' : List Role} {r : Role} {c : Cursor}
  {s s' : ScopeState}

theorem nil (h : Sees g own x k us c s) : Passes g us c s [] [] own x k := ⟨s, .nil, h⟩

theorem append (h : Passes g (vs ++ us) c s ts rs own x k)
    (h' : ∀ s', Sees g own x k (vs ++ us) (c.after ts) s' →
      Passes g us (c.after ts) s' vs rs' own' x' k') :
    Passes g us c s (ts ++ vs) (rs ++ rs') own' x' k' := by
  obtain ⟨s₁, hrun, hsees⟩ := h
  obtain ⟨s₂, hrun', hsees'⟩ := h' s₁ hsees
  refine ⟨s₂, ?_, ?_⟩
  · rw [bindings_append]
    exact hrun.append hrun'
  · rw [Cursor.after_append]
    exact hsees'

theorem cons (h : Passes g (ts ++ us) c s [t] [r] own x k)
    (h' : ∀ s', Sees g own x k (ts ++ us) (c.next t) s' →
      Passes g us (c.next t) s' ts rs own' x' k') :
    Passes g us c s (t :: ts) (r :: rs) own' x' k' := by
  show Passes g us c s ([t] ++ ts) ([r] ++ rs) own' x' k'
  exact append h h'

/-- A run before a place that is passed, possibly on another ground. -/
theorem prepend (h : Runs (vs ++ us) c s ts (bindings rs) s')
    (h' : Passes g us (c.after ts) s' vs rs' own x k) :
    Passes g us c s (ts ++ vs) (rs ++ rs') own x k := by
  obtain ⟨s₂, hrun, hsees⟩ := h'
  refine ⟨s₂, ?_, ?_⟩
  · rw [bindings_append]
    exact h.append hrun
  · rw [Cursor.after_append]
    exact hsees

theorem prepend_one (h : Runs (ts ++ us) c s [t] [r.binding] s')
    (h' : Passes g us (c.next t) s' ts rs own x k) :
    Passes g us c s (t :: ts) (r :: rs) own x k := by
  obtain ⟨s₂, hrun, hsees⟩ := h'
  exact ⟨s₂, .cons h hrun, hsees⟩

theorem of_settle (hne : ts ++ us ≠ []) (h : Passes g us c (s.settle c.index) ts rs own x k) :
    Passes g us c s ts rs own x k := by
  obtain ⟨s', hrun, hsees⟩ := h
  exact ⟨s', hrun.of_settle hne, hsees⟩

/-- A token that the walk passes without a change. -/
theorem inert (ht : t.isInert = true) (h : Sees g own x k (t :: us) c s)
    (hhush : Hushed own c (t :: us)) : Passes g us c s [t] [.other] own x k := by
  have hflat := Token.isFlat_of_isInert ht
  have hblock := Token.closesBlock_of_flat hflat
  exact ⟨s, .inert ht (h.idle hblock hhush), h.next hblock hhush, (h.stands.flat hflat).stands⟩

theorem cons_inert (ht : t.isInert = true) (h : Sees g own x k (t :: (ts ++ us)) c s)
    (hhush : Hushed own c (t :: (ts ++ us)))
    (h' : ∀ s', Sees g own x k (ts ++ us) (c.next t) s' →
      Passes g us (c.next t) s' ts rs own' x' k') :
    Passes g us c s (t :: ts) (.other :: rs) own' x' k' :=
  cons (inert ht h hhush) h'

end Passes

namespace Sees

variable {g : Ground} {own own' : Option Waiting} {x y : View} {k k' : Nat} {us ts : List Token}
  {t e : Token} {b : Symbol} {rs : List Role} {c : Cursor} {s s' : ScopeState}

/-- Inside a bracket. -/
theorem opened (h : Sees g own x k (.symbol b :: us) c s)
    (hb : (Token.symbol b).opensBracket = true) (hhush : Hushed own c (.symbol b :: us)) :
    Sees (g.push b) own (x.inside (b == .braceOpen)) k us (c.next (.symbol b))
      { s with brackets := b :: s.brackets } := by
  obtain ⟨hframes, hdeclared, hbrackets, -, hloops, hwaiting⟩ := h.next rfl hhush
  refine ⟨⟨hframes, hdeclared, ?_, ?_, hloops, hwaiting⟩, (h.stands.opened hb).stands⟩
  · show b :: s.brackets = b :: g.brackets
    rw [hbrackets]
  · show (b == .braceOpen) = ((b :: g.brackets).head? == some .braceOpen)
    rw [List.head?_cons]
    cases b <;> rfl

/-- Behind a bracket; `x` is the view in front of it. -/
theorem closed (h : Sees (g.push b) own y k (t :: us) c s) (ht : t.closesBracket = true)
    (hbraced : x.braced = g.braced) (hbefore : ∃ p, c.before = some p) :
    Runs us c s [t] [.unbound] { s with brackets := s.brackets.tail } ∧
      Sees g own (y.inside x.braced) k us (c.next t) { s with brackets := s.brackets.tail } := by
  obtain ⟨p, hp⟩ := hbefore
  have hhush : Hushed own c (t :: us) := .of_deep (h.deep (g.deep_push b)) hp
  have hblock := Token.closesBlock_of_closes ht
  obtain ⟨hframes, hdeclared, hbrackets, -, hloops, hwaiting⟩ := h.next hblock hhush
  refine ⟨.of_idle_step (h.idle hblock hhush) (step_close ht) rfl,
    ⟨hframes, hdeclared, ?_, hbraced, hloops, hwaiting⟩, (h.stands.closed ht).stands⟩
  show s.brackets.tail = g.brackets
  rw [hbrackets]
  rfl

end Sees

/-- What is in brackets, with the brackets. -/
theorem Passes.group {g : Ground} {own own' : Option Waiting} {x y : View} {k k' : Nat}
    {us ts : List Token} {e : Token} {b : Symbol} {rs : List Role} {c : Cursor} {s : ScopeState}
    (h : Sees g own x k (.symbol b :: (ts ++ [e] ++ us)) c s)
    (hb : (Token.symbol b).opensBracket = true) (he : e.closesBracket = true)
    (hhush : Hushed own c (.symbol b :: (ts ++ [e] ++ us)))
    (inner : ∀ s', Sees (g.push b) own (x.inside (b == .braceOpen)) k (ts ++ (e :: us))
        (c.next (.symbol b)) s' →
      Passes (g.push b) (e :: us) (c.next (.symbol b)) s' ts rs own' y k') :
    Passes g us c s (.symbol b :: (ts ++ [e])) (.other :: (rs ++ [.other])) own'
      (y.inside x.braced) k' := by
  have hin := h.opened hb hhush
  rw [List.append_assoc, List.singleton_append] at hin
  obtain ⟨s₁, hrun, hsees⟩ := inner _ hin
  have hbefore := Cursor.exists_before_after (c := c.next (.symbol b)) rfl ts
  obtain ⟨hclose, hout⟩ := hsees.closed he h.holds.braced hbefore
  have hopen : Runs (ts ++ [e] ++ us) c s [.symbol b] [.unbound]
      { s with brackets := b :: s.brackets } :=
    .of_idle_step (h.idle rfl hhush) (step_open hb) rfl
  refine ⟨{ s₁ with brackets := s₁.brackets.tail }, ?_, ?_⟩
  · rw [bindings_cons, bindings_append]
    exact .cons hopen (hrun.append hclose)
  · rw [Cursor.after_cons, Cursor.after_append]
    exact hout

/-! ### Blocks -/

/-- The walk holds of a view what is in scope, the loops and the bracket. -/
theorem Holds.of_eq {g : Ground} {own : Option Waiting} {x y : View} {k : Nat} {sites : List Site}
    {s : ScopeState} (h : Holds g own x k sites s) (henv : y.env = x.env)
    (hlater : y.later = x.later) (hloops : y.loops = x.loops) (hbraced : y.braced = x.braced) :
    Holds g own y k sites s := by
  obtain ⟨hframes, hdeclared, hbrackets, hbraced', hloops', hwaiting⟩ := h
  refine ⟨?_, hdeclared, hbrackets, hbraced.trans hbraced', ?_, hwaiting⟩
  · rw [henv, hlater]
    exact hframes
  · rw [hloops]
    exact hloops'

theorem Sees.of_eq {g : Ground} {own : Option Waiting} {x y : View} {k : Nat} {ts : List Token}
    {c : Cursor} {s : ScopeState} (h : Sees g own x k ts c s) (henv : y.env = x.env)
    (hlater : y.later = x.later) (hloops : y.loops = x.loops) (hbraced : y.braced = x.braced) :
    Sees g own y k ts c s := by
  refine ⟨h.holds.of_eq henv hlater hloops hbraced, ?_⟩
  rw [hloops]
  exact h.stands

namespace Sees

variable {g : Ground} {own inner : Option Waiting} {x y : View} {k : Nat} {us ts : List Token}
  {t : Token} {c : Cursor} {s : ScopeState} {G : List Frame}

theorem begins_closer {own : Option Waiting} (h : Sees g own y k (t :: us) c s) (hlevel : g.AtLevel)
    (ht : t.closesBlock = true) : (c.site t).mark.start = true := by
  show c.nesting.starts c.before t = true
  unfold Nesting.starts
  split
  · rfl
  · rw [h.stands.atStatementLevel hlevel, ht]
    rfl

/-- The end of a block is the end of its last statement and of the statement around it. -/
theorem settle_closer (h : Sees (g.block own G) inner y k (t :: us) c s)
    (ht : t.closesBlock = true) :
    s.settle c.index = { s with waiting := due ((c.next t).sites us) g.waits }.performAll
      (own.toList ++ inner.toList) := by
  have hstart := h.begins_closer rfl ht
  have hdepth : (c.site t).mark.depth = g.blocks.length := by
    have hblocks : c.nesting.blocks = g.opened.length :: g.blocks :=
      congrArg Nesting.blocks h.stands
    show c.nesting.depthOf t = _
    rw [Nesting.depthOf, ht, hblocks]
    rfl
  have hends : ∀ depth, (c.site t).mark.endsAt depth = decide (g.blocks.length ≤ depth) := by
    intro depth
    rw [Mark.endsAt, hstart, hdepth, Bool.true_and]
  have hsettle := ScopeState.settle_due g.waits
    (g.pending own ++ (g.block own G).pending inner)
    (by rw [← List.append_assoc]; exact h.holds.waiting) ?_ ?_
  · rw [hsettle, List.map_append, Ground.map_pending, Ground.map_pending]
  · intro w hw
    have := g.outside w hw
    rw [hends, decide_eq_false_iff_not]
    omega
  · intro w hw
    rw [hends, decide_eq_true_eq]
    rcases List.mem_append.mp hw with hw | hw
    · obtain ⟨action, -, rfl⟩ := List.mem_map.mp hw
      exact Nat.le_refl _
    · obtain ⟨action, -, rfl⟩ := List.mem_map.mp hw
      exact Nat.le_succ _

/-- A block is left. -/
theorem close (h : Sees (g.block own G) inner y k (t :: us) c s) (ht : t.closesBlock = true)
    (hG : Frames g.outer own x.env x.later G) :
    Holds g none { y with env := x.later, later := x.later } k ((c.next t).sites us)
      (s.settle c.index).leave := by
  obtain ⟨frames, hperform, hframes⟩ := Frames.perform_leave
    (s := { s with waiting := due ((c.next t).sites us) g.waits }) h.holds.frames hG
  rw [h.settle_closer ht, hperform]
  refine ⟨hframes, h.holds.declared, h.holds.brackets, h.holds.braced, h.holds.loops, ?_⟩
  rw [Ground.pending, Option.toList_none, List.map_nil, List.append_nil]

end Sees

/-- A token that closes a block and opens none. -/
theorem Passes.closer {g : Ground} {own inner : Option Waiting} {x y : View} {k : Nat}
    {us : List Token} {t : Token} {c : Cursor} {s : ScopeState} {G : List Frame}
    (h : Sees (g.block own G) inner y k (t :: us) c s)
    (ht : t = .keyword .endKw ∨ t = .keyword .elseifKw)
    (hG : Frames g.outer own x.env x.later G) :
    Passes g us c s [t] [.other] none { y with env := x.later, later := x.later } k := by
  have hcloses : t.closesBlock = true := by rcases ht with rfl | rfl <;> rfl
  have hleaves : t.leavesBlock = true := by rcases ht with rfl | rfl <;> rfl
  refine ⟨(s.settle c.index).leave, .of_step ?_ rfl, h.close hcloses hG, ?_⟩
  · rcases ht with rfl | rfl <;> rfl
  · exact (h.stands.left hleaves).stands

/-! ### Headers of functions -/

section Headers

variable {c : Cursor} {ts us : List Token} {t : Token}

theorem Cursor.depth_flats (hts : ∀ t ∈ ts, t.isFlat = true) :
    ∀ site ∈ c.sites ts, site.mark.depth = c.nesting.blocks.length := by
  induction ts generalizing c with
  | nil =>
    intro site hsite
    cases hsite
  | cons t ts ih =>
    obtain ⟨ht, hts⟩ := List.forall_mem_cons.mp hts
    refine List.forall_mem_cons.mpr ⟨?_, ?_⟩
    · show c.nesting.depthOf t = _
      rw [Nesting.depthOf, Token.closesBlock_of_flat ht]
      rfl
    · have hrest := ih (c := c.next t) hts
      rw [next_flat ht] at hrest ⊢
      exact hrest

theorem Cursor.quiet_flats {p : Token} (hts : ∀ t ∈ ts, t.isFlat = true) (hdeep : c.nesting.Deep)
    (hp : c.before = some p) : Quiet c ts := by
  induction ts generalizing c p with
  | nil =>
    intro site hsite
    cases hsite
  | cons t ts ih =>
    obtain ⟨ht, hts⟩ := List.forall_mem_cons.mp hts
    refine List.forall_mem_cons.mpr ⟨mark_of_deep hdeep hp t, ?_⟩
    have hnesting : (c.next t).nesting.Deep := by
      rw [next_flat ht]
      exact hdeep
    exact ih hts hnesting rfl

theorem Params.inner_flat (ps : Params) :
    ∃ ts, ps.tokens = .symbol .parenOpen :: ts ++ [.symbol .parenClose] ∧
      ∀ t ∈ ts, t.isFlat = true := by
  refine ⟨_, rfl, forall_mem_intersperse rfl fun t ht => ?_⟩
  rcases List.mem_append.mp ht with ht | ht
  · obtain ⟨n, -, rfl⟩ := List.mem_map.mp ht
    rfl
  · split at ht
    · rw [List.mem_singleton.mp ht]
      rfl
    · cases ht

end Headers

/-- No token of a function's header ends a statement. -/
theorem Sees.header {g : Ground} {own : Option Waiting} {x : View} {k : Nat} {us : List Token}
    {c : Cursor} {s : ScopeState} (ts : List Token) (ps : Params)
    (h : Sees g own x k (.keyword .functionKw :: ts ++ ps.tokens ++ us) c s)
    (hts : ∀ t ∈ ts, t.isFlat = true) (hhush : Hushed own c [.keyword .functionKw])
    (hname : own ≠ none → ts = []) :
    Holds g own x k ((c.after (.keyword .functionKw :: ts ++ ps.tokens)).sites us) s := by
  obtain ⟨inner, hparams, hinner⟩ := ps.inner_flat
  let c₁ := (c.next (.keyword .functionKw)).after ts
  have hword : (c.next (.keyword .functionKw)).nesting =
      ⟨g.blocks, g.opened, true, x.loops.length, false⟩ := by
    rw [Cursor.nesting_next, h.stands]
    rfl
  have hcalm : c₁.nesting.calm = ⟨g.blocks, g.opened, true, x.loops.length, false⟩ := by
    rw [Cursor.calm_after_flat hts, hword]
    rfl
  have hopen : (c₁.next (.symbol .parenOpen)).nesting =
      ⟨g.blocks, true :: g.opened, false, x.loops.length, false⟩ := h.stands.opened_params hts
  have hclose : ((c₁.next (.symbol .parenOpen)).after inner).nesting.calm =
      ⟨g.blocks, true :: g.opened, false, x.loops.length, false⟩ := by
    rw [Cursor.calm_after_flat hinner, hopen]
    rfl
  have hdeep : (c₁.next (.symbol .parenOpen)).nesting.Deep := by
    rw [hopen]
    exact Nat.lt_succ_of_le g.level
  have hsites : ∀ site ∈ c.sites (.keyword .functionKw :: ts ++ ps.tokens),
      site.mark.depth = g.blocks.length ∧ (own ≠ none → site.mark.start = false) := by
    have hparen : (c₁.site (.symbol .parenOpen)).mark.depth = g.blocks.length := by
      show c₁.nesting.blocks.length = _
      rw [show c₁.nesting.blocks = g.blocks from congrArg Nesting.blocks hcalm]
    intro site hsite
    rw [hparams, Cursor.sites_append, List.cons_append, Cursor.sites, List.mem_append,
      List.mem_cons] at hsite
    rcases hsite with (rfl | hsite) | hsite
    · exact ⟨h.depth rfl, hhush.head⟩
    · refine ⟨by rw [Cursor.depth_flats hts site hsite, hword], fun hown => ?_⟩
      rw [hname hown] at hsite
      cases hsite
    rw [Cursor.sites, Cursor.sites_append, List.mem_cons, List.mem_append, Cursor.sites,
      Cursor.sites, List.mem_singleton] at hsite
    rcases hsite with rfl | hsite | rfl
    · refine ⟨hparen, fun hown => ?_⟩
      obtain rfl := hname hown
      exact Cursor.mark_of_joins (p := .keyword .functionKw) rfl rfl (by
        show (c.next (.keyword .functionKw)).nesting.openedBlock = false
        rw [hword])
    · refine ⟨?_, fun _ => Cursor.quiet_flats hinner hdeep rfl site hsite⟩
      have hdepth := Cursor.depth_flats hinner site hsite
      rw [hdepth, show c.after (.keyword .functionKw :: ts) = c₁ from rfl, hopen]
    · refine ⟨?_, fun _ => ?_⟩
      · show ((c₁.next (.symbol .parenOpen)).after inner).nesting.blocks.length = _
        rw [show ((c₁.next (.symbol .parenOpen)).after inner).nesting.blocks = g.blocks from
          congrArg Nesting.blocks hclose]
      · obtain ⟨p, hp⟩ := Cursor.exists_before_after (c := c₁.next (.symbol .parenOpen)) rfl inner
        refine Cursor.mark_of_deep (hdeep.of_calm ?_) hp _
        rw [hclose, hopen]
        rfl
  refine h.holds.of_due ?_
  rw [Cursor.sites_append]
  refine due_skip _ fun w hw site hsite => ?_
  obtain ⟨hdepth, hstart⟩ := hsites site hsite
  exact Ground.ends_nothing hdepth hstart w hw

end LuaBundle.Lua
