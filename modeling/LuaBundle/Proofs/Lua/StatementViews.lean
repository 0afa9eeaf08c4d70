import LuaBundle.Proofs.Lua.ExpressionViews

/-!
# Statements in a view

The walk passes every statement and every block as the view says. What waits for the end of a
statement has taken effect before the next one begins, or the next one does not seem to begin.
-/
namespace LuaBundle.Lua

/-- The walk passes a statement, behind what its first token ends. -/
def ViewsStatement (t : Tree .stmt) : Prop :=
  ∀ g own x k us c s, Between g own x k (t.tokens ++ us) c s → Succeeds us →
    (own ≠ none → x.hushes t = true) → Hushed own c t.tokens →
    ∃ own', (own' ≠ none → EndsExpression t.tokens) ∧
      Passes g us c s t.tokens (t.seen x k) own' (t.left x k) (k + t.decls)

/-- The walk passes the rest of an `if`, from the end of its first block on. -/
def ViewsTail (f : Tree .tail) : Prop :=
  ∀ g x k us c s inner y G, Sees (g.block none G) inner y k (f.tokens ++ us) c s →
    Frames g.outer none x.env x.later G → y.loops = x.loops → y.braced = x.braced →
    Passes g us c s f.tokens (f.seen x k) none ((x.between x.env).skip (f.strays true))
      (k + f.decls)

section

variable {g : Ground} {own own' : Option Waiting} {x y : View} {k : Nat} {us ts : List Token}
  {t : Token} {c : Cursor} {s : ScopeState} {rs : List Role}

theorem Passes.of_eq (h : Passes g us c s ts rs own x k) (henv : y.env = x.env)
    (hlater : y.later = x.later) (hloops : y.loops = x.loops) (hbraced : y.braced = x.braced) :
    Passes g us c s ts rs own y k := by
  obtain ⟨s', hrun, hsees⟩ := h
  exact ⟨s', hrun, hsees.of_eq henv hlater hloops hbraced⟩

/-- Flat tokens that end nothing. -/
theorem Sees.flats (h : Sees g own x k (ts ++ us) c s) (hts : ∀ t ∈ ts, t.isFlat = true)
    (hquiet : own ≠ none → Quiet c ts) : Sees g own x k us (c.after ts) s := by
  have hblocks : c.nesting.blocks = g.blocks := congrArg Nesting.blocks h.stands
  refine ⟨h.holds.of_due ?_, h.stands.flats hts⟩
  rw [Cursor.sites_append]
  refine due_skip _ fun w hw site hsite => ?_
  refine Ground.ends_nothing ?_ (fun hown => hquiet hown site hsite) w hw
  rw [Cursor.depth_flats hts site hsite, hblocks]

theorem keep_none (closes : Bool) : keep none closes = none := by cases closes <;> rfl

theorem own_none {t : Tree .stmt} (hown : own ≠ none → x.hushes t = true)
    (ht : x.hushes t = false) : own = none := by
  by_contra h
  rw [hown h] at ht
  cases ht

/-! ### Where statements begin -/

namespace Between

/-- A token that may follow a statement begins the next one, unless it is the `do` of a loop. -/
theorem starts (h : Between g own x k ts c s) (hown : own ≠ none) (ht : t.mayFollow = true)
    (hdo : t = .keyword .doKw → x.loops = []) : (c.site t).mark.start = true := by
  obtain ⟨-, p, hp, hends⟩ := h.behind hown
  have hheaders : c.nesting.loopHeaders = x.loops.length :=
    congrArg Nesting.loopHeaders h.stands
  show c.nesting.starts c.before t = true
  rw [hp, Nesting.starts, h.stands.atStatementLevel h.atLevel, hends]
  cases hc : t.closesBlock with
  | true => rfl
  | false =>
    simp only [Token.mayFollow, hc, Bool.false_or, Bool.and_eq_true, Bool.not_eq_true', bne_iff_ne,
      ne_eq] at ht
    obtain ⟨⟨hcontinues, hthen⟩, hin⟩ := ht
    have hgoes : c.nesting.goesOn t = false := by
      rw [Nesting.goesOn.eq_def]
      split
      · exact absurd rfl hthen
      · exact absurd rfl hin
      · rw [hheaders, hdo rfl]
        rfl
      · rfl
    simp [hcontinues, hgoes]

/-- What the token in front ends has taken effect. -/
theorem settle (h : Between g own x k (t :: us) c s) (ht : t.closesBlock = false)
    (hstart : own ≠ none → (c.site t).mark.start = true) :
    Between g none x.settled k (t :: us) c (s.settle c.index) := by
  have hdepth := h.depth ht
  have houtside : ∀ w ∈ g.waits, (c.site t).mark.endsAt w.1 = false := by
    intro w hw
    have := g.outside w hw
    rw [Mark.endsAt, hdepth]
    simp only [Bool.and_eq_false_imp, decide_eq_false_iff_not]
    omega
  have hended : ∀ w ∈ g.pending own, (c.site t).mark.endsAt w.1 = true := by
    intro w hw
    obtain ⟨action, haction, rfl⟩ := List.mem_map.mp hw
    have hown : own ≠ none := by
      rintro rfl
      cases haction
    rw [Mark.endsAt, hstart hown, hdepth]
    simp
  have hdue : due (c.sites (t :: us)) g.waits = due ((c.next t).sites us) g.waits :=
    due_skip [c.site t] fun w hw site hsite => by
      rw [List.mem_singleton.mp hsite]
      exact houtside w hw
  have hsettle := ScopeState.settle_due _ _ h.holds.waiting houtside hended
  rw [Ground.map_pending] at hsettle
  obtain ⟨frames, hperform, hframes⟩ := Frames.perform_own
    (s := { s with waiting := due ((c.next t).sites us) g.waits }) h.holds.frames
  rw [hsettle, hperform]
  refine ⟨⟨⟨hframes, h.holds.declared, h.holds.brackets, h.holds.braced, h.holds.loops, ?_⟩,
    h.stands⟩, h.atLevel, h.begins, h.before, absurd rfl⟩
  rw [Ground.pending, Option.toList_none, List.map_nil, List.append_nil, hdue]

theorem not_selecting (h : Between g own x k ts c s) : ¬ c.Selecting := by
  rintro ⟨p, hp, hsel⟩
  rw [(h.before p hp).1] at hsel
  cases hsel

/-- Names in a target list at the beginning of a statement are no keys. -/
theorem unkeyed (h : Between g own x k ts c s) (n : Name) : (Tree.name n).Unkeyed c := by
  by_cases hsemi : c.before = some (.symbol .semicolon)
  · refine .inl ?_
    show c.nesting.starts c.before (.name n) = true
    rw [hsemi, Nesting.starts, h.stands.atStatementLevel h.atLevel]
    simp
  · refine .inr fun p hp => ?_
    obtain ⟨-, hbrace, hcomma⟩ := h.before p hp
    refine ⟨hbrace, ?_⟩
    unfold Token.isSeparator
    split
    · exact absurd rfl hcomma
    · exact absurd hp hsemi
    · rfl

end Between

namespace Tree

/-- A statement begins with a token that shows it, with a parenthesis, or with a `do`. -/
theorem head_of_stmt (t : Tree .stmt) : (∃ b, t = .doEnd b) ∨ (∀ x, View.hushes x t = t.opensParen) ∧
    ∃ p ts, t.tokens = p :: ts ∧ p.closesBlock = false ∧
      (p = .symbol .parenOpen ∨ p.mayFollow = true ∧ p ≠ .keyword .doKw) := by
  have hheaded : ∀ {ts : List Token} (us : List Token), (∃ p, ts.head? = some p ∧
      (p.isName = true ∨ p = .symbol .parenOpen)) → ∃ p ps, ts ++ us = p :: ps ∧
        p.closesBlock = false ∧
        (p = .symbol .parenOpen ∨ p.mayFollow = true ∧ p ≠ .keyword .doKw) := by
    rintro ts us ⟨p, hp, hhead⟩
    obtain ⟨ps, rfl⟩ := List.head?_eq_some_iff.mp hp
    refine ⟨p, ps ++ us, rfl, ?_⟩
    rcases hhead with hname | rfl
    · cases p with
      | name n => exact ⟨rfl, .inr ⟨rfl, nofun⟩⟩
      | keyword _ | number _ | string _ | comment _ | symbol _ => cases hname
    · exact ⟨rfl, .inl rfl⟩
  cases t with
  | doEnd b => exact .inl ⟨b, rfl⟩
  | assign vs es => exact .inr ⟨fun _ => rfl, hheaded _ vs.headed⟩
  | callOnly call =>
    obtain ⟨p, ps, htokens, hp⟩ := hheaded [] call.headed
    rw [List.append_nil] at htokens
    exact .inr ⟨fun _ => rfl, p, ps, htokens, hp⟩
  | _ => exact .inr ⟨fun _ => rfl, _, _, rfl, rfl, .inr ⟨rfl, by decide⟩⟩

end Tree

/-! ### Waiting for the end of a statement -/

namespace ScopeState

/-- An action that waits for the end of a statement at this depth, if that comes. -/
def await (s : ScopeState) (sites : List Site) (depth : Nat) (action : Waiting) : ScopeState :=
  { s with waiting := s.waiting ++ due sites [(depth, action)] }

theorem await_eq (s : ScopeState) (sites : List Site) (depth : Nat) (action : Waiting) :
    (match sites.find? (·.mark.endsAt depth) with
      | some stop => s.wait stop.index action
      | none => s) = s.await sites depth action := by
  unfold await due
  cases h : sites.find? (·.mark.endsAt depth) with
  | none => simp [h]
  | some stop => simp [h, wait]

end ScopeState

theorem due_pending {sites : List Site} {waiting : List (Nat × Waiting)} (action : Waiting)
    (h : waiting = due sites (g.waits ++ g.pending none)) :
    waiting ++ due sites [(g.blocks.length, action)] =
      due sites (g.waits ++ g.pending (some action)) := by
  rw [h, ← due_append, List.append_assoc]
  rfl

/-- The declarations of a `local` statement with values wait for its end. -/
theorem localStatement_values (site : Site) (l : Local) (ls : List Local) :
    localStatement s site (c.sites (localTokens l ls ++ .symbol .assign :: ts)) =
      .ok (bindings (localRoles s.declared l ls),
        (s.number (1 + ls.length)).await (c.sites (localTokens l ls ++ .symbol .assign :: ts))
          site.mark.depth (.activate (s.frames.length - 1)
            (Env.entries (declared s.declared (l.name :: ls.map Local.name))))) := by
  have hnames : declareNames true s (c.sites (localTokens l ls ++ .symbol .assign :: ts)) = _ :=
    declareNames_locals l ls (.inl rfl) (by simp) (by simp)
  rw [localStatement, hnames]
  dsimp only
  have hsome : ¬ (Env.entries (declared s.declared (l.name :: ls.map Local.name))).isEmpty = true :=
    Bool.false_ne_true
  rw [if_neg hsome, startsWith_sites, List.head?_cons, beq_self_eq_true, if_pos rfl,
    ← ScopeState.await_eq]
  cases (c.sites (localTokens l ls ++ .symbol .assign :: ts)).find?
    (·.mark.endsAt site.mark.depth) <;> rfl

/-- The variables of a `local` statement wait for the end of its values. -/
theorem Holds.await_locals {sites : List Site} (h : Holds g none x k sites s) (vs : List Variable) :
    Holds g (some (.activate (s.frames.length - 1) (Env.entries vs))) (x.awaiting vs) k sites
      (s.await sites g.blocks.length (.activate (s.frames.length - 1) (Env.entries vs))) where
  frames := by
    obtain ⟨f, hs, hflat⟩ := h.frames.exists_of_none
    show Frames g.outer _ x.env (x.env.declare vs) s.frames
    rw [hs]
    exact .declaring vs hflat
  declared := h.declared
  brackets := h.brackets
  braced := h.braced
  loops := h.loops
  waiting := due_pending _ h.waiting

/-- Behind the body of a loop its scope waits for the end of the condition. -/
theorem Sees.until {inner : Option Waiting} {G : List Frame}
    (h : Sees (g.block none G) inner y k (.keyword .untilKw :: us) c s)
    (hG : Frames g.outer none x.env x.later G) (hbraced : y.braced = x.braced) :
    ∃ s', Runs us c s [.keyword .untilKw] [.unbound] s' ∧
      Sees g (some .leave) (x.untilFrom y) k us (c.next (.keyword .untilKw)) s' := by
  have hblocks : c.nesting.blocks = g.opened.length :: g.blocks := congrArg Nesting.blocks h.stands
  have hdepth : (c.site (.keyword .untilKw)).mark.depth = g.blocks.length := by
    show c.nesting.depthOf (.keyword .untilKw) = _
    rw [Nesting.depthOf, hblocks]
    rfl
  obtain ⟨frames, hperform, hframes⟩ := Frames.perform_own
    (s := { s with waiting := due ((c.next (.keyword .untilKw)).sites us) g.waits }) h.holds.frames
  have hsettle := h.settle_closer rfl
  rw [Option.toList_none, List.nil_append, hperform] at hsettle
  refine ⟨(s.settle c.index).await ((c.next (.keyword .untilKw)).sites us) g.blocks.length .leave,
    .of_step ?_ rfl, ⟨?_, (h.stands.left rfl).stands⟩⟩
  · rw [← hdepth, ← ScopeState.await_eq]
    simp only [step, stepKeyword, Cursor.site_token]
    rw [List.nil_append]
    cases ((c.next (.keyword .untilKw)).sites us).find?
      (·.mark.endsAt (c.site (.keyword .untilKw)).mark.depth) <;> rfl
  · rw [hsettle]
    refine ⟨?_, h.holds.declared, h.holds.brackets, hbraced.symm.trans h.holds.braced,
      h.holds.loops, due_pending _ ?_⟩
    · obtain ⟨f, rfl, hf⟩ := hframes.exists_of_none
      obtain ⟨f', rfl, hf'⟩ := hG.exists_of_none
      exact .leaving hf hf'
    · rw [Ground.pending, Option.toList_none, List.map_nil, List.append_nil]

/-! ### Blocks of `do` -/

/-- A `do` in front of a block. -/
theorem Sees.enter_do (h : Sees g own x k (.keyword .doKw :: us) c s) (hlevel : g.AtLevel)
    (hb : c.Begins x.fresh) (hhush : Hushed own c (.keyword .doKw :: us)) :
    ∃ s', Runs us c s [.keyword .doKw] [.unbound] s' ∧
      Between (g.block own s.frames) none x.plainDo k us (c.next (.keyword .doKw)) s' := by
  have hidle := h.idle rfl hhush
  have henter := (h.next rfl hhush).enter
  have hopens := h.stands.opened_do hlevel hb
  have hbetween : ∀ {y : View} {s'}, Holds (g.block own s.frames) none y k
      ((c.next (.keyword .doKw)).sites us) s' → y.fresh = true →
      y.loops.length = x.loops.length - (if x.fresh then 0 else 1) →
      Between (g.block own s.frames) none y k us (c.next (.keyword .doKw)) s' :=
    fun hholds hfresh hcount =>
      .of_opens hholds (hcount ▸ hopens) hfresh rfl ⟨rfl, by decide, by decide⟩
  have hloops := h.holds.loops
  unfold View.plainDo
  cases hfresh : x.fresh with
  | true =>
    have hstart : (c.site (.keyword .doKw)).mark.start = true :=
      Cursor.starts_of_begins h.stands hlevel (hfresh ▸ hb) _
    refine ⟨s.enter, .of_idle_step hidle ?_ rfl, hbetween henter rfl ?_⟩
    · simp only [step, stepKeyword, Cursor.site_token, hstart]
      rfl
    · rw [hfresh]
      rfl
  | false =>
    cases hx : x.loops with
    | nil =>
      rw [hx] at hloops
      refine ⟨s.enter, .of_idle_step hidle (step_do hloops) rfl, hbetween ?_ rfl ?_⟩
      · rw [View.entered, hx]
        exact ⟨henter.frames, henter.declared, henter.brackets, henter.braced, hloops,
          henter.waiting⟩
      · rw [hfresh, View.entered, hx]
        rfl
    | cons vs loops =>
      rw [hx] at hloops
      have hstart := (hx ▸ h.stands).goes_on_do (hfresh ▸ hb)
      have hactivate := henter.activate vs
      refine ⟨_, .of_idle_step hidle (step_loop hloops hstart) rfl, hbetween ?_ rfl ?_⟩
      · rw [View.entered, hx]
        exact ⟨hactivate.frames, hactivate.declared, hactivate.brackets, hactivate.braced, rfl,
          hactivate.waiting⟩
      · rw [hfresh, View.entered, hx]
        rfl

/-- From behind the header of a loop to its end. -/
theorem Passes.loop {kind : Kind} {e : Tree kind} {b : Tree .block} {vs : List Variable}
    (he : ViewsTokens e) (hb : ViewsBlock b) (hends : EndsExpression e.tokens)
    (hrests : (c.after e.tokens).Rests g.blocks g.opened (x.loops.length + 1 - e.strays true))
    (h : Sees g none (x.header vs) k
      (e.tokens ++ .keyword .doKw :: (b.tokens ++ [.keyword .endKw]) ++ us) c s)
    (hlevel : g.AtLevel) (hawaits : c.Awaits) :
    Passes g us c s (e.tokens ++ .keyword .doKw :: (b.tokens ++ [.keyword .endKw]))
      (e.seen (x.header vs) k ++
        .other :: (b.seen ((x.header vs).past e).entered (k + e.decls) ++ [.other])) none
      ((x.between x.env).skip (e.strays true + b.strays true)) (k + e.decls + b.decls) := by
  have henv : x.env = x.later := h.holds.env_eq
  rw [List.append_assoc] at h
  obtain ⟨s₁, hrun, h₁⟩ := he g none _ k _ c s h hawaits.not_selecting .of_none nofun
  have h₁ : Sees g none ((x.header vs).past e).stale (k + e.decls)
      (.keyword .doKw :: (b.tokens ++ [.keyword .endKw] ++ us)) (c.after e.tokens) s₁ := by
    rw [keep_none] at h₁
    exact h₁.of_eq rfl rfl rfl rfl
  obtain ⟨s₂, hdo, h₂⟩ := h₁.enter_do hlevel
    (Cursor.begins_of_ends hrests (hends.before_after c)) .of_none
  rw [List.append_assoc] at h₂
  have hbody := hb.body h₂ h₁.holds.frames rfl rfl
  have hlater : ((x.header vs).past e).later = x.env := (View.later_past _ e).trans henv.symm
  refine .prepend hrun (.prepend_one hdo (hbody.of_eq hlater.symm hlater.symm ?_ ?_))
  · show x.loops.drop (e.strays true + b.strays true) =
      (((x.header vs).past e).loops.tail).drop (b.strays true)
    rw [View.loops_past, List.tail_drop, View.header, List.drop_succ_cons, List.drop_drop]
  · exact ((x.header vs).braced_past e).symm

/-- From a condition to the end of the `if`. -/
theorem Passes.branch {e : Tree .expr} {b : Tree .block} {f : Tree .tail} (he : ViewsTokens e)
    (hb : ViewsBlock b) (hf : ViewsTail f)
    (h : Sees g none x k (e.tokens ++ .keyword .thenKw :: (b.tokens ++ f.tokens) ++ us) c s)
    (hawaits : c.Awaits) :
    Passes g us c s (e.tokens ++ .keyword .thenKw :: (b.tokens ++ f.tokens))
      (e.seen x k ++ .other :: (b.seen ((x.past e).opened []) (k + e.decls) ++
        f.seen (x.skip (e.strays true + b.strays true)) (k + e.decls + b.decls))) none
      ((x.between x.env).skip (e.strays true + b.strays true + f.strays true))
      (k + (e.decls + b.decls + f.decls)) := by
  have henv : x.env = x.later := h.holds.env_eq
  rw [List.append_assoc] at h
  obtain ⟨s₁, hrun, h₁⟩ := he g none _ k _ c s h hawaits.not_selecting .of_none nofun
  rw [keep_none, List.cons_append, List.append_assoc] at h₁
  have hin : Between (g.block none s₁.frames) none ((x.past e).opened []) (k + e.decls)
      (b.tokens ++ (f.tokens ++ us)) ((c.after e.tokens).next (.keyword .thenKw)) s₁.enter :=
    .of_opens (h₁.next rfl .of_none).enter (h₁.stands.opened_block rfl) rfl rfl ⟨rfl, by decide, by decide⟩
  have hfollow : Succeeds (f.tokens ++ us) := by
    obtain ⟨t, ts, htail, ht⟩ := f.head_tail
    rw [htail]
    intro t' ht'
    obtain rfl := Option.some.inj ht'
    refine ⟨?_, ?_, ?_⟩ <;> rintro rfl <;> cases ht
  obtain ⟨inner, s₂, hrun', h₂⟩ := hb _ _ _ _ _ _ _ hin hfollow
  obtain ⟨hloops, hbraced⟩ := b.leaves ((x.past e).opened []) (k + e.decls)
  have hframes : Frames g.outer none x.env x.later s₁.frames := by
    have hpast := h₁.holds.frames
    rw [hpast.eq_of_none, View.later_past, ← henv] at hpast
    rw [← henv]
    exact hpast
  have htail := hf g (x.skip (e.strays true + b.strays true)) _ us _ s₂ inner _ s₁.frames h₂ hframes
    (by
      rw [hloops]
      show ((x.past e).loops).drop (b.strays true) = _
      rw [View.loops_past, List.drop_drop]
      rfl)
    (hbraced.trans (x.braced_past e))
  have hcount : k + (e.decls + b.decls + f.decls) = k + e.decls + b.decls + f.decls := by omega
  rw [hcount]
  refine .prepend hrun (.prepend_one (.of_idle_step (h₁.idle rfl .of_none) (step_opened rfl) rfl) ?_)
  refine .prepend hrun' (htail.of_eq rfl rfl ?_ rfl)
  show x.loops.drop _ = (x.loops.drop _).drop _
  rw [List.drop_drop]

/-- A loop over variables, from its `for` on. -/
theorem Passes.for_loop {kind : Kind} {e : Tree kind} {b : Tree .block} (n : Name) (ns : List Name)
    (he : ViewsTokens e) (hb : ViewsBlock b) (hends : EndsExpression e.tokens)
    (hrests : ∀ c : Cursor, c.Stands g.blocks g.opened (x.loops.length + 1) →
      (c.after e.tokens).Rests g.blocks g.opened (x.loops.length + 1 - e.strays true))
    (ht : t.isInert = true) (hopen : t.endsExpression = false) (hsemi : t ≠ .symbol .semicolon)
    (hsel : t.selects = false) (hless : t ≠ .symbol .less) (hcomma : t ≠ .symbol .comma)
    (h : Between g none x k (.keyword .forKw :: nameTokens (n :: ns) ++
      t :: (e.tokens ++ .keyword .doKw :: (b.tokens ++ [.keyword .endKw])) ++ us) c s) :
    Passes g us c s (.keyword .forKw :: nameTokens (n :: ns) ++
        t :: (e.tokens ++ .keyword .doKw :: (b.tokens ++ [.keyword .endKw])))
      (.other :: declaring (declared k (n :: ns)) ++ .other ::
        (e.seen (x.header (declared k (n :: ns))) (k + (1 + ns.length)) ++
          .other :: (b.seen ((x.header (declared k (n :: ns))).past e).entered
            (k + (1 + ns.length) + e.decls) ++ [.other]))) none
      ((x.between x.env).skip (e.strays true + b.strays true))
      (k + (1 + ns.length) + e.decls + b.decls) := by
  rw [List.append_assoc, List.cons_append] at h
  have hheader := h.stands.opened_header (t := .keyword .forKw) rfl
  have hnames : Sees g none (x.header (declared k (n :: ns))) (k + (1 + ns.length))
      (nameTokens (n :: ns) ++ (t :: (e.tokens ++ .keyword .doKw :: (b.tokens ++
        [.keyword .endKw])) ++ us)) (c.next (.keyword .forKw))
      { s.number (1 + ns.length) with
        loops := Env.entries (declared s.declared (n :: ns)) :: s.loops } := by
    obtain ⟨hframes, hdeclared, hbrackets, hbraced, hloops, hwaiting⟩ := h.next rfl .of_none
    refine ⟨⟨hframes, ?_, hbrackets, hbraced, ?_, hwaiting⟩, hheader.stands⟩
    · show s.declared + _ = _
      rw [hdeclared]
    · show _ :: s.loops = _
      rw [hloops, hdeclared]
      rfl
  have hrun : ∀ vs, Runs (t :: vs) c s (.keyword .forKw :: nameTokens (n :: ns))
      (bindings (.other :: declaring (declared k (n :: ns)))) _ := fun vs => by
    rw [← h.holds.declared]
    exact .for_names n ns (h.idle rfl .of_none) hless hcomma
  refine .prepend (hrun _) ?_
  have hflat := Token.isFlat_of_isInert ht
  have hin := hnames.flats (nameTokens_flat _) (absurd rfl)
  refine .cons_inert ht hin .of_none fun s₁ h₁ => ?_
  have hsep := hin.stands.flat hflat
  exact .loop he hb hends (hrests _ hsep.stands) h₁ h.atLevel
    (Cursor.awaits_of_rests hsep hopen hsemi hsel)

end

/-! ### Statements -/

namespace ViewsStatement

variable {b : Tree .block} {es : Tree .exprs}

/-- Nothing waits where a keyword begins the statement, and nothing is left to wait. -/
theorem of_settled {t : Tree .stmt} (ht : ∀ x, View.hushes x t = false)
    (h : ∀ g x k us c s, Between g none x k (t.tokens ++ us) c s → Succeeds us →
      Passes g us c s t.tokens (t.seen x k) none (t.left x k) (k + t.decls)) : ViewsStatement t := by
  intro g own x k us c s hs hus hown _
  obtain rfl := own_none hown (ht x)
  exact ⟨none, absurd rfl, h g x k us c s hs hus⟩

theorem semicolon : ViewsStatement .semicolon := by
  refine of_settled (fun _ => rfl) fun g x k us c s h _ => ?_
  exact (Passes.inert rfl h.toSees .of_none).of_eq rfl rfl rfl rfl

theorem breakLoop : ViewsStatement .breakLoop := by
  refine of_settled (fun _ => rfl) fun g x k us c s h _ => ?_
  exact (Passes.inert rfl h.toSees .of_none).of_eq rfl h.holds.env_eq rfl rfl

theorem gotoLabel (n : Name) : ViewsStatement (.gotoLabel n) := by
  refine of_settled (fun _ => rfl) fun g x k us c s h _ => ?_
  have hflat : ∀ t ∈ (Tree.gotoLabel n).tokens, t.isFlat = true := by
    simp [Tree.tokens, Token.isFlat]
  refine ⟨s, .of_idle_step (h.idle rfl .of_none) rfl rfl, ?_⟩
  exact (h.toSees.flats hflat (absurd rfl)).of_eq rfl h.holds.env_eq rfl rfl

theorem label (n : Name) : ViewsStatement (.label n) := by
  refine of_settled (fun _ => rfl) fun g x k us c s h _ => ?_
  have hflat : ∀ t ∈ (Tree.label n).tokens, t.isFlat = true := by
    simp [Tree.tokens, Token.isFlat]
  refine ⟨s, .of_idle_step (h.idle rfl .of_none) rfl rfl, ?_⟩
  exact (h.toSees.flats hflat (absurd rfl)).of_eq rfl h.holds.env_eq rfl rfl

theorem callOnly {call : Tree .call} (hcall : ViewsTokens call) :
    ViewsStatement (.callOnly call) := by
  intro g own x k us c s h hus _ hhush
  refine ⟨keep own call.closes, fun _ => call.ended, ?_⟩
  refine Passes.of_eq (hcall g own x k us c s h.toSees h.not_selecting hhush fun _ ha => ?_) rfl rfl rfl rfl
  exact absurd rfl (hus _ ha).2.2

theorem assign {vs : Tree .vars} (hvs : ViewsTargets vs) (hes : ViewsTokens es) :
    ViewsStatement (.assign vs es) := by
  intro g own x k us c s h hus _ hhush
  have hbehind := vs.phrased c _ _ _ h.stands
  refine ⟨keep (keep own vs.closes) es.closes, fun _ => .append (.cons es.ended), ?_⟩
  have h' : Sees g own x k (vs.tokens ++ .symbol .assign :: (es.tokens ++ us)) c s := by
    rw [← List.cons_append, ← List.append_assoc]
    exact h.toSees
  have hcount : k + (Tree.assign vs es).decls = k + vs.decls + es.decls :=
    (Nat.add_assoc ..).symm
  rw [hcount]
  refine Passes.of_eq (x := (x.past vs).past es) ?_ rfl rfl rfl rfl
  refine .append (hvs.first g own x k _ c s h' h.not_selecting hhush.append h.unkeyed) fun s₁ h₁ => ?_
  refine .cons_inert rfl h₁ (hbehind.hushed ?_) fun s₂ h₂ => ?_
  · intro t ht
    cases ht
    rfl
  have hawaits := Cursor.awaits_of_rests (h₁.stands.flat (t := .symbol .assign) rfl) rfl
    (by decide) rfl
  exact hes g _ _ _ us _ s₂ h₂ hawaits.not_selecting (hawaits.hushed_start es.starting) fun _ ha =>
    absurd rfl (hus _ ha).2.2

theorem doEnd (hb : ViewsBlock b) : ViewsStatement (.doEnd b) := by
  intro g own x k us c s h _ _ hhush
  refine ⟨none, absurd rfl, ?_⟩
  have h' : Sees g own x k (.keyword .doKw :: (b.tokens ++ .keyword .endKw :: us)) c s := by
    simpa [Tree.tokens] using h.toSees
  obtain ⟨s', hdo, hbetween⟩ := h'.enter_do h.atLevel h.begins hhush
  have hplain : x.plainDo.fresh = true ∧ x.plainDo.braced = x.braced ∧
      x.plainDo.loops = x.loops.drop (if x.fresh then 0 else 1) := by
    unfold View.plainDo
    cases x.fresh with
    | true => exact ⟨rfl, rfl, rfl⟩
    | false => exact ⟨rfl, rfl, List.drop_one.symm⟩
  obtain ⟨hfresh, hbraced, hloops⟩ := hplain
  have hbody := hb.body hbetween h.holds.frames hfresh hbraced
  rw [hloops, List.drop_drop] at hbody
  rw [List.append_cons] at hdo
  exact .prepend_one hdo (hbody.of_eq rfl rfl rfl rfl)

theorem whileDo {e : Tree .expr} (he : ViewsTokens e) (hb : ViewsBlock b) :
    ViewsStatement (.whileDo e b) := by
  refine of_settled (fun _ => rfl) fun g x k us c s h _ => ?_
  have htokens : (Tree.whileDo e b).tokens = .keyword .whileKw ::
      (e.tokens ++ .keyword .doKw :: (b.tokens ++ [.keyword .endKw])) := regroup ..
  have hseen : (Tree.whileDo e b).seen x k = .other :: (e.seen (x.header []) k ++
      .other :: (b.seen ((x.header []).past e).entered (k + e.decls) ++ [.other])) := regroup ..
  have hcount : k + (Tree.whileDo e b).decls = k + e.decls + b.decls := (Nat.add_assoc ..).symm
  rw [htokens] at h ⊢
  rw [hseen, hcount]
  have hheader := h.stands.opened_header (t := .keyword .whileKw) rfl
  have hin : Sees g none (x.header []) k
      (e.tokens ++ .keyword .doKw :: (b.tokens ++ [.keyword .endKw]) ++ us)
      (c.next (.keyword .whileKw)) { s with loops := [] :: s.loops } := by
    obtain ⟨hframes, hdeclared, hbrackets, hbraced, hloops, hwaiting⟩ := h.next rfl .of_none
    refine ⟨⟨hframes, hdeclared, hbrackets, hbraced, ?_, hwaiting⟩, hheader.stands⟩
    show [] :: s.loops = _
    rw [hloops]
    rfl
  refine .prepend_one (.of_idle_step (h.idle rfl .of_none) rfl rfl) ?_
  exact .loop he hb e.ended (e.nested _ _ _ _ hheader.stands) hin h.atLevel
    (Cursor.awaits_of_rests hheader rfl (by decide) rfl)

theorem forRange {r : Tree .range} (n : Name) (hr : ViewsTokens r) (hb : ViewsBlock b) :
    ViewsStatement (.forRange n r b) := by
  refine of_settled (fun _ => rfl) fun g x k us c s h _ => ?_
  have htokens : (Tree.forRange n r b).tokens = .keyword .forKw :: nameTokens [n] ++
      .symbol .assign :: (r.tokens ++ .keyword .doKw :: (b.tokens ++ [.keyword .endKw])) :=
    regroup ..
  have hseen : (Tree.forRange n r b).seen x k = .other :: declaring (declared k [n]) ++
      .other :: (r.seen (x.header (declared k [n])) (k + 1) ++
        .other :: (b.seen ((x.header (declared k [n])).past r).entered (k + 1 + r.decls) ++
          [.other])) := by
    show .other :: (declaring _ ++ _ ++ _ ++ _) = _
    simp
  have hcount : k + (Tree.forRange n r b).decls = k + (1 + 0) + r.decls + b.decls := by
    show k + (1 + r.decls + b.decls) = _
    omega
  rw [htokens] at h ⊢
  rw [hseen, hcount]
  exact .for_loop (t := .symbol .assign) n [] hr hb r.ended (fun c => r.nested c _ _ _) rfl rfl
    (by decide) rfl (by decide) (by decide) h

theorem forIn (n : Name) (ns : List Name) (hes : ViewsTokens es) (hb : ViewsBlock b) :
    ViewsStatement (.forIn n ns es b) := by
  refine of_settled (fun _ => rfl) fun g x k us c s h _ => ?_
  have htokens : (Tree.forIn n ns es b).tokens = .keyword .forKw :: nameTokens (n :: ns) ++
      .keyword .inKw :: (es.tokens ++ .keyword .doKw :: (b.tokens ++ [.keyword .endKw])) := by
    show .keyword .forKw :: (nameTokens (n :: ns) ++ _ ++ _ ++ _) = _
    simp
  have hseen : (Tree.forIn n ns es b).seen x k = .other :: declaring (declared k (n :: ns)) ++
      .other :: (es.seen (x.header (declared k (n :: ns))) (k + (1 + ns.length)) ++
        .other :: (b.seen ((x.header (declared k (n :: ns))).past es).entered
          (k + (1 + ns.length) + es.decls) ++ [.other])) := by
    show .other :: (declaring _ ++ _ ++ _ ++ _) = _
    simp
  have hcount : k + (Tree.forIn n ns es b).decls = k + (1 + ns.length) + es.decls + b.decls := by
    show k + (1 + ns.length + es.decls + b.decls) = _
    omega
  rw [htokens] at h ⊢
  rw [hseen, hcount]
  exact .for_loop (t := .keyword .inKw) n ns hes hb es.ended (fun c => es.nested c _ _ _) rfl rfl
    nofun rfl nofun nofun h

theorem ifThen {e : Tree .expr} {f : Tree .tail} (he : ViewsTokens e) (hb : ViewsBlock b)
    (hf : ViewsTail f) : ViewsStatement (.ifThen e b f) := by
  refine of_settled (fun _ => rfl) fun g x k us c s h _ => ?_
  have htokens : (Tree.ifThen e b f).tokens = .keyword .ifKw ::
      (e.tokens ++ .keyword .thenKw :: (b.tokens ++ f.tokens)) := regroup ..
  have hseen : (Tree.ifThen e b f).seen x k = .other :: (e.seen x k ++
      .other :: (b.seen ((x.past e).opened []) (k + e.decls) ++
        f.seen (x.skip (e.strays true + b.strays true)) (k + e.decls + b.decls))) := regroup ..
  rw [htokens] at h ⊢
  rw [hseen]
  refine .cons_inert rfl h.toSees .of_none fun s₁ h₁ => .branch he hb hf h₁ ?_
  exact Cursor.awaits_of_rests (h.stands.flat rfl) rfl (by decide) rfl

theorem localFunction (n : Name) (ps : Params) (hb : ViewsBlock b) :
    ViewsStatement (.localFunction n ps b) := by
  refine of_settled (fun _ => rfl) fun g x k us c s h _ => ?_
  have htokens : (Tree.localFunction n ps b).tokens =
      (.keyword .localKw :: (.keyword .functionKw :: [.name n] ++ ps.tokens)) ++
        (b.tokens ++ [.keyword .endKw]) := by
    show (_ :: _ :: _ :: ps.tokens ++ b.tokens) ++ _ = _
    simp
  have hseen : (Tree.localFunction n ps b).seen x k =
      (.other :: .other :: (declaring (declared k [n]) ++ ps.roles (k + 1))) ++
        (b.seen ((x.opened (declared k [n])).opened (declared (k + 1) ps.names))
          (k + 1 + ps.names.length) ++ [.other]) := by
    show (_ :: _ :: (declaring (declared k [n]) ++ ps.roles (k + 1))) ++ b.seen _ _ ++ _ = _
    simp
  have hcount : k + (Tree.localFunction n ps b).decls = k + 1 + ps.names.length + b.decls := by
    show k + (1 + ps.names.length + b.decls) = _
    omega
  rw [htokens] at h ⊢
  rw [hseen, hcount]
  have hlocal := h.stands.flat (t := .keyword .localKw) rfl
  have hidle := h.idle rfl .of_none
  have hword : Sees g none x k (.keyword .functionKw :: [.name n] ++ ps.tokens ++
      (b.tokens ++ [.keyword .endKw] ++ us)) (c.next (.keyword .localKw)) s := by
    rw [← List.append_assoc]
    exact ⟨h.next rfl .of_none, hlocal.stands⟩
  have hheader := Sees.header [.name n] ps hword (by simp [Token.isFlat]) .of_none (absurd rfl)
  rw [List.append_assoc] at hheader
  have hdeclared := hheader.declare [n]
  have hbody := (hdeclared.receive []).declare ps.names
  have hopens := hlocal.stands.parameters [.name n] (by simp [Token.isFlat]) ps
  have hpass := hb.body (.of_opens hbody hopens rfl (ps.before_after _ [.keyword .functionKw, .name n])
    ⟨rfl, by decide, by decide⟩) hdeclared.frames rfl rfl
  have hstep := localFunction_named (c := (c.next (.keyword .localKw)).next (.keyword .functionKw))
    (s := s) n ps (b.tokens ++ [.keyword .endKw] ++ us)
  rw [h.holds.declared] at hstep
  refine .prepend (.of_idle_step hidle ?_ ?_) (hpass.of_eq rfl rfl rfl rfl)
  · exact step_localFunction.trans
      (congrArg (fun passed => after .unbound (after .unbound passed)) hstep)
  · simp [bindings, declaring_length, ps.roles_length, nameTokens, Nat.add_comm]

theorem functionNamed (f : FunctionName) (ps : Params) (hb : ViewsBlock b) :
    ViewsStatement (.functionNamed f ps b) := by
  refine of_settled (fun _ => rfl) fun g x k us c s h _ => ?_
  have hreceiver : (f.receiver k).length = f.method.toList.length := List.length_map _
  have htokens : (Tree.functionNamed f ps b).tokens =
      (.keyword .functionKw :: f.tokens ++ ps.tokens) ++ (b.tokens ++ [.keyword .endKw]) := by
    show (_ :: f.tokens ++ ps.tokens ++ b.tokens) ++ _ = _
    simp
  have hseen : (Tree.functionNamed f ps b).seen x k =
      (.other :: (f.roles x.env ++ ps.roles (k + (f.receiver k).length))) ++
        (b.seen ((x.opened (f.receiver k)).opened (declared (k + (f.receiver k).length) ps.names))
          (k + (f.receiver k).length + ps.names.length) ++ [.other]) := by
    rw [hreceiver]
    show (_ :: f.roles x.env ++ ps.roles _) ++ b.seen _ _ ++ _ = _
    simp
  have hcount : k + (Tree.functionNamed f ps b).decls =
      k + (f.receiver k).length + ps.names.length + b.decls := by
    rw [hreceiver]
    show k + (f.method.toList.length + ps.names.length + b.decls) = _
    omega
  rw [htokens] at h ⊢
  rw [hseen, hcount]
  have hsees := h.toSees
  rw [List.append_assoc] at hsees
  have hheader := Sees.header f.tokens ps hsees f.tokens_flat .of_none (absurd rfl)
  rw [List.append_assoc] at hheader
  obtain ⟨s', hstep, hcore⟩ := functionHeader_named (c := c.next (.keyword .functionKw))
    h.holds.frames.flatten_eq f ps (b.tokens ++ [.keyword .endKw] ++ us)
  rw [h.holds.declared] at hstep hcore
  have hbody := ((hheader.receive (f.receiver k)).declare ps.names).of_core hcore
  have hopens := h.stands.parameters f.tokens f.tokens_flat ps
  have hpass := hb.body (.of_opens hbody hopens rfl
    (ps.before_after c (.keyword .functionKw :: f.tokens)) ⟨rfl, by decide, by decide⟩)
    h.holds.frames rfl rfl
  refine .prepend (.of_idle_step (h.idle rfl .of_none) ?_ ?_)
    (hpass.of_eq h.holds.env_eq h.holds.env_eq rfl rfl)
  · show step s _ ((c.next (.keyword .functionKw)).sites
      (f.tokens ++ ps.tokens ++ (b.tokens ++ [.keyword .endKw] ++ us))) = _
    rw [List.append_assoc]
    exact congrArg (after .unbound) hstep
  · simp [bindings, f.roles_length, ps.roles_length]

theorem locals (l : Local) (ls : List Local) : ViewsStatement (.locals l ls) := by
  refine of_settled (fun _ => rfl) fun g x k us c s h hus => ?_
  have hplain := localStatement_plain (c := c.next (.keyword .localKw)) (s := s)
    (c.site (.keyword .localKw)) l ls (fun hhead => (hus _ hhead).1 rfl)
    (fun hhead => (hus _ hhead).2.1 rfl) (fun hhead => (hus _ hhead).2.2 rfl)
  rw [h.holds.declared] at hplain
  have hcount : k + (Tree.locals l ls).decls = k + (l.name :: ls.map Local.name).length := by
    simp [Tree.decls, Nat.add_comm]
  have hflat : ∀ t ∈ (Tree.locals l ls).tokens, t.isFlat = true :=
    List.forall_mem_cons.mpr ⟨rfl, localTokens_flat l ls⟩
  have hpast := h.toSees.flats hflat (absurd rfl)
  rw [hcount]
  refine ⟨_, .of_idle_step (h.idle rfl .of_none) ((step_local l ls).trans (congrArg _ hplain)) ?_,
    Sees.of_eq ⟨hpast.holds.declare _, hpast.stands⟩ rfl rfl rfl rfl⟩
  exact congrArg (· + 1) ((List.length_map _).trans (localRoles_length k l ls))

theorem localsInit (l : Local) (ls : List Local) (hes : ViewsTokens es) :
    ViewsStatement (.localsInit l ls es) := by
  intro g own x k us c s h hus hown _
  obtain rfl := own_none hown rfl
  let vs := declared k (l.name :: ls.map Local.name)
  let wait := Waiting.activate (s.frames.length - 1) (Env.entries vs)
  let ts := localTokens l ls ++ .symbol .assign :: (es.tokens ++ us)
  refine ⟨keep (some wait) es.closes, fun _ => .append (.cons es.ended), ?_⟩
  have h' : Between g none x k (.keyword .localKw :: ts) c s := by
    simpa [Tree.tokens, ts] using h
  have hrests := h'.stands.flat (t := .keyword .localKw) rfl
  obtain ⟨q, hq, -, hnames⟩ := Joined.locals (p := .keyword .localKw) l ls rfl (by decide)
  have hdepth : (c.site (.keyword .localKw)).mark.depth = g.blocks.length := h'.depth rfl
  -- the names wait from the `local` on
  have hlocal : Sees g (some wait) (x.awaiting vs) (k + (1 + ls.length)) ts
      (c.next (.keyword .localKw)) _ :=
    ⟨((h'.next rfl .of_none).number (1 + ls.length)).await_locals vs, hrests.stands⟩
  have hstep : step s (c.site (.keyword .localKw)) ((c.next (.keyword .localKw)).sites ts) =
      .ok (bindings (.other :: localRoles k l ls),
        (s.number (1 + ls.length)).await ((c.next (.keyword .localKw)).sites ts) g.blocks.length
          wait) := by
    refine (step_local l ls).trans ?_
    rw [localStatement_values, hdepth, h'.holds.declared]
    rfl
  have hfit : (c.next (.keyword .localKw)).nesting.Fit := by
    rw [hrests]
    exact ⟨rfl, g.level⟩
  have hquiet := Cursor.quiet_of_joined hnames hfit rfl (by rw [hrests])
  have hbefore := Cursor.before_of_joined (c := c.next (.keyword .localKw)) hnames rfl
  have hpast := hlocal.flats (localTokens_flat l ls) fun _ => hquiet
  have hnone := hrests.flats (localTokens_flat l ls)
  have hhush : Hushed (some wait) ((c.next (.keyword .localKw)).after (localTokens l ls))
      (.symbol .assign :: (es.tokens ++ us)) :=
    .cons (Cursor.mark_of_joins (Token.joins_of_continues hq rfl) hbefore (by rw [hnone]))
  have hawaits := Cursor.awaits_of_rests (hnone.stands.flat (t := .symbol .assign) rfl) rfl
    (by decide) rfl
  have hcount : k + (Tree.localsInit l ls es).decls = k + (1 + ls.length) + es.decls :=
    (Nat.add_assoc ..).symm
  rw [hcount]
  refine .prepend (.of_idle_step (h'.idle rfl .of_none) hstep ?_) ?_
  · exact congrArg (· + 1) ((List.length_map _).trans (localRoles_length k l ls))
  refine .cons_inert rfl hpast hhush fun s₁ h₁ => ?_
  exact (hes g _ _ _ us _ s₁ h₁ hawaits.not_selecting (hawaits.hushed_start es.starting) fun _ ha =>
    absurd rfl (hus _ ha).2.2).of_eq rfl rfl rfl rfl

theorem repeatUntil {e : Tree .expr} (hb : ViewsBlock b) (he : ViewsTokens e) :
    ViewsStatement (.repeatUntil b e) := by
  intro g own x k us c s h hus hown _
  obtain rfl := own_none hown rfl
  refine ⟨keep (some .leave) e.closes, fun _ => .append (.cons e.ended), ?_⟩
  have h' : Between g none x k (.keyword .repeatKw ::
      (b.tokens ++ .keyword .untilKw :: (e.tokens ++ us))) c s := by
    simpa [Tree.tokens] using h
  have hin : Between (g.block none s.frames) none (x.opened []) k
      (b.tokens ++ .keyword .untilKw :: (e.tokens ++ us)) (c.next (.keyword .repeatKw)) s.enter :=
    .of_opens (h'.next rfl .of_none).enter (h'.stands.opened_block rfl) rfl rfl
      ⟨rfl, by decide, by decide⟩
  obtain ⟨inner, s₁, hrun, h₁⟩ := hb _ _ _ _ _ _ _ hin (by simp [Succeeds])
  obtain ⟨hloops, hbraced⟩ := b.leaves (x.opened []) k
  obtain ⟨s₂, huntil, h₂⟩ := h₁.until h.holds.frames hbraced
  have hawaits : ((((c.next (.keyword .repeatKw)).after b.tokens).next (.keyword .untilKw))).Awaits :=
    Cursor.awaits_of_rests (h₁.stands.left rfl) rfl (by decide) rfl
  have hpass := he g _ _ _ us _ s₂ h₂ hawaits.not_selecting (hawaits.hushed_start e.starting)
    fun _ ha => absurd rfl (hus _ ha).2.2
  have hcount : k + (Tree.repeatUntil b e).decls = k + b.decls + e.decls := (Nat.add_assoc ..).symm
  rw [hcount]
  refine .prepend_one (.of_idle_step (h'.idle rfl .of_none) (step_opened rfl) rfl) ?_
  exact .prepend hrun (.prepend_one huntil (hpass.of_eq rfl rfl rfl rfl))

end ViewsStatement

/-! ### The rest of an `if` -/

namespace ViewsTail

variable {b : Tree .block}

theorem endIf : ViewsTail .endIf := by
  intro g x k us c s inner y G h hG hloops hbraced
  have henv : x.env = x.later := hG.eq_of_none
  exact (Passes.closer h (.inl rfl) hG).of_eq henv henv hloops.symm hbraced.symm

theorem elseEnd (hb : ViewsBlock b) : ViewsTail (.elseEnd b) := by
  intro g x k us c s inner y G h hG hloops hbraced
  have henv : x.env = x.later := hG.eq_of_none
  have h : Sees (g.block none G) inner y k (.keyword .elseKw ::
      (b.tokens ++ .keyword .endKw :: us)) c s := by
    simpa [Tree.tokens] using h
  have hleft := (h.close rfl hG).of_eq henv rfl hloops.symm hbraced.symm
  have hopens := h.stands.passed_else
  rw [hloops] at hopens
  have hbody := hb.body (.of_opens hleft.enter hopens rfl rfl ⟨rfl, by decide, by decide⟩) hleft.frames rfl
    rfl
  refine .prepend_one (.of_step ?_ rfl) (hbody.of_eq henv henv rfl rfl)
  rfl

theorem elseIf {e : Tree .expr} {f : Tree .tail} (he : ViewsTokens e) (hb : ViewsBlock b)
    (hf : ViewsTail f) : ViewsTail (.elseIf e b f) := by
  intro g x k us c s inner y G h hG hloops hbraced
  have htokens : (Tree.elseIf e b f).tokens = .keyword .elseifKw ::
      (e.tokens ++ .keyword .thenKw :: (b.tokens ++ f.tokens)) := regroup ..
  have hseen : (Tree.elseIf e b f).seen x k = .other :: (e.seen x k ++
      .other :: (b.seen ((x.past e).opened []) (k + e.decls) ++
        f.seen (x.skip (e.strays true + b.strays true)) (k + e.decls + b.decls))) := regroup ..
  have henv : x.env = x.later := hG.eq_of_none
  rw [htokens] at h ⊢
  rw [hseen]
  refine .cons ((Passes.closer h (.inr rfl) hG).of_eq henv rfl hloops.symm hbraced.symm)
    fun s₁ h₁ => .branch he hb hf h₁ ?_
  exact Cursor.awaits_of_rests (h.stands.left rfl) rfl (by decide) rfl

end ViewsTail

/-! ### Blocks -/

namespace Tree

theorem succeeds_of_head {p : Token} (ts : List Token)
    (hp : p = .symbol .parenOpen ∨ p.mayFollow = true) : Succeeds (p :: ts) := by
  intro t ht
  obtain rfl := Option.some.inj ht
  rcases hp with rfl | hp
  · exact ⟨by decide, by decide, by decide⟩
  · refine ⟨?_, ?_, ?_⟩ <;> rintro rfl <;> cases hp

/-- What may follow a block may follow the statement in front of it. -/
theorem succeeds {us : List Token} (b : Tree .block) (hus : Succeeds us) :
    Succeeds (b.tokens ++ us) := by
  cases b with
  | nothing => exact hus
  | ret closed => exact succeeds_of_head _ (.inr rfl)
  | retValues es closed => exact succeeds_of_head (p := .keyword .returnKw) _ (.inr rfl)
  | cons t b =>
    rcases t.head_of_stmt with ⟨b', rfl⟩ | ⟨-, p, ts, htokens, -, hp⟩
    · exact succeeds_of_head (p := .keyword .doKw) _ (.inr rfl)
    · show Succeeds (t.tokens ++ b.tokens ++ us)
      rw [htokens]
      exact succeeds_of_head _ (hp.imp id And.left)

end Tree

section

variable {g : Ground} {own own' : Option Waiting} {x : View} {k : Nat} {us : List Token}
  {c : Cursor} {s : ScopeState}

theorem Between.not_fresh (h : Between g own x k us c s) (hown : own ≠ none) : x.fresh = false := by
  obtain ⟨hopened, p, hp, hends⟩ := h.behind hown
  have hbegins := h.begins
  cases hfresh : x.fresh with
  | false => rfl
  | true =>
    rw [hfresh] at hbegins
    rcases hbegins with hopened' | hsemi | hnone
    · rw [hopened] at hopened'
      cases hopened'
    · exact absurd (Option.some.inj (hp.symm.trans hsemi)) (Token.ne_semicolon_of_ends hends)
    · rw [hp] at hnone
      cases hnone

/-- The first token of a statement that does not seem to begin one. -/
theorem Between.hushed {t : Tree .stmt} (h : Between g own x k us c s) (ht : x.hushes t = true) :
    Hushed own c t.tokens := by
  intro hown
  rcases t.head_of_stmt with ⟨b, rfl⟩ | ⟨hhushes, p, ts, htokens, -⟩
  · have hloops : x.loops.isEmpty = false := by
      have hboth : (!x.fresh && !x.loops.isEmpty) = true := ht
      simpa using (Bool.and_eq_true_iff.mp hboth).2
    have hbegins := h.begins
    rw [h.not_fresh hown] at hbegins
    have hstands := h.stands
    cases hx : x.loops with
    | nil =>
      rw [hx] at hloops
      cases hloops
    | cons vs loops =>
      rw [hx] at hstands
      exact (Hushed.cons (hstands.goes_on_do hbegins) : Hushed own c (Tree.doEnd b).tokens) hown
  · have hparen : t.tokens.head? = some (.symbol .parenOpen) := by
      rw [hhushes, Tree.opensParen] at ht
      exact beq_iff_eq.mp ht
    refine (h.behind hown).hushed (fun p hp => ?_) hown
    rw [hparen] at hp
    obtain rfl := Option.some.inj hp
    rfl

/-- The first token of a statement that seems to begin one. -/
theorem Between.shown {t : Tree .stmt} (h : Between g own x k us c s) (ht : x.hushes t = false) :
    ∃ p ts, t.tokens = p :: ts ∧ p.closesBlock = false ∧
      (own ≠ none → (c.site p).mark.start = true) := by
  rcases t.head_of_stmt with ⟨b, rfl⟩ | ⟨hhushes, p, ts, htokens, hcloses, hp⟩
  · refine ⟨_, _, rfl, rfl, fun hown => h.starts hown rfl fun _ => ?_⟩
    have hboth : (!x.fresh && !x.loops.isEmpty) = false := ht
    rw [h.not_fresh hown] at hboth
    simpa using hboth
  · refine ⟨p, ts, htokens, hcloses, fun hown => ?_⟩
    rcases hp with rfl | ⟨hfollow, hdo⟩
    · rw [hhushes, Tree.opensParen, htokens] at ht
      cases ht
    · exact h.starts hown hfollow fun heq => absurd heq hdo

/-- A statement's first token ends the one in front, or does not seem to. -/
theorem Between.reach {t : Tree .stmt} (h : Between g own x k (t.tokens ++ us) c s) :
    ∃ own' s', Between g own' (x.reach t) k (t.tokens ++ us) c s' ∧
      (own' ≠ none → (x.reach t).hushes t = true) ∧ Hushed own' c t.tokens ∧
      (s' = s ∨ s' = s.settle c.index) := by
  cases ht : x.hushes t with
  | true =>
    refine ⟨own, s, ?_, ?_, h.hushed ht, .inl rfl⟩
    · rw [View.reach, if_pos ht]
      exact h
    · rw [View.reach, if_pos ht]
      exact fun _ => ht
  | false =>
    obtain ⟨p, ts, htokens, hcloses, hstart⟩ := h.shown ht
    refine ⟨none, s.settle c.index, ?_, absurd rfl, .of_none, .inr rfl⟩
    rw [View.reach, if_neg (by simp [ht])]
    rw [htokens] at h ⊢
    exact h.settle hcloses hstart

end

namespace ViewsBlock

variable {es : Tree .exprs}

theorem nothing : ViewsBlock .nothing := fun _ own _ _ _ _ _ h _ => ⟨own, .nil h.toSees⟩

theorem ret (closed : Bool) : ViewsBlock (.ret closed) := by
  intro g own x k us c s h _
  refine ⟨none, ?_⟩
  have hin := h.settle (t := .keyword .returnKw) rfl fun hown => h.starts hown rfl nofun
  refine .of_settle (List.cons_ne_nil _ _) ?_
  refine .cons_inert rfl hin.toSees .of_none fun s₁ h₁ => ?_
  cases closed with
  | false => exact .nil h₁
  | true => exact .inert rfl h₁ .of_none

theorem retValues (hes : ViewsTokens es) (closed : Bool) : ViewsBlock (.retValues es closed) := by
  intro g own x k us c s h hus
  refine ⟨none, ?_⟩
  have htail : ∀ closed : Bool,
      ((if closed then [Token.symbol .semicolon] else []) ++ us).head? ≠ some (.symbol .assign) := by
    intro closed ha
    cases closed with
    | false => exact (hus _ ha).2.2 rfl
    | true => cases ha
  have hin := h.settle (t := .keyword .returnKw) rfl fun hown => h.starts hown rfl nofun
  have hawaits := Cursor.awaits_of_rests (hin.stands.flat (t := .keyword .returnKw) rfl) rfl (by decide) rfl
  refine .of_settle (List.cons_ne_nil _ _) ?_
  refine .cons_inert rfl hin.toSees .of_none fun s₁ h₁ => ?_
  have h₁ : Sees g none x.settled k
      (es.tokens ++ ((if closed then [.symbol .semicolon] else []) ++ us))
      (c.next (.keyword .returnKw)) s₁ := by
    rw [← List.append_assoc]
    exact h₁
  have hpass := hes g none _ k _ _ s₁ h₁ hawaits.not_selecting .of_none fun _ ha =>
    absurd ha (htail closed)
  rw [keep_none] at hpass
  refine .append hpass fun s₂ h₂ => ?_
  cases closed with
  | false => exact .nil h₂
  | true => exact .inert rfl h₂ .of_none

theorem cons {t : Tree .stmt} {b : Tree .block} (ht : ViewsStatement t) (hb : ViewsBlock b) :
    ViewsBlock (.cons t b) := by
  intro g own x k us c s h hus
  have h : Between g own x k (t.tokens ++ (b.tokens ++ us)) c s := by
    rw [← List.append_assoc]
    exact h
  obtain ⟨own₁, s₁, hreach, hhushes, hhush, hsettle⟩ := h.reach
  obtain ⟨own₂, hends, s₂, hrun, hsees⟩ := ht _ _ _ _ _ _ _ hreach (b.succeeds hus) hhushes hhush
  obtain ⟨hloops, -, hfresh⟩ := t.leaves (x.reach t) k
  have hrests := t.nested c _ _ _ x.fresh h.stands h.atLevel h.begins
  have hlast := t.ended.before_after c
  have hbetween : Between g own₂ (t.left (x.reach t) k) (k + t.decls) (b.tokens ++ us)
      (c.after t.tokens) s₂ := by
    refine ⟨hsees, h.atLevel, ?_, ?_, fun hown => Cursor.behind_of_rests hrests (hends hown)⟩
    · rw [hfresh]
      exact Cursor.begins_of_concludes hrests hlast
    · intro p hp
      obtain ⟨q, hq, -, hplain⟩ := hlast
      rw [hq] at hp
      exact Option.some.inj hp ▸ hplain
  obtain ⟨own₃, hpass⟩ := hb _ _ _ _ _ _ _ hbetween hus
  have hcount : k + (Tree.cons t b).decls = k + t.decls + b.decls := (Nat.add_assoc ..).symm
  have hall : Passes g us c s₁ (t.tokens ++ b.tokens) _ own₃ _ (k + t.decls + b.decls) :=
    .prepend hrun hpass
  refine ⟨own₃, ?_⟩
  rw [hcount]
  rcases hsettle with rfl | rfl
  · exact hall
  · refine .of_settle ?_ hall
    rcases t.head_of_stmt with ⟨b', rfl⟩ | ⟨-, p, ts, htokens, -⟩
    · exact List.cons_ne_nil _ _
    · show t.tokens ++ b.tokens ++ us ≠ []
      rw [htokens]
      exact List.cons_ne_nil _ _

end ViewsBlock

/-! ### Trees -/

/-- What the walk does on a tree. -/
def Tree.Viewed : {kind : Kind} → Tree kind → Prop
  | .expr, t | .operand, t | .var, t | .call, t | .args, t | .exprs, t | .range, t => ViewsTokens t
  | .vars, t => ViewsTargets t
  | .field, t | .fields, t => ViewsFields t
  | .stmt, t => ViewsStatement t
  | .tail, t => ViewsTail t
  | .block, t => ViewsBlock t

theorem Tree.viewed {kind : Kind} (t : Tree kind) : t.Viewed := by
  induction t with
  | literal t => exact ViewsTokens.literal t
  | name n => exact ViewsTokens.name n
  | binary l op r ih ih' => exact ViewsTokens.binary op ih ih'
  | unary op e ih => exact ViewsTokens.unary op ih
  | function ps b ih => exact ViewsTokens.function ps ih
  | table fs ih | tableArg fs ih => exact ViewsTokens.braced ⟨rfl, fun _ _ => rfl, rfl, rfl, rfl⟩ ih
  | paren e ih | someArgs e ih =>
    exact ViewsTokens.parenthesized ⟨rfl, fun _ _ => rfl, rfl, rfl, rfl⟩ ih e.starting
  | index p e ih ih' => exact ViewsTokens.index ih ih'
  | member p n ih => exact ViewsTokens.member n ih
  | apply p a ih ih' => exact ViewsTokens.apply ih ih'
  | invoke p n a ih ih' => exact ViewsTokens.invoke n ih ih'
  | noArgs => exact ViewsTokens.noArgs
  | stringArg text => exact ViewsTokens.stringArg text
  | more e es ih ih' => exact ViewsTokens.more ih ih'
  | target v ih => exact ViewsTargets.target ih
  | targets v vs ih ih' => exact ViewsTargets.targets ih ih'
  | span first limit ih ih' => exact ViewsTokens.span ih ih'
  | stride first limit step ih ih' ih'' => exact ViewsTokens.stride ih ih' ih''
  | item e ih => exact ViewsFields.item ih
  | named n e ih => exact ViewsFields.named n ih
  | keyed k e ih ih' => exact ViewsFields.keyed ih ih'
  | noField => exact ViewsFields.noField
  | lastField f ih => exact ViewsFields.lastField ih
  | fieldThen f sep fs ih ih' => exact ViewsFields.fieldThen sep ih ih'
  | semicolon => exact ViewsStatement.semicolon
  | locals l ls => exact ViewsStatement.locals l ls
  | localsInit l ls es ih => exact ViewsStatement.localsInit l ls ih
  | assign vs es ih ih' => exact ViewsStatement.assign ih ih'
  | callOnly c ih => exact ViewsStatement.callOnly ih
  | doEnd b ih => exact ViewsStatement.doEnd ih
  | whileDo e b ih ih' => exact ViewsStatement.whileDo ih ih'
  | repeatUntil b e ih ih' => exact ViewsStatement.repeatUntil ih ih'
  | ifThen e b f ih ih' ih'' => exact ViewsStatement.ifThen ih ih' ih''
  | forRange n r b ih ih' => exact ViewsStatement.forRange n ih ih'
  | forIn n ns es b ih ih' => exact ViewsStatement.forIn n ns ih ih'
  | localFunction n ps b ih => exact ViewsStatement.localFunction n ps ih
  | functionNamed f ps b ih => exact ViewsStatement.functionNamed f ps ih
  | breakLoop => exact ViewsStatement.breakLoop
  | gotoLabel n => exact ViewsStatement.gotoLabel n
  | label n => exact ViewsStatement.label n
  | endIf => exact ViewsTail.endIf
  | elseEnd b ih => exact ViewsTail.elseEnd ih
  | elseIf e b f ih ih' ih'' => exact ViewsTail.elseIf ih ih' ih''
  | nothing => exact ViewsBlock.nothing
  | ret closed => exact ViewsBlock.ret closed
  | retValues es closed ih => exact ViewsBlock.retValues ih closed
  | cons t b ih ih' => exact ViewsBlock.cons ih ih'
  | plain p ih | read p ih | result p ih | one p ih =>
    exact fun g own x k us c s h hsel hhush hkey =>
      ih g own x k us c s h hsel hhush fun hb ha => (hkey hb ha).elim

theorem Between.initial (ts : List Token) :
    Between .chunk none .outermost 0 ts Cursor.start .initial where
  holds := ⟨.settled rfl, rfl, rfl, rfl, rfl, rfl⟩
  stands := rfl
  atLevel := rfl
  begins := .inr (.inr rfl)
  before := nofun
  behind := absurd rfl

/-- The walk succeeds on every chunk, and takes its tokens for what the view says. -/
theorem walk_seen (b : Tree .block) :
    ∃ s, walk .initial (sites b.tokens) = .ok (bindings (b.seen .outermost 0), s) := by
  obtain ⟨-, s, hrun, -⟩ := b.viewed _ _ _ _ [] _ _ (.initial _) nofun
  refine ⟨s, ?_⟩
  have hwalk := hrun.walk
  rw [List.append_nil] at hwalk
  rw [Cursor.sites_start, hwalk]
  simp [Cursor.sites, walk, Except.map]

end LuaBundle.Lua
