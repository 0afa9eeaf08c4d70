import LuaBundle.Proofs.Lua.Beginnings

/-!
# Where statements seem to begin

The layout marks exactly the first tokens of statements and the tokens that close blocks if no
statement of the chunk is taken for a part of the one before it, no part of one for a statement, and
no plain `do` in the header of a loop for the one of the loop; and only then.
-/
namespace LuaBundle.Lua

namespace Tree

open Cursor

variable {kind kind₁ kind₂ : Kind}

/-! ### What is marked as it should be -/

/-- Behind so many headers of loops, every statement of the tree is seen. -/
def Readable (headers : Nat) (fresh : Bool) (t : Tree kind) : Prop :=
  t.legible = true ∧ (headers = 0 ∨ t.strays fresh = 0)

theorem readable_of_legible {t : Tree kind} {headers : Nat} {fresh : Bool} (h : t.legible = true)
    (hstrays : t.strays fresh = 0) : t.Readable headers fresh := ⟨h, .inr hstrays⟩

theorem readable_pair {t : Tree kind} {l : Tree kind₁} {r : Tree kind₂} {headers : Nat}
    {fresh fresh₁ fresh₂ : Bool} (hlegible : t.legible = (l.legible && r.legible))
    (hstrays : t.strays fresh = l.strays fresh₁ + r.strays fresh₂) :
    l.Readable headers fresh₁ ∧ r.Readable (headers - l.strays fresh₁) fresh₂ ↔
      t.Readable headers fresh := by
  rw [Readable, Readable, Readable, hlegible, hstrays, Bool.and_eq_true]
  constructor
  · rintro ⟨⟨hl, h⟩, hr, h'⟩
    exact ⟨⟨hl, hr⟩, by omega⟩
  · rintro ⟨⟨hl, hr⟩, h⟩
    exact ⟨⟨hl, by omega⟩, hr, by omega⟩

theorem readable_triple {kind₃ : Kind} {t : Tree kind} {l : Tree kind₁} {m : Tree kind₂}
    {r : Tree kind₃} {headers : Nat} {fresh : Bool}
    (hlegible : t.legible = (l.legible && m.legible && r.legible))
    (hstrays : t.strays fresh = l.strays true + m.strays true + r.strays true) :
    l.Readable headers true ∧ m.Readable (headers - l.strays true) true ∧
      r.Readable (headers - l.strays true - m.strays true) true ↔ t.Readable headers fresh := by
  rw [Readable, Readable, Readable, Readable, hlegible, hstrays, Bool.and_eq_true, Bool.and_eq_true]
  constructor
  · rintro ⟨⟨hl, h⟩, ⟨hm, h'⟩, hr, h''⟩
    exact ⟨⟨⟨hl, hm⟩, hr⟩, by omega⟩
  · rintro ⟨⟨⟨hl, hm⟩, hr⟩, h⟩
    exact ⟨⟨hl, by omega⟩, ⟨hm, by omega⟩, hr, by omega⟩

/-- The range of a loop holds no stray `do`. -/
theorem readable_loop {t : Tree kind} {e : Tree kind₁} {b : Tree kind₂} {headers : Nat}
    {fresh : Bool}
    (hlegible : t.legible = ((e.strays true == 0 && true) && e.legible && b.legible))
    (hstrays : t.strays fresh = e.strays true + b.strays true) :
    e.Readable (headers + 1) true ∧ b.Readable headers true ↔ t.Readable headers fresh := by
  rw [Readable, Readable, Readable, hlegible, hstrays]
  simp only [Bool.and_eq_true, Bool.and_true, beq_iff_eq]
  constructor
  · rintro ⟨⟨he, h⟩, hb, h'⟩
    exact ⟨⟨⟨by omega, he⟩, hb⟩, by omega⟩
  · rintro ⟨⟨⟨h, he⟩, hb⟩, h'⟩
    exact ⟨⟨he, .inr h⟩, hb, by omega⟩

/-- The tokens of an expression, or of several, are marked as they should be exactly if it is
readable. -/
def MarksTokens (t : Tree kind) : Prop :=
  ∀ (c : Cursor) (blocks : List Nat) (brackets : List Bool) (headers : Nat) (x : Bool),
    c.Stands blocks brackets headers → blocks.head?.getD 0 ≤ brackets.length → c.Heads t.tokens x →
      (c.starts t.tokens = t.begins x ↔ t.Readable headers true)

/-- The tokens of a tree are marked as they should be exactly if it is readable; those of a block
also need to be set off from what stands before it. -/
def Marked : {kind : Kind} → Tree kind → Prop
  | .field, t | .fields, t =>
    ∀ (c : Cursor) (blocks : List Nat) (brackets : List Bool) (headers : Nat) (p : Token),
      c.Stands blocks brackets headers → blocks.head?.getD 0 < brackets.length →
        c.before = some p → (c.starts t.tokens = t.begins false ↔ t.Readable headers true)
  | .stmt, t =>
    ∀ (c : Cursor) (blocks : List Nat) (brackets : List Bool) (headers : Nat) (fresh : Bool),
      c.Stands blocks brackets headers → AtLevel blocks brackets → c.Begins fresh →
        c.Heads t.tokens true → (c.starts t.tokens = t.begins true ↔ t.Readable headers fresh)
  | .tail, t =>
    ∀ (c : Cursor) (blocks : List Nat) (brackets : List Bool) (headers : Nat),
      c.Stands (brackets.length :: blocks) brackets headers →
        blocks.head?.getD 0 ≤ brackets.length →
          (c.starts t.tokens = t.begins true ↔ t.Readable headers true)
  | .block, t =>
    ∀ (c : Cursor) (blocks : List Nat) (brackets : List Bool) (headers : Nat) (fresh : Bool),
      c.Stands blocks brackets headers → AtLevel blocks brackets → c.Begins fresh →
        (fresh = true ∨ c.Behind) → (c.starts t.tokens = t.begins true ↔
          t.Readable headers fresh ∧ (fresh = true ∨ t.beginsParen = false))
  | .expr, t | .operand, t | .var, t | .call, t | .args, t | .exprs, t | .vars, t | .range, t =>
    t.MarksTokens

section

variable {c : Cursor} {blocks : List Nat} {brackets : List Bool} {headers : Nat} {x : Bool}
  {m e : Token} {b : Tree .block}

/-- Two expressions and a token that connects them. -/
theorem connected {l : Tree kind₁} {r : Tree kind₂} (hl : l.MarksTokens) (hr : r.MarksTokens)
    (hrest : (c.after l.tokens).Rests blocks brackets (headers - l.strays true))
    (hends : EndsExpression l.tokens) (hstart : ∃ p ts, r.tokens = p :: ts ∧ p.closesBlock = false)
    (hflat : m.isFlat = true) (hmends : m.endsExpression = false)
    (hcontinues : m.continuesExpression = true) (hsemi : m ≠ .symbol .semicolon)
    (h : c.Stands blocks brackets headers) (hlevel : blocks.head?.getD 0 ≤ brackets.length)
    (hhead : c.Heads l.tokens x) :
    c.starts (l.tokens ++ m :: r.tokens) = l.begins x ++ false :: r.begins false ↔
      l.Readable headers true ∧ r.Readable (headers - l.strays true) true := by
  have hm := hrest.stands.flat hflat
  have hbehind := behind_of_rests hrest hends
  rw [starts_append_iff (l.begins_length x), starts_cons_iff, hl c _ _ _ x h hlevel hhead,
    and_iff_right (hbehind.goes_on hcontinues),
    hr _ _ _ _ false hm.stands hlevel (hm.heads hmends hsemi hstart)]

theorem marked_block (hb : b.Marked) (h : c.Opens blocks brackets headers) :
    c.starts b.tokens = b.begins true ↔ b.Readable headers true :=
  (hb c _ _ _ true h.stands rfl h.begins (.inl rfl)).trans (and_iff_left (.inl rfl))

theorem marks_span {l r : Tree .expr} (hl : l.MarksTokens) (hr : r.MarksTokens) :
    (Tree.span l r).MarksTokens := by
  intro c blocks brackets headers x h hlevel hhead
  refine (connected hl hr (l.nested _ _ _ _ h) l.ended r.starting rfl rfl rfl (by decide)
    h hlevel hhead.append).trans ?_
  exact readable_pair rfl rfl

/-- A block up to the token that closes it. -/
theorem marked_body (hb : b.Marked) (h : c.Opens blocks brackets headers)
    (he : e.closesBlock = true) :
    c.starts (b.tokens ++ [e]) = b.begins true ++ [true] ↔ b.Readable headers true := by
  have hafter := b.nested c _ _ _ true h.stands rfl h.begins
  rw [starts_append_iff (b.begins_length true), starts_singleton_iff, marked_block hb h,
    and_iff_left (hafter.starts_closer he)]

/-- From the condition of an `if` to its end. -/
theorem marked_branch {e : Tree .expr} {f : Tree .tail} (he : e.MarksTokens) (hb : b.Marked)
    (hf : f.Marked) (h : c.Stands blocks brackets headers)
    (hlevel : blocks.head?.getD 0 ≤ brackets.length) (hhead : c.Heads e.tokens false) :
    c.starts (e.tokens ++ .keyword .thenKw :: b.tokens ++ f.tokens) =
        e.begins false ++ false :: b.begins true ++ f.begins true ↔
      e.Readable headers true ∧ b.Readable (headers - e.strays true) true ∧
        f.Readable (headers - e.strays true - b.strays true) true := by
  have hcond := e.nested c _ _ _ h
  have hthen := hcond.stands.opened_block (t := .keyword .thenKw) rfl
  have hafter := b.nested _ _ _ _ true hthen.stands rfl hthen.begins
  have hword := (behind_of_rests hcond e.ended).goes_on_word (t := .keyword .thenKw) rfl
  rw [List.append_assoc, List.append_assoc, List.cons_append, List.cons_append,
    starts_append_iff (e.begins_length false), he c _ _ _ false h hlevel hhead, starts_cons_iff,
    and_iff_right hword, starts_append_iff (b.begins_length true), marked_block hb hthen,
    hf _ _ _ _ hafter hlevel]

/-- From the range of a loop to its end. -/
theorem marked_loop {e : Tree kind} (he : e.MarksTokens) (hb : b.Marked)
    (hrest : (c.after e.tokens).Rests blocks brackets (headers + 1 - e.strays true))
    (hends : EndsExpression e.tokens) (h : c.Stands blocks brackets (headers + 1))
    (hlevel : AtLevel blocks brackets) (hhead : c.Heads e.tokens false) :
    c.starts (e.tokens ++ .keyword .doKw :: b.tokens ++ [.keyword .endKw]) =
        e.begins false ++ false :: b.begins true ++ [true] ↔
      e.Readable (headers + 1) true ∧ b.Readable headers true := by
  rw [List.append_assoc, List.append_assoc, List.cons_append, List.cons_append,
    starts_append_iff (e.begins_length false), he c _ _ _ false h (Nat.le_of_eq hlevel.symm) hhead,
    starts_cons_iff]
  refine and_congr_right fun ⟨_, hstrays⟩ => ?_
  -- nothing in the range has taken the header off
  have hnone : e.strays true = 0 := hstrays.resolve_left (Nat.succ_ne_zero _)
  rw [hnone, Nat.sub_zero] at hrest
  have hbegins := begins_of_ends hrest (hends.before_after c)
  rw [and_iff_right (hrest.stands.goes_on_do hbegins)]
  exact marked_body hb (hrest.stands.opened_do hlevel hbegins) rfl

/-- A function from its keyword on. -/
theorem marked_function (hb : b.Marked) (ts : List Token) (ps : Params)
    (hts : ∀ t ∈ ts, t.isFlat = true)
    (hnames : ∃ q, q ≠ .symbol .semicolon ∧ Joined (.keyword .functionKw) ts q)
    (h : c.Stands blocks brackets headers) (hlevel : blocks.head?.getD 0 ≤ brackets.length)
    (hhead : c.nesting.starts c.before (.keyword .functionKw) = x) :
    c.starts (.keyword .functionKw :: ts ++ ps.tokens ++ b.tokens ++ [.keyword .endKw]) =
        x :: unmarked ts ++ unmarked ps.tokens ++ b.begins true ++ [true] ↔
      b.Readable headers true := by
  obtain ⟨q, hq, hjoined⟩ := hnames
  have hheader := h.starts_header ps hlevel hts hq hjoined
  have hlength : (x :: unmarked ts ++ unmarked ps.tokens).length =
      (Token.keyword .functionKw :: ts ++ ps.tokens).length := by simp [unmarked_length]
  rw [List.append_assoc _ b.tokens, List.append_assoc _ (b.begins true), starts_append_iff hlength,
    marked_body hb (h.parameters ts hts ps) rfl, List.cons_append, List.cons_append]
  exact and_iff_right (starts_cons_iff.mpr ⟨hhead, hheader⟩)

/-- A statement that stands at the beginning of a block, behind a semicolon or behind what may be an
expression. -/
theorem marked_statement {s : Tree .stmt} {fresh : Bool} (hs : s.Marked)
    (h : c.Stands blocks brackets headers) (hlevel : AtLevel blocks brackets) (hb : c.Begins fresh)
    (hplace : fresh = true ∨ c.Behind) : c.starts s.tokens = s.begins true ↔
      s.Readable headers fresh ∧ (fresh = true ∨ s.opensParen = false) := by
  obtain ⟨p, ts, htokens, hp, hdo⟩ := s.leads
  obtain ⟨-, hthen, hin, hparen⟩ := Token.of_opensStatement hp
  have hopens : s.opensParen = (p == .symbol .parenOpen) := by
    show (s.tokens.head? == _) = _
    rw [htokens]
    rfl
  rw [hopens]
  constructor
  · intro hmarks
    obtain ⟨bs, hfront⟩ := s.fronts true
    have hhead := heads_of_starts (hmarks.trans hfront)
    refine ⟨(hs c _ _ _ _ h hlevel hb hhead).mp hmarks, hplace.imp_right fun hbehind => ?_⟩
    rw [beq_eq_false_iff_ne]
    rintro rfl
    have hstart := hhead (.symbol .parenOpen) (by rw [htokens]; rfl)
    rw [hbehind.goes_on rfl] at hstart
    cases hstart
  · rintro ⟨hreadable, hfree⟩
    refine (hs c _ _ _ _ h hlevel hb ?_).mpr hreadable
    rw [htokens]
    refine .cons ?_
    cases fresh with
    | true => exact starts_of_begins h hlevel hb p
    | false =>
      have hbehind := hplace.resolve_left Bool.false_ne_true
      have hne : p ≠ .symbol .parenOpen := by simpa using hfree
      refine hbehind.starts h hlevel (Bool.eq_false_iff.mpr fun hc => hne (hparen hc)) ?_
      have hheaders : c.nesting.loopHeaders = headers := congrArg Nesting.loopHeaders h
      unfold Nesting.goesOn
      split
      · exact absurd rfl hthen
      · exact absurd rfl hin
      · have hpos := hdo rfl
        have hnone : headers = 0 := hreadable.2.resolve_right (by omega)
        rw [hheaders, hnone]
        rfl
      · rfl

/-- What follows a statement. -/
theorem marked_rest {s : Tree .stmt} (hb : b.Marked) (hs : s.legible = true)
    (hrest : (c.after s.tokens).Rests blocks brackets headers) (hlevel : AtLevel blocks brackets) :
    (c.after s.tokens).starts b.tokens = b.begins true ↔ b.Readable headers s.isSemicolon ∧
      (s.isSemicolon = true ∨ b.beginsParen = false) ∧
      (b.isNothing = true ∨ s.endsInAttribute = false) := by
  have hbegins := begins_of_concludes hrest (s.ended.before_after c)
  rcases s.finishes with ⟨n, rfl⟩ | ⟨hsemi, hattrib⟩ | ⟨hsemi, hattrib, hends⟩ |
    ⟨hsemi, hattrib, hends⟩
  · cases hs
  · rw [hsemi] at hbegins ⊢
    rw [hb _ _ _ _ true hrest.stands hlevel hbegins (.inl rfl), hattrib]
    simp
  · have hbehind := behind_of_rests hrest hends
    rw [hsemi] at hbegins ⊢
    rw [hb _ _ _ _ false hrest.stands hlevel hbegins (.inr hbehind), hattrib]
    simp
  · cases hnothing : b.isNothing with
    | true =>
      obtain rfl : b = .nothing := by
        cases b <;> first | rfl | cases hnothing
      exact iff_of_true rfl ⟨readable_of_legible rfl rfl, .inr rfl, .inl rfl⟩
    | false =>
      obtain ⟨p, ts, bs, htokens, hclose, hfront⟩ := b.opens hnothing
      obtain ⟨q, hq, rfl⟩ := hends.before_after c
      refine iff_of_false (fun hmarks => ?_) (by simp [hattrib])
      have hstart := heads_of_starts (hmarks.trans hfront) p (by rw [htokens]; rfl)
      have hjoins : (Token.symbol .greater).joins p = true :=
        Token.joins_of_operand rfl (by decide) hclose
      rw [hq, Nesting.starts_of_joins (by rw [hrest]) hjoins] at hstart
      cases hstart

theorem marks_index {p : Tree .operand} {e : Tree .expr} (hp : p.MarksTokens) (he : e.MarksTokens) :
    (Tree.index p e).MarksTokens := by
  intro c blocks brackets headers x h hlevel hhead
  have hrest := p.nested _ _ _ _ h
  have hbracket := (behind_of_rests hrest p.ended).goes_on (t := .symbol .bracketOpen) rfl
  have hopen := hrest.stands.opened (t := .symbol .bracketOpen) rfl
  have hin := (e.nested _ _ _ _ hopen.stands).stands
  have hgroup := starts_group (e := .symbol .bracketClose) hlevel hbracket hin
    (e.begins_length false)
  rw [tokens, begins, List.append_assoc, List.append_assoc, starts_append_iff (p.begins_length x),
    hgroup, hp c _ _ _ _ h hlevel hhead.append.append,
    he _ _ _ _ _ hopen.stands (Nat.le_succ_of_le hlevel) (hopen.heads rfl (by decide) e.starting)]
  exact readable_pair rfl rfl

theorem marks_member {p : Tree .operand} (n : Name) (hp : p.MarksTokens) :
    (Tree.member p n).MarksTokens := by
  intro c blocks brackets headers x h hlevel hhead
  have hrest := p.nested _ _ _ _ h
  have hdot := (behind_of_rests hrest p.ended).goes_on (t := .symbol .dot) rfl
  have hname := (hrest.stands.flat (t := .symbol .dot) rfl).goes_on (t := .name n) rfl (by decide)
    rfl
  rw [tokens, begins, starts_append_iff (p.begins_length x), starts_cons_iff, starts_singleton_iff,
    hp c _ _ _ _ h hlevel hhead.append]
  exact and_iff_left ⟨hdot, hname⟩

theorem marks_apply {p : Tree .operand} {a : Tree .args} (hp : p.MarksTokens) (ha : a.MarksTokens) :
    (Tree.apply p a).MarksTokens := by
  intro c blocks brackets headers x h hlevel hhead
  have hrest := p.nested _ _ _ _ h
  have hheads := (behind_of_rests hrest p.ended).heads_args a
  rw [tokens, begins, starts_append_iff (p.begins_length x), hp c _ _ _ _ h hlevel hhead.append,
    ha _ _ _ _ _ hrest.stands hlevel hheads]
  exact readable_pair rfl rfl

theorem marks_invoke {p : Tree .operand} {a : Tree .args} (n : Name) (hp : p.MarksTokens)
    (ha : a.MarksTokens) : (Tree.invoke p n a).MarksTokens := by
  intro c blocks brackets headers x h hlevel hhead
  have hrest := p.nested _ _ _ _ h
  have hcolon := hrest.stands.flat (t := .symbol .colon) rfl
  have hname := hcolon.stands.flat (t := .name n) rfl
  have hheads := (hname.behind rfl).heads_args a
  rw [tokens, begins, starts_append_iff (p.begins_length x), starts_cons_iff, starts_cons_iff,
    hp c _ _ _ _ h hlevel hhead.append, ha _ _ _ _ _ hname.stands hlevel hheads,
    and_iff_right ((behind_of_rests hrest p.ended).goes_on (t := .symbol .colon) rfl),
    and_iff_right (hcolon.goes_on (t := .name n) rfl (by decide) rfl)]
  exact readable_pair rfl rfl

theorem marked_keyed {k e : Tree .expr} (hk : k.MarksTokens) (he : e.MarksTokens) :
    (Tree.keyed k e).Marked := by
  intro c blocks brackets headers p h hdeep hb
  have hlevel := Nat.le_of_lt hdeep
  have hopen := h.opened (t := .symbol .bracketOpen) rfl
  have hkey := k.nested _ _ _ _ hopen.stands
  have hclose := hkey.stands.closed (t := .symbol .bracketClose) rfl
  have hassign := hclose.stands.flat (t := .symbol .assign) rfl
  have hregroup : (Tree.keyed k e).tokens = (.symbol .bracketOpen :: k.tokens ++
      [.symbol .bracketClose]) ++ .symbol .assign :: e.tokens := by simp [tokens]
  have hmarks : (Tree.keyed k e).begins false =
      (false :: k.begins false ++ [false]) ++ false :: e.begins false := by simp [begins]
  have hgroup := starts_group (e := .symbol .bracketClose) hlevel (h.starts_deep hdeep hb)
    hkey.stands (k.begins_length false)
  have hlast : c.after (.symbol .bracketOpen :: k.tokens ++ [.symbol .bracketClose]) =
    ((c.next (.symbol .bracketOpen)).after k.tokens).next (.symbol .bracketClose) := by simp
  rw [hregroup, hmarks, starts_append_iff (by simp [k.begins_length]), hgroup, starts_cons_iff,
    hlast, and_iff_right (hclose.stands.starts_deep hdeep rfl),
    hk _ _ _ _ false hopen.stands (Nat.le_succ_of_le hlevel)
      (hopen.heads rfl (by decide) k.starting),
    he _ _ _ _ false hassign.stands hlevel (hassign.stands.heads_deep hdeep rfl)]
  exact readable_pair rfl rfl

/-- The name between the colons of a label seems to be an expression. -/
theorem marked_label (n : Name) : (Tree.label n).Marked := by
  intro c blocks brackets headers fresh h hlevel _ _
  have hname := (h.flat (t := .symbol .doubleColon) rfl).stands.flat (t := .name n) rfl
  refine iff_of_false (fun hmarks => ?_) (fun hreadable => Bool.false_ne_true hreadable.1)
  have hclose := (hname.behind rfl).starts (t := .symbol .doubleColon) hname.stands hlevel rfl rfl
  have hlast := (starts_cons_iff.mp (starts_cons_iff.mp hmarks).2).2
  rw [starts_singleton_iff.mp hlast] at hclose
  cases hclose

theorem marked_localsInit {es : Tree .exprs} (l : Local) (ls : List Local) (hes : es.MarksTokens) :
    (Tree.localsInit l ls es).Marked := by
  intro c blocks brackets headers fresh h hlevel _ hhead
  obtain ⟨hmarks, hgoes⟩ := h.starts_locals l ls
  have hlocals := (h.flat (t := .keyword .localKw) rfl).flats (localTokens_flat l ls)
  have hassign := hlocals.stands.flat (t := .symbol .assign) rfl
  rw [tokens, begins, List.cons_append, List.cons_append, starts_cons_iff,
    starts_append_iff (unmarked_length _), starts_cons_iff, and_iff_right (hhead _ rfl),
    and_iff_right hmarks, and_iff_right hgoes]
  exact hes _ _ _ _ _ hassign.stands (Nat.le_of_eq hlevel.symm)
    (hassign.heads rfl (by decide) es.starting)

theorem marked_do (hbody : b.Marked) : (Tree.doEnd b).Marked := by
  intro c blocks brackets headers fresh h hlevel hb hhead
  have hdo := h.opened_do hlevel hb
  refine (starts_cons_of (hhead _ rfl)).trans ?_
  refine (marked_body hbody hdo rfl).trans (and_congr_right fun _ => ?_)
  cases fresh with
  | true => exact iff_of_eq (by simp [strays])
  | false =>
    -- the `do` is marked, so no header waits for one
    obtain rfl : headers = 0 := by
      cases headers with
      | zero => rfl
      | succ headers =>
        exact absurd ((h.goes_on_do hb).symm.trans (hhead _ rfl)) Bool.false_ne_true
    exact iff_of_true (.inl rfl) (.inl rfl)

theorem marked_repeat {e : Tree .expr} (hbody : b.Marked) (he : e.MarksTokens) :
    (Tree.repeatUntil b e).Marked := by
  intro c blocks brackets headers fresh h hlevel _ hhead
  have hrepeat := h.opened_block (t := .keyword .repeatKw) rfl
  have hafter := b.nested _ _ _ _ true hrepeat.stands rfl hrepeat.begins
  have huntil := hafter.left (t := .keyword .untilKw) rfl
  rw [tokens, begins, List.cons_append, List.cons_append, starts_cons_iff,
    starts_append_iff (b.begins_length true), starts_cons_iff, and_iff_right (hhead _ rfl),
    marked_block hbody hrepeat, and_iff_right (hafter.starts_closer rfl),
    he _ _ _ _ false huntil.stands (Nat.le_of_eq hlevel.symm)
      (huntil.heads rfl (by decide) e.starting)]
  exact readable_pair rfl rfl

theorem marked_forRange {r : Tree .range} (n : Name) (hr : r.MarksTokens) (hbody : b.Marked) :
    (Tree.forRange n r b).Marked := by
  intro c blocks brackets headers fresh h hlevel _ hhead
  have hfor := h.opened_header (t := .keyword .forKw) rfl
  have hname := hfor.stands.flat (t := .name n) rfl
  have hbehind := hname.behind rfl
  have hassign := hname.stands.flat (t := .symbol .assign) rfl
  refine (starts_cons_of (hhead _ rfl)).trans ?_
  refine (starts_cons_of (hfor.goes_on rfl (by decide) rfl)).trans ?_
  refine (starts_cons_of (hbehind.goes_on rfl)).trans ?_
  refine (marked_loop hr hbody (r.nested _ _ _ _ hassign.stands) r.ended hassign.stands hlevel
    (hassign.heads rfl (by decide) r.starting)).trans ?_
  exact readable_loop rfl rfl

theorem marked_forIn {es : Tree .exprs} (n : Name) (ns : List Name) (hes : es.MarksTokens)
    (hbody : b.Marked) : (Tree.forIn n ns es b).Marked := by
  intro c blocks brackets headers fresh h hlevel _ hhead
  obtain ⟨q, hends, hjoined⟩ := joined_names (p := .keyword .forKw) n ns rfl (by decide)
  have hfor := h.opened_header (t := .keyword .forKw) rfl
  obtain ⟨hmarks, hopened⟩ := starts_of_joined (c := c.next (.keyword .forKw)) hjoined
    (nameTokens_flat (n :: ns)) rfl (by rw [hfor])
  have hbehind : ((c.next (.keyword .forKw)).after (nameTokens (n :: ns))).Behind :=
    ⟨hopened, q, before_of_joined hjoined rfl, hends⟩
  have hin := (hfor.flats (nameTokens_flat (n :: ns))).stands.flat (t := .keyword .inKw) rfl
  have hregroup : (Tree.forIn n ns es b).tokens = .keyword .forKw :: (nameTokens (n :: ns) ++
      .keyword .inKw :: (es.tokens ++ .keyword .doKw :: b.tokens ++ [.keyword .endKw])) := by
    simp [tokens]
  have hbegins : (Tree.forIn n ns es b).begins true = true :: (unmarked (nameTokens (n :: ns)) ++
      false :: (es.begins false ++ false :: b.begins true ++ [true])) := by
    simp [begins]
  rw [hregroup, hbegins, starts_cons_iff, starts_append_iff (unmarked_length _), starts_cons_iff,
    and_iff_right (hhead _ rfl), and_iff_right hmarks, and_iff_right (hbehind.goes_on_word rfl),
    marked_loop hes hbody (es.nested _ _ _ _ hin.stands) es.ended hin.stands hlevel
      (hin.heads rfl (by decide) es.starting)]
  exact readable_loop rfl rfl

theorem marked_ret (closed : Bool) : (Tree.ret closed).Marked := by
  intro c blocks brackets headers fresh h hlevel hb hplace
  have hstart := starts_of_place h hlevel hb hplace (t := .keyword .returnKw) rfl rfl
  have hreturn := h.flat (t := .keyword .returnKw) rfl
  refine iff_of_true ?_ ⟨readable_of_legible rfl rfl, .inr rfl⟩
  cases closed with
  | false => exact starts_singleton_iff.mpr hstart
  | true =>
    exact starts_cons_iff.mpr ⟨hstart,
      starts_singleton_iff.mpr (hreturn.goes_on rfl (by decide) rfl)⟩

theorem marked_retValues {es : Tree .exprs} (closed : Bool) (hes : es.MarksTokens) :
    (Tree.retValues es closed).Marked := by
  intro c blocks brackets headers fresh h hlevel hb hplace
  have hstart := starts_of_place h hlevel hb hplace (t := .keyword .returnKw) rfl rfl
  have hreturn := h.flat (t := .keyword .returnKw) rfl
  have hrest := es.nested _ _ _ _ hreturn.stands
  have hvalues := hes _ _ _ _ false hreturn.stands (Nat.le_of_eq hlevel.symm)
    (hreturn.heads rfl (by decide) es.starting)
  cases closed with
  | false =>
    rw [tokens, begins, if_neg Bool.false_ne_true, if_neg Bool.false_ne_true, List.append_nil,
      List.append_nil, starts_cons_iff, and_iff_right hstart, hvalues]
    exact (and_iff_left (.inr rfl)).symm
  | true =>
    -- the semicolon seems to be a statement
    have hsemi := (behind_of_rests hrest es.ended).starts (t := .symbol .semicolon) hrest.stands
      hlevel rfl rfl
    refine iff_of_false (fun hmarks => ?_) (fun hreadable => Bool.false_ne_true hreadable.1.1)
    have hlast := ((starts_append_iff (es.begins_length false)).mp
      (starts_cons_iff.mp hmarks).2).2
    rw [starts_singleton_iff.mp hlast] at hsemi
    cases hsemi

theorem marked_cons {s : Tree .stmt} (hs : s.Marked) (hb : b.Marked) : (Tree.cons s b).Marked := by
  intro c blocks brackets headers fresh h hlevel hbegins hplace
  have hrest := s.nested _ _ _ _ _ h hlevel hbegins
  have hlegible : (Tree.cons s b).legible = (((s.isSemicolon || !b.beginsParen) &&
      (b.isNothing || !s.endsInAttribute)) && s.legible && b.legible) := rfl
  have hstrays : (Tree.cons s b).strays fresh = s.strays fresh + b.strays s.isSemicolon := rfl
  rw [tokens, begins, starts_append_iff (s.begins_length true),
    marked_statement hs h hlevel hbegins hplace]
  constructor
  · rintro ⟨⟨hleft, hfree⟩, hmarks⟩
    obtain ⟨hright, hparen, hattrib⟩ := (marked_rest hb hleft.1 hrest hlevel).mp hmarks
    refine ⟨(readable_pair (l := s) (r := b) ?_ hstrays).mp ⟨hleft, hright⟩, hfree⟩
    rcases hparen with hparen | hparen <;> rcases hattrib with hattrib | hattrib <;>
      simp [hlegible, hparen, hattrib]
  · rintro ⟨⟨hreadable, hheaders⟩, hfree⟩
    rw [hlegible] at hreadable
    simp only [Bool.and_eq_true, Bool.or_eq_true, Bool.not_eq_true'] at hreadable
    obtain ⟨⟨⟨hparen, hattrib⟩, hleft⟩, hright⟩ := hreadable
    rw [hstrays] at hheaders
    exact ⟨⟨⟨hleft, by omega⟩, hfree⟩, (marked_rest hb hleft hrest hlevel).mpr
      ⟨⟨hright, by omega⟩, hparen, hattrib⟩⟩

end

theorem marked (t : Tree kind) : t.Marked := by
  induction t with
  | literal t =>
    exact fun c _ _ _ x _ _ hhead =>
      iff_of_true (starts_singleton_iff.mpr (hhead _ rfl)) (readable_of_legible rfl rfl)
  | name n | stringArg text =>
    exact fun c _ _ _ x _ _ hhead =>
      iff_of_true (starts_singleton_iff.mpr (hhead _ rfl)) (readable_of_legible rfl rfl)
  | plain p ih | read p ih | result p ih | one p ih | target p ih | lastField p ih => exact ih
  | table fs ih | tableArg fs ih =>
    intro c blocks brackets headers x h hlevel hhead
    have hopen := h.opened (t := .symbol .braceOpen) rfl
    have hin := fs.nested _ _ _ _ hopen.stands
    refine (starts_group hlevel (hhead _ rfl) hin (fs.begins_length false)).trans ?_
    exact ih _ _ _ _ _ hopen.stands (Nat.lt_succ_of_le hlevel) rfl
  | paren e ih | someArgs e ih =>
    intro c blocks brackets headers x h hlevel hhead
    have hopen := h.opened (t := .symbol .parenOpen) rfl
    have hin := (e.nested _ _ _ _ hopen.stands).stands
    refine (starts_group hlevel (hhead _ rfl) hin (e.begins_length false)).trans ?_
    exact ih _ _ _ _ _ hopen.stands (Nat.le_succ_of_le hlevel)
      (hopen.heads rfl (by decide) e.starting)
  | noArgs =>
    intro c blocks brackets headers x h hlevel hhead
    have hopen := h.opened (t := .symbol .parenOpen) rfl
    refine iff_of_true ?_ (readable_of_legible rfl rfl)
    have hmarks : c.starts (.symbol .parenOpen :: [] ++ [.symbol .parenClose]) =
        x :: [] ++ [false] ↔ _ := starts_group hlevel (hhead _ rfl) hopen.stands rfl
    exact hmarks.mpr rfl
  | binary l op r ih ih' =>
    intro c blocks brackets headers x h hlevel hhead
    obtain ⟨hflat, hends, hcontinues, hsemi⟩ := Token.of_isBinary op.2
    refine (connected ih ih' (l.nested _ _ _ _ h) l.ended r.starting hflat hends hcontinues hsemi
      h hlevel hhead.append).trans ?_
    exact readable_pair rfl rfl
  | more l r ih ih' | targets l r ih ih' =>
    intro c blocks brackets headers x h hlevel hhead
    refine (connected ih ih' (l.nested _ _ _ _ h) l.ended r.starting rfl rfl rfl (by decide)
      h hlevel hhead.append).trans ?_
    exact readable_pair rfl rfl
  | span first limit ih ih' => exact marks_span ih ih'
  | stride first limit step ih ih' ih'' =>
    intro c blocks brackets headers x h hlevel hhead
    refine (connected (marks_span ih ih') ih'' ((Tree.span first limit).nested _ _ _ _ h)
      (Tree.span first limit).ended step.starting rfl rfl rfl (by decide) h hlevel
      hhead.append).trans ?_
    exact readable_pair rfl rfl
  | unary op e ih =>
    intro c blocks brackets headers x h hlevel hhead
    obtain ⟨hflat, hends, -, hsemi⟩ := Token.of_isUnary op.2
    have hop := h.flat hflat
    refine (starts_cons_of (hhead _ rfl)).trans ?_
    exact ih _ _ _ _ _ hop.stands hlevel (hop.heads hends hsemi e.starting)
  | function ps b ih =>
    intro c blocks brackets headers x h hlevel hhead
    exact marked_function ih [] ps (by simp) ⟨_, by decide, .nil⟩ h hlevel (hhead _ rfl)
  | index p e ih ih' => exact marks_index ih ih'
  | member p n ih => exact marks_member n ih
  | apply p a ih ih' => exact marks_apply ih ih'
  | invoke p n a ih ih' => exact marks_invoke n ih ih'
  | item e ih =>
    exact fun c _ _ _ p h hdeep hb =>
      ih c _ _ _ false h (Nat.le_of_lt hdeep) (h.heads_deep hdeep hb)
  | named n e ih =>
    intro c blocks brackets headers p h hdeep hb
    have hname := h.flat (t := .name n) rfl
    have hassign := hname.stands.flat (t := .symbol .assign) rfl
    rw [tokens, begins, starts_cons_iff, starts_cons_iff, and_iff_right (h.starts_deep hdeep hb),
      and_iff_right (hname.stands.starts_deep hdeep rfl)]
    exact ih _ _ _ _ false hassign.stands (Nat.le_of_lt hdeep) (hassign.stands.heads_deep hdeep rfl)
  | keyed k e ih ih' => exact marked_keyed ih ih'
  | noField => exact fun _ _ _ _ _ _ _ _ => iff_of_true rfl (readable_of_legible rfl rfl)
  | fieldThen f sep fs ih ih' =>
    intro c blocks brackets headers p h hdeep hb
    have hf := f.nested _ _ _ _ h
    have hsep := hf.flat (Token.isFlat_of_isSeparator sep.2)
    obtain ⟨q, hq⟩ := exists_before_after hb f.tokens
    rw [tokens, begins, starts_append_iff (f.begins_length false), starts_cons_iff,
      ih c _ _ _ _ h hdeep hb, and_iff_right (hf.starts_deep hdeep hq),
      ih' _ _ _ _ _ hsep.stands hdeep rfl]
    exact readable_pair rfl rfl
  | semicolon | breakLoop =>
    exact fun c _ _ _ _ _ _ _ hhead =>
      iff_of_true (starts_singleton_iff.mpr (hhead _ rfl)) (readable_of_legible rfl rfl)
  | gotoLabel n =>
    intro c blocks brackets headers fresh h _ _ hhead
    have hgoto := h.flat (t := .keyword .gotoKw) rfl
    refine iff_of_true ?_ (readable_of_legible rfl rfl)
    exact starts_cons_iff.mpr ⟨hhead _ rfl,
      starts_singleton_iff.mpr (hgoto.goes_on rfl (by decide) rfl)⟩
  | label n => exact marked_label n
  | locals l ls =>
    intro c blocks brackets headers fresh h _ _ hhead
    obtain ⟨hmarks, -⟩ := h.starts_locals l ls
    exact iff_of_true (starts_cons_iff.mpr ⟨hhead _ rfl, hmarks⟩) (readable_of_legible rfl rfl)
  | localsInit l ls es ih => exact marked_localsInit l ls ih
  | assign vs es ih ih' =>
    intro c blocks brackets headers fresh h hlevel _ hhead
    refine (connected ih ih' (vs.nested _ _ _ _ h) vs.ended es.starting rfl rfl rfl (by decide)
      h (Nat.le_of_eq hlevel.symm) hhead.append).trans ?_
    exact readable_pair rfl rfl
  | callOnly call ih =>
    exact fun c _ _ _ _ h hlevel _ hhead => ih c _ _ _ true h (Nat.le_of_eq hlevel.symm) hhead
  | doEnd b ih => exact marked_do ih
  | whileDo e b ih ih' =>
    intro c blocks brackets headers fresh h hlevel _ hhead
    have hwhile := h.opened_header (t := .keyword .whileKw) rfl
    refine (starts_cons_of (hhead _ rfl)).trans ?_
    refine (marked_loop ih ih' (e.nested _ _ _ _ hwhile.stands) e.ended hwhile.stands hlevel
      (hwhile.heads rfl (by decide) e.starting)).trans ?_
    exact readable_loop rfl rfl
  | repeatUntil b e ih ih' => exact marked_repeat ih ih'
  | ifThen e b f ih ih' ih'' =>
    intro c blocks brackets headers fresh h hlevel _ hhead
    have hif := h.flat (t := .keyword .ifKw) rfl
    refine (starts_cons_of (hhead _ rfl)).trans ?_
    refine (marked_branch ih ih' ih'' hif.stands (Nat.le_of_eq hlevel.symm)
      (hif.heads rfl (by decide) e.starting)).trans ?_
    exact readable_triple rfl rfl
  | forRange n r b ih ih' => exact marked_forRange n ih ih'
  | forIn n ns es b ih ih' => exact marked_forIn n ns ih ih'
  | localFunction n ps b ih =>
    intro c blocks brackets headers fresh h hlevel _ hhead
    have hlocal := h.flat (t := .keyword .localKw) rfl
    refine (starts_cons_of (hhead _ rfl)).trans ?_
    exact marked_function ih [.name n] ps (by simp [Token.isFlat])
      ⟨.name n, Token.ne_semicolon_of_ends rfl, .flat rfl rfl .nil⟩ hlocal.stands (Nat.le_of_eq hlevel.symm)
      (hlocal.goes_on rfl (by decide) rfl)
  | functionNamed f ps b ih =>
    intro c blocks brackets headers fresh h hlevel _ hhead
    exact marked_function ih f.tokens ps f.tokens_flat (joined_function f) h (Nat.le_of_eq hlevel.symm)
      (hhead _ rfl)
  | endIf =>
    exact fun c _ _ _ h _ =>
      iff_of_true (starts_singleton_iff.mpr (h.starts_closer rfl)) (readable_of_legible rfl rfl)
  | elseEnd b ih =>
    intro c blocks brackets headers h _
    refine (starts_cons_of (h.starts_closer rfl)).trans ?_
    exact marked_body ih h.passed_else rfl
  | elseIf e b f ih ih' ih'' =>
    intro c blocks brackets headers h hlevel
    have helse := h.left (t := .keyword .elseifKw) rfl
    refine (starts_cons_of (h.starts_closer rfl)).trans ?_
    refine (marked_branch ih ih' ih'' helse.stands hlevel
      (helse.heads rfl (by decide) e.starting)).trans ?_
    exact readable_triple rfl rfl
  | nothing =>
    exact fun _ _ _ _ _ _ _ _ _ => iff_of_true rfl ⟨readable_of_legible rfl rfl, .inr rfl⟩
  | ret closed => exact marked_ret closed
  | retValues es closed ih => exact marked_retValues closed ih
  | cons s b ih ih' => exact marked_cons ih ih'

end Tree

/-- The layout of a chunk marks exactly the first tokens of its statements and the tokens that close
its blocks if and only if the chunk is legible. -/
theorem layout_starts_iff (b : Tree .block) :
    (layout b.tokens).map (·.start) = b.begins true ↔ b.legible = true := by
  have hstarts : (layout b.tokens).map (·.start) = Cursor.start.starts b.tokens := by
    rw [Cursor.layout_eq, List.map_map]
    rfl
  rw [hstarts, b.marked Cursor.start [] [] 0 true rfl rfl (.inr (.inr rfl)) (.inl rfl),
    and_iff_left (.inl rfl)]
  exact and_iff_left (.inl rfl)

/-- The colons that end a label are marked, and the statement behind them is not. -/
example : (layout [.symbol .doubleColon, .name ['l'], .symbol .doubleColon, .keyword .breakKw]).map
    (·.start) = [true, false, true, false] := by decide

end LuaBundle.Lua
