import LuaBundle.Proofs.Lua.Grounds

/-!
# Expressions in a view

The walk reads an expression as its view says, functions included: the first function that closes
ends the statement for it.
-/
namespace LuaBundle.Lua

/-- What waits is gone when the end of the statement has come. -/
def keep (own : Option Waiting) (closes : Bool) : Option Waiting := if closes then none else own

theorem keep_keep (own : Option Waiting) (a b : Bool) : keep (keep own a) b = keep own (a || b) := by
  cases a <;> cases b <;> rfl

namespace Cursor

variable {c : Cursor} {t : Token} {ts : List Token} {own : Option Waiting} {blocks : List Nat}
  {brackets : List Bool} {headers : Nat}

/-- An expression may have ended here. -/
def Behind (c : Cursor) : Prop :=
  c.nesting.openedBlock = false ∧ ∃ p, c.before = some p ∧ p.endsExpression = true

/-- An expression is begun or gone on with here. -/
def Awaits (c : Cursor) : Prop :=
  c.nesting.openedBlock = false ∧ ∃ p, c.before = some p ∧ p.endsExpression = false ∧
    p ≠ .symbol .semicolon ∧ p.selects = false

theorem behind_of_rests (h : (c.after ts).Rests blocks brackets headers) (hts : EndsExpression ts) :
    (c.after ts).Behind :=
  ⟨by rw [h], hts.before_after c⟩

theorem awaits_of_rests (h : (c.next t).Rests blocks brackets headers)
    (hends : t.endsExpression = false) (hsemi : t ≠ .symbol .semicolon) (hsel : t.selects = false) :
    (c.next t).Awaits :=
  ⟨by rw [h], t, rfl, hends, hsemi, hsel⟩

theorem Stands.awaits_bracket {b : Symbol} (h : c.Stands blocks brackets headers)
    (hb : (Token.symbol b).opensBracket = true) : (c.next (.symbol b)).Awaits := by
  cases b <;> first | exact awaits_of_rests (h.opened rfl) rfl (by decide) rfl | cases hb

namespace Behind

theorem hushed (h : c.Behind) (hts : ∀ t ∈ ts.head?, t.continuesExpression = true) :
    Hushed own c ts := by
  obtain ⟨ho, p, hp, hends⟩ := h
  refine .of_joins hp ho fun t ht => ?_
  exact Token.joins_of_continues (Token.ne_semicolon_of_ends hends) (hts t ht)

theorem not_selecting (h : c.Behind) : ¬ c.Selecting := by
  obtain ⟨-, p, hp, hends⟩ := h
  rintro ⟨q, hq, hsel⟩
  rw [hp] at hq
  rw [← Option.some.inj hq, Token.selects_of_ends hends] at hsel
  cases hsel

end Behind

namespace Awaits

theorem hushed (h : c.Awaits) (hts : ∀ t ∈ ts.head?, t.closesBlock = false) : Hushed own c ts := by
  obtain ⟨ho, p, hp, hends, hsemi, -⟩ := h
  exact .of_joins hp ho fun t ht => Token.joins_of_operand hends hsemi (hts t ht)

/-- In front of an operand. -/
theorem hushed_start (h : c.Awaits) (hts : ∃ p us, ts = p :: us ∧ p.closesBlock = false) :
    Hushed own c ts := by
  obtain ⟨p, us, rfl, hp⟩ := hts
  exact h.hushed fun t ht => Option.some.inj ht ▸ hp

theorem not_selecting (h : c.Awaits) : ¬ c.Selecting := by
  obtain ⟨-, p, hp, -, -, hsel⟩ := h
  rintro ⟨q, hq, hsel'⟩
  rw [hp] at hq
  rw [← Option.some.inj hq, hsel] at hsel'
  cases hsel'

end Awaits

end Cursor

namespace Tree

/-- Expressions begin with no token that closes a block, arguments with one that goes on. -/
def Starting : {kind : Kind} → Tree kind → Prop
  | .args, t => ∃ p ts, t.tokens = p :: ts ∧ p.continuesExpression = true ∧ p ≠ .symbol .assign
  | .field, _ | .fields, _ | .stmt, _ | .tail, _ | .block, _ => True
  | .expr, t | .operand, t | .var, t | .call, t | .exprs, t | .vars, t | .range, t =>
    ∃ p ts, t.tokens = p :: ts ∧ p.closesBlock = false

theorem starting {kind : Kind} (t : Tree kind) : t.Starting := by
  have happend : ∀ {ts : List Token} (us : List Token), (∃ p ps, ts = p :: ps ∧ p.closesBlock = false) →
      ∃ p ps, ts ++ us = p :: ps ∧ p.closesBlock = false := by
    rintro ts us ⟨p, ps, rfl, hp⟩
    exact ⟨p, ps ++ us, rfl, hp⟩
  induction t with
  | literal t => exact ⟨t.1, [], rfl, (Token.of_isLiteral t.2).2.2⟩
  | plain p ih | read p ih | result p ih | one p ih | target p ih => exact ih
  | table fs | function ps b | paren e | name n => exact ⟨_, _, rfl, rfl⟩
  | binary l op r ih | more l r ih | targets l r ih | span l r ih | member p n ih
  | apply p a ih | invoke p n a ih => exact happend _ ih
  | index p e ih => exact happend _ (happend _ ih)
  | stride first limit step ih => exact happend _ (happend _ ih)
  | unary op e => exact ⟨op.1, _, rfl, (Token.of_isUnary op.2).2.2.1⟩
  | noArgs | someArgs es | tableArg fs => exact ⟨_, _, rfl, rfl, by decide⟩
  | stringArg text => exact ⟨_, _, rfl, rfl, by simp⟩
  | _ => trivial

/-- A name that is not taken for a key although an equals sign follows it. -/
def Unkeyed : {kind : Kind} → Tree kind → Cursor → Prop
  | _, .name n, c => (c.site (.name n)).mark.start = true ∨
    ∀ p, c.before = some p → p ≠ .symbol .braceOpen ∧ p.isSeparator = false
  | _, .index _ _, _ | _, .member _ _, _ => True
  | _, _, _ => False

end Tree

/-! ### Between statements -/

/-- A place at which a statement may begin. -/
structure Between (g : Ground) (own : Option Waiting) (x : View) (k : Nat) (ts : List Token)
    (c : Cursor) (s : ScopeState) : Prop extends Sees g own x k ts c s where
  atLevel : g.AtLevel
  begins : c.Begins x.fresh
  before : ∀ p, c.before = some p → p.selects = false ∧ p ≠ .symbol .braceOpen ∧ p ≠ .symbol .comma
  behind : own ≠ none → c.Behind

/-- What may follow a statement or a block. -/
def Succeeds (us : List Token) : Prop :=
  ∀ t ∈ us.head?, t ≠ .symbol .less ∧ t ≠ .symbol .comma ∧ t ≠ .symbol .assign

/-- The walk passes a block. -/
def ViewsBlock (b : Tree .block) : Prop :=
  ∀ g own x k us c s, Between g own x k (b.tokens ++ us) c s → Succeeds us →
    ∃ own', Passes g us c s b.tokens (b.seen x k) own' (b.left x k) (k + b.decls)

/-! ### Expressions -/

/-- The walk passes the tree's tokens as the view says. -/
def ViewsTokens {kind : Kind} (t : Tree kind) : Prop :=
  ∀ g own x k us c s, Sees g own x k (t.tokens ++ us) c s → ¬ c.Selecting →
    Hushed own c t.tokens → (x.braced = true → us.head? = some (.symbol .assign) → t.Unkeyed c) →
    Passes g us c s t.tokens (t.seen x k) (keep own t.closes) (x.past t) (k + t.decls)

/-- The same for fields, which stand inside the braces of a table. -/
def ViewsFields {kind : Kind} (t : Tree kind) : Prop :=
  ∀ g own x k us c s, Sees g own x k (t.tokens ++ us) c s → g.Deep → x.braced = true → c.AtField →
    us.head? ≠ some (.symbol .assign) →
    Passes g us c s t.tokens (t.seen x k) (keep own t.closes) (x.past t) (k + t.decls)

section

variable {g : Ground} {own : Option Waiting} {x : View} {k : Nat} {us ts : List Token} {c : Cursor}
  {s : ScopeState} {n : Name}

theorem Sees.core_next {s' : ScopeState} {t : Token} (h : Sees g own x k (t :: us) c s)
    (ht : t.isFlat = true) (hhush : Hushed own c (t :: us)) (hcore : s'.core = s.core) :
    Sees g own x k us (c.next t) s' :=
  ⟨(h.next (Token.closesBlock_of_flat ht) hhush).of_core hcore, (h.stands.flat ht).stands⟩

/-- A name that is no field and no key. -/
theorem Passes.name (h : Sees g own x k (.name n :: us) c s) (hsel : ¬ c.Selecting)
    (hhush : Hushed own c (.name n :: us))
    (hkey : x.braced = true → us.head? = some (.symbol .assign) → (Tree.name n).Unkeyed c) :
    Passes g us c s [.name n] [x.env.use n] own x k := by
  obtain ⟨s', huse, hcore⟩ := nameUse_scope (n := n) (c.site (.name n))
    ((c.next (.name n)).sites us) h.holds.frames.flatten_eq
    (fun hb => hsel ⟨_, hb, rfl⟩) (fun hb => hsel ⟨_, hb, rfl⟩) (by
      intro hbrace hassign
      have hbraced : x.braced = true := by
        rw [h.holds.braced, Ground.braced, ← h.holds.brackets, hbrace]
        rfl
      rw [startsWith_sites, beq_iff_eq] at hassign
      exact hkey hbraced hassign)
  refine ⟨s', .of_idle_step (h.idle rfl hhush) ?_ rfl, h.core_next rfl hhush hcore⟩
  rw [List.nil_append]
  simp only [step, Cursor.site_token, huse]
  rfl

/-- A name that the walk leaves unbound. -/
theorem Passes.unbound_name (h : Sees g own x k (.name n :: us) c s)
    (hhush : Hushed own c (.name n :: us))
    (huse : nameUse s (c.site (.name n)) n ((c.next (.name n)).sites us) = (.unbound, s)) :
    Passes g us c s [.name n] [.other] own x k := by
  refine ⟨s, .of_idle_step (h.idle rfl hhush) ?_ rfl, h.core_next rfl hhush rfl⟩
  rw [List.nil_append]
  simp only [step, Cursor.site_token, huse]
  rfl

theorem nameUse_selected (site : Site) (rest : List Site) {p : Token} (hp : site.before = some p)
    (hsel : p.selects = true) : nameUse s site n rest = (.unbound, s) := by
  unfold nameUse
  rw [if_pos]
  rw [hp]
  cases p with
  | symbol m => cases m <;> first | simp; done | cases hsel
  | keyword _ | name _ | number _ | string _ | comment _ => cases hsel

/-- The name behind a dot or a colon. -/
theorem Passes.selected_name {m : Symbol} (hm : (Token.symbol m).selects = true)
    (h : Sees g own x k (.name n :: us) (c.next (.symbol m)) s)
    (hrests : (c.next (.symbol m)).Rests g.blocks g.opened x.loops.length) :
    Passes g us (c.next (.symbol m)) s [.name n] [.other] own x k := by
  have hjoins : (Token.symbol m).joins (.name n) = true := by
    cases m <;> first | rfl | cases hm
  have hopened : (c.next (.symbol m)).nesting.openedBlock = false := by rw [hrests]
  exact .unbound_name h (.cons (Cursor.mark_of_joins hjoins rfl hopened))
    (nameUse_selected _ _ rfl hm)

end

/-- Behind the tree an expression may have ended. -/
def Tree.Phrased : {kind : Kind} → Tree kind → Prop
  | .field, _ | .fields, _ | .stmt, _ | .tail, _ | .block, _ => True
  | .expr, t | .operand, t | .var, t | .call, t | .args, t | .exprs, t | .vars, t | .range, t =>
    ∀ (c : Cursor) (blocks : List Nat) (brackets : List Bool) (headers : Nat),
      c.Stands blocks brackets headers → (c.after t.tokens).Behind

theorem Tree.phrased {kind : Kind} (t : Tree kind) : t.Phrased := by
  cases kind with
  | field | fields | stmt | tail | block => trivial
  | expr | operand | var | call | args | exprs | vars | range =>
    exact fun c _ _ _ h => Cursor.behind_of_rests (t.nested c _ _ _ h) t.ended

/-- A tree changes the view as two parts of it do. -/
structure Splits {kind kind₁ kind₂ : Kind} (t : Tree kind) (l : Tree kind₁) (r : Tree kind₂) :
    Prop where
  decls : t.decls = l.decls + r.decls
  closes : t.closes = (l.closes || r.closes)
  strays : t.strays true = l.strays true + r.strays true

theorem Splits.of_all {kind kind₁ kind₂ : Kind} {t : Tree kind} {l : Tree kind₁} {r : Tree kind₂}
    (hdecls : t.decls = l.decls + r.decls)
    (hall : (t.all fun t => !t.isFunction) =
      ((l.all fun t => !t.isFunction) && r.all fun t => !t.isFunction))
    (hstrays : t.strays true = l.strays true + r.strays true) : Splits t l r :=
  ⟨hdecls, Tree.closes_of_all hall, hstrays⟩

theorem Splits.past {kind kind₁ kind₂ : Kind} {t : Tree kind} {l : Tree kind₁} {r : Tree kind₂}
    (h : Splits t l r) (x : View) : x.past t = (x.past l).past r := by
  rw [View.past, View.past, View.past, View.pass_pass, h.closes, h.strays]

theorem Passes.of_splits {kind kind₁ kind₂ : Kind} {t : Tree kind} {l : Tree kind₁}
    {r : Tree kind₂} {g : Ground} {us ts : List Token} {c : Cursor} {s : ScopeState}
    {rs : List Role} {own : Option Waiting} {x : View} {k : Nat} (hsplits : Splits t l r)
    (h : Passes g us c s ts rs (keep (keep own l.closes) r.closes) ((x.past l).past r)
      (k + l.decls + r.decls)) :
    Passes g us c s ts rs (keep own t.closes) (x.past t) (k + t.decls) := by
  rw [hsplits.closes, hsplits.past, hsplits.decls, ← keep_keep, ← Nat.add_assoc]
  exact h

/-- A tree is written as two others with a token between them, and the view goes through both. -/
structure Connects {kind kind₁ kind₂ : Kind} (t : Tree kind) (l : Tree kind₁) (m : Token)
    (r : Tree kind₂) : Prop extends Splits t l r where
  tokens : t.tokens = l.tokens ++ m :: r.tokens
  seen : ∀ x k, t.seen x k = l.seen x k ++ .other :: r.seen (x.past l) (k + l.decls)
  keyed : ∀ c, ¬ t.Unkeyed c

/-- A tree is written as another in brackets. -/
structure Encloses {kind kind₁ : Kind} (t : Tree kind) (b : Symbol) (e : Tree kind₁) (close : Token) :
    Prop where
  tokens : t.tokens = .symbol b :: (e.tokens ++ [close])
  seen : ∀ x k, t.seen x k = .other :: (e.seen (x.inside (b == .braceOpen)) k ++ [.other])
  decls : t.decls = e.decls
  closes : t.closes = e.closes
  strays : t.strays true = e.strays true

theorem Encloses.past {kind kind₁ : Kind} {t : Tree kind} {b : Symbol} {e : Tree kind₁}
    {close : Token} (h : Encloses t b e close) (x : View) : x.past t = x.past e := by
  rw [View.past, View.past, h.closes, h.strays]

namespace ViewsTokens

variable {kind kind₁ kind₂ : Kind}

theorem literal (t : Literal) : ViewsTokens (.literal t) := by
  intro g own x k us c s h _ hhush _
  exact .inert (Token.isInert_of_isLiteral t.2) h hhush

theorem stringArg (text : List Char) : ViewsTokens (.stringArg text) := by
  intro g own x k us c s h _ hhush _
  exact .inert rfl h hhush

theorem name (n : Name) : ViewsTokens (.name n) :=
  fun _ _ _ _ _ _ _ h hsel hhush hkey => .name h hsel hhush hkey

/-- Two trees with a token between them that goes on with the first. -/
theorem connect {t : Tree kind} {l : Tree kind₁} {r : Tree kind₂} {m : Token}
    (h : Connects t l m r) (hl : ViewsTokens l) (hr : ViewsTokens r)
    (hphrase : ∀ (c : Cursor) blocks brackets headers, c.Stands blocks brackets headers →
      (c.after l.tokens).Behind)
    (hstart : ∃ p ts, r.tokens = p :: ts ∧ p.closesBlock = false)
    (hm : m.isInert = true) (hcontinues : m.continuesExpression = true)
    (hends : m.endsExpression = false) (hsemi : m ≠ .symbol .semicolon) (hsel : m.selects = false)
    (hassign : m ≠ .symbol .assign) : ViewsTokens t := by
  intro g own x k us c s hs hnotsel hhush hkey
  have hbehind := hphrase c _ _ _ hs.stands
  refine .of_splits h.toSplits ?_
  rw [h.tokens] at hs hhush ⊢
  rw [List.append_assoc] at hs
  rw [h.seen]
  refine .append (hl g own x k _ c s hs hnotsel hhush.append ?_) fun s₁ h₁ => ?_
  · rintro - hnext
    exact absurd (Option.some.inj hnext) hassign
  refine .cons_inert hm h₁ (hbehind.hushed fun t ht => Option.some.inj ht ▸ hcontinues)
    fun s₂ h₂ => ?_
  have hawaits := Cursor.awaits_of_rests (h₁.stands.flat (Token.isFlat_of_isInert hm)) hends hsemi
    hsel
  refine hr g _ _ _ us _ s₂ h₂ hawaits.not_selecting (hawaits.hushed_start hstart) ?_
  intro hbraced hnext
  rw [View.braced_past] at hbraced
  exact absurd (hkey hbraced hnext) (h.keyed c)

theorem binary {l r : Tree .expr} (op : BinaryOp) (hl : ViewsTokens l) (hr : ViewsTokens r) :
    ViewsTokens (.binary l op r) := by
  obtain ⟨hinert, hsel, hassign⟩ := Token.isInert_of_isBinary op.2
  obtain ⟨-, hends, hcontinues, hsemi⟩ := Token.of_isBinary op.2
  refine connect ⟨.of_all rfl rfl rfl, rfl, fun _ _ => rfl, fun _ => id⟩ hl hr l.phrased r.starting hinert
    hcontinues hends hsemi hsel hassign

theorem comma {t : Tree kind} {l : Tree kind₁} {r : Tree kind₂}
    (h : Connects t l (.symbol .comma) r) (hl : ViewsTokens l) (hr : ViewsTokens r)
    (hphrase : ∀ (c : Cursor) blocks brackets headers, c.Stands blocks brackets headers →
      (c.after l.tokens).Behind)
    (hstart : ∃ p ts, r.tokens = p :: ts ∧ p.closesBlock = false) : ViewsTokens t :=
  connect h hl hr hphrase hstart rfl rfl rfl (by decide) rfl (by decide)

theorem more {e : Tree .expr} {es : Tree .exprs} (he : ViewsTokens e) (hes : ViewsTokens es) :
    ViewsTokens (.more e es) :=
  comma ⟨.of_all rfl rfl rfl, rfl, fun _ _ => rfl,
    fun _ => id⟩ he hes e.phrased es.starting

theorem connects_span (first limit : Tree .expr) :
    Connects (.span first limit) first (.symbol .comma) limit :=
  ⟨.of_all rfl rfl rfl, rfl, fun _ _ => rfl, fun _ => id⟩

theorem span {first limit : Tree .expr} (h₁ : ViewsTokens first) (h₂ : ViewsTokens limit) :
    ViewsTokens (.span first limit) :=
  comma (connects_span first limit) h₁ h₂ first.phrased limit.starting

theorem stride {first limit step : Tree .expr} (h₁ : ViewsTokens first) (h₂ : ViewsTokens limit)
    (h₃ : ViewsTokens step) : ViewsTokens (.stride first limit step) := by
  refine comma (l := .span first limit) ⟨.of_all rfl rfl rfl, rfl, fun x k => ?_, fun _ => id⟩
    (span h₁ h₂) h₃ (Tree.phrased (.span first limit)) step.starting
  · rw [(connects_span first limit).past, Tree.decls, ← Nat.add_assoc]
    rfl

theorem unary {e : Tree .expr} (op : UnaryOp) (he : ViewsTokens e) : ViewsTokens (.unary op e) := by
  intro g own x k us c s h _ hhush hkey
  obtain ⟨hinert, hsel⟩ := Token.isInert_of_isUnary op.2
  obtain ⟨hflat, hends, -, hsemi⟩ := Token.of_isUnary op.2
  have hawaits := Cursor.awaits_of_rests (h.stands.flat hflat) hends hsemi hsel
  refine .cons_inert hinert h hhush fun s' h' => ?_
  exact he g own x k us _ s' h' hawaits.not_selecting (hawaits.hushed_start e.starting) fun hb ha =>
    (hkey hb ha).elim

/-- In brackets of any form. -/
theorem enclosed {b : Symbol} {e : Token} {us : List Token} {t : Tree kind} {x : View} {k : Nat}
    {g : Ground} {own : Option Waiting} {c : Cursor} {s : ScopeState} (ht : ViewsTokens t)
    (h : Sees g own x k (.symbol b :: (t.tokens ++ [e] ++ us)) c s)
    (hb : (Token.symbol b).opensBracket = true) (he : e.closesBracket = true)
    (hstart : ∃ p ts, t.tokens = p :: ts ∧ p.closesBlock = false)
    (hhush : Hushed own c (.symbol b :: (t.tokens ++ [e] ++ us))) :
    Passes g us c s (.symbol b :: (t.tokens ++ [e]))
      (.other :: (t.seen (x.inside (b == .braceOpen)) k ++ [.other])) (keep own t.closes) (x.past t)
      (k + t.decls) := by
  have hawaits := h.stands.awaits_bracket hb
  rw [← View.inside_past x t (b == .braceOpen)]
  refine .group h hb he hhush fun s' h' => ?_
  refine ht _ own _ k _ _ s' h' hawaits.not_selecting (hawaits.hushed_start hstart) ?_
  rintro - heq
  cases Option.some.inj heq
  cases he

theorem parenthesized {t : Tree kind} {e : Tree kind₁}
    (h : Encloses t .parenOpen e (.symbol .parenClose)) (he : ViewsTokens e)
    (hstart : ∃ p ts, e.tokens = p :: ts ∧ p.closesBlock = false) : ViewsTokens t := by
  intro g own x k us c s hs _ hhush _
  rw [h.tokens] at hs hhush ⊢
  rw [h.seen, h.decls, h.closes, h.past]
  exact he.enclosed hs rfl rfl hstart hhush

theorem braced {t : Tree kind} {fs : Tree .fields}
    (h : Encloses t .braceOpen fs (.symbol .braceClose)) (hfs : ViewsFields fs) : ViewsTokens t := by
  intro g own x k us c s hs _ hhush _
  rw [h.tokens] at hs hhush ⊢
  rw [h.seen, h.decls, h.closes, h.past, ← View.inside_past x fs true]
  refine .group hs rfl rfl hhush fun s' h' => ?_
  exact hfs _ own _ k _ _ s' h' (g.deep_push .braceOpen) rfl ⟨_, rfl, .inl rfl⟩ nofun

theorem noArgs : ViewsTokens .noArgs := by
  intro g own x k us c s h _ hhush _
  show Passes g us c s (.symbol .parenOpen :: ([] ++ [.symbol .parenClose]))
    (.other :: ([] ++ [.other])) own ((x.inside false).inside x.braced) k
  exact .group h rfl rfl hhush fun s' h' => .nil h'

theorem index {p : Tree .operand} {e : Tree .expr} (hp : ViewsTokens p) (he : ViewsTokens e) :
    ViewsTokens (.index p e) := by
  intro g own x k us c s h hsel hhush _
  have htokens : (Tree.index p e).tokens =
      p.tokens ++ .symbol .bracketOpen :: (e.tokens ++ [.symbol .bracketClose]) :=
    List.append_assoc ..
  have hseen : (Tree.index p e).seen x k =
      p.seen x k ++ .other :: (e.seen ((x.past p).inside false) (k + p.decls) ++ [.other]) :=
    List.append_assoc ..
  have hsplits : Splits (Tree.index p e) p e := .of_all rfl rfl rfl
  have hbehind := p.phrased c _ _ _ h.stands
  rw [htokens] at h hhush ⊢
  refine .of_splits hsplits ?_
  rw [hseen]
  rw [List.append_assoc] at h
  refine .append (hp g own x k _ c s h hsel hhush.append nofun) fun s' h' => ?_
  refine he.enclosed h' rfl rfl e.starting (hbehind.hushed ?_)
  intro t ht
  cases ht
  rfl

theorem member {p : Tree .operand} (n : Name) (hp : ViewsTokens p) : ViewsTokens (.member p n) := by
  intro g own x k us c s h hsel hhush _
  have hbehind := p.phrased c _ _ _ h.stands
  have h : Sees g own x k (p.tokens ++ ([.symbol .dot, .name n] ++ us)) c s := by
    rw [← List.append_assoc]
    exact h
  refine .append (hp g own x k _ c s h hsel hhush.append nofun) fun s₁ h₁ => ?_
  refine .cons_inert rfl h₁ (hbehind.hushed ?_) fun s₂ h₂ => ?_
  · intro t ht
    cases ht
    rfl
  · exact .selected_name rfl h₂ (h₁.stands.flat rfl)

theorem apply {p : Tree .operand} {a : Tree .args} (hp : ViewsTokens p) (ha : ViewsTokens a) :
    ViewsTokens (.apply p a) := by
  intro g own x k us c s h hsel hhush hkey
  have hbehind := p.phrased c _ _ _ h.stands
  obtain ⟨t, ts, htokens, ht, hassign⟩ := a.starting
  have hhead : ∀ t ∈ a.tokens.head?, t.continuesExpression = true := by
    rw [htokens]
    intro t' ht'
    exact Option.some.inj ht' ▸ ht
  have h : Sees g own x k (p.tokens ++ (a.tokens ++ us)) c s := by
    rw [← List.append_assoc]
    exact h
  have hsplits : Splits (Tree.apply p a) p a := .of_all rfl rfl rfl
  refine .of_splits hsplits ?_
  refine .append (hp g own x k _ c s h hsel hhush.append ?_) fun s' h' => ?_
  · rintro - heq
    rw [htokens] at heq
    exact absurd (Option.some.inj heq) hassign
  · refine ha g _ _ _ us _ s' h' hbehind.not_selecting (hbehind.hushed hhead) fun hb heq => ?_
    rw [View.braced_past] at hb
    exact (hkey hb heq).elim

theorem invoke {p : Tree .operand} {a : Tree .args} (n : Name) (hp : ViewsTokens p)
    (ha : ViewsTokens a) : ViewsTokens (.invoke p n a) := by
  intro g own x k us c s h hsel hhush hkey
  have hbehind := p.phrased c _ _ _ h.stands
  obtain ⟨t, ts, htokens, ht, -⟩ := a.starting
  have hhead : ∀ t ∈ a.tokens.head?, t.continuesExpression = true := by
    rw [htokens]
    intro t' ht'
    exact Option.some.inj ht' ▸ ht
  have h : Sees g own x k (p.tokens ++ (.symbol .colon :: .name n :: a.tokens ++ us)) c s := by
    rw [← List.append_assoc]
    exact h
  have hsplits : Splits (Tree.invoke p n a) p a := .of_all rfl rfl rfl
  refine .of_splits hsplits ?_
  refine .append (hp g own x k _ c s h hsel hhush.append nofun) fun s₁ h₁ => ?_
  refine .cons_inert rfl h₁ (hbehind.hushed ?_) fun s₂ h₂ => ?_
  · intro t ht
    cases ht
    rfl
  have hcolon := h₁.stands.flat (t := .symbol .colon) rfl
  refine .cons (.selected_name rfl h₂ hcolon) fun s₃ h₃ => ?_
  have hname : (((c.after p.tokens).next (.symbol .colon)).next (.name n)).Behind :=
    ⟨by rw [hcolon.stands.flat rfl], _, rfl, rfl⟩
  refine ha g _ _ _ us _ s₃ h₃ hname.not_selecting (hname.hushed hhead) fun hb heq => ?_
  rw [View.braced_past] at hb
  exact (hkey hb heq).elim

end ViewsTokens

/-! ### Targets -/

/-- The walk passes a target list, or the rest of one behind a comma. -/
structure ViewsTargets (vs : Tree .vars) : Prop where
  first : ∀ g own x k us c s, Sees g own x k (vs.tokens ++ .symbol .assign :: us) c s →
    ¬ c.Selecting → Hushed own c vs.tokens → (∀ n, (Tree.name n).Unkeyed c) →
    Passes g (.symbol .assign :: us) c s vs.tokens (vs.seen x k) (keep own vs.closes) (x.past vs)
      (k + vs.decls)
  listed : ∀ g own x k us c s, Sees g own x k (vs.tokens ++ .symbol .assign :: us) c s →
    c.Awaits → c.before = some (.symbol .comma) →
    Passes g (.symbol .assign :: us) c s vs.tokens
      (if x.braced && vs.isPlainTarget then [.other] else vs.seen x k) (keep own vs.closes)
      (x.past vs) (k + vs.decls)

namespace ViewsTargets

theorem target {v : Tree .var} (hv : ViewsTokens v) : ViewsTargets (.target v) where
  first := by
    intro g own x k us c s h hsel hhush hkey
    have hunkeyed : v.Unkeyed c := by
      cases v with
      | name n => exact hkey n
      | index p e | member p n => trivial
    exact hv g own x k _ c s h hsel hhush fun _ _ => hunkeyed
  listed := by
    intro g own x k us c s h hawaits hcomma
    have hhush : Hushed own c (Tree.target v).tokens := hawaits.hushed_start v.starting
    have hpass := hv g own x k _ c s h hawaits.not_selecting hhush
    cases v with
    | name n =>
      cases hbraced : x.braced with
      | false => exact hpass fun hb _ => absurd (hbraced.symm.trans hb) nofun
      | true =>
        have hbrace : s.brackets.head? = some .braceOpen := by
          have hground : g.braced = true := h.holds.braced.symm.trans hbraced
          rw [h.holds.brackets]
          exact beq_iff_eq.mp hground
        refine .unbound_name h hhush (nameUse_key _ _ hcomma hbrace ?_ (.inr rfl) rfl)
        obtain ⟨ho, p, hp, hends, hsemi, -⟩ := hawaits
        exact Cursor.mark_of_joins (Token.joins_of_operand hends hsemi rfl) hp ho
    | index p e | member p n =>
      rw [if_neg (by simp [Tree.isPlainTarget])]
      exact hpass fun _ _ => trivial

theorem targets {v : Tree .var} {vs : Tree .vars} (hv : ViewsTokens v) (hvs : ViewsTargets vs) :
    ViewsTargets (.targets v vs) := by
  have hseen : ∀ g own x k us c s,
      Sees g own x k ((Tree.targets v vs).tokens ++ .symbol .assign :: us) c s → ¬ c.Selecting →
      Hushed own c v.tokens →
      Passes g (.symbol .assign :: us) c s (Tree.targets v vs).tokens ((Tree.targets v vs).seen x k)
        (keep own (Tree.targets v vs).closes) (x.past (.targets v vs)) (k + (Tree.targets v vs).decls) := by
    intro g own x k us c s h hsel hhush
    have hbehind := v.phrased c _ _ _ h.stands
    have h : Sees g own x k (v.tokens ++ (.symbol .comma :: vs.tokens ++ .symbol .assign :: us)) c s := by
      rw [← List.append_assoc]
      exact h
    have hsplits : Splits (Tree.targets v vs) v vs := .of_all rfl rfl rfl
    refine .of_splits hsplits ?_
    refine .append (hv g own x k _ c s h hsel hhush nofun) fun s₁ h₁ => ?_
    refine .cons_inert rfl h₁ (hbehind.hushed ?_) fun s₂ h₂ => ?_
    · intro t ht
      cases ht
      rfl
    have hawaits := Cursor.awaits_of_rests (h₁.stands.flat (t := .symbol .comma) rfl) rfl
      (by decide) rfl
    have hlisted := hvs.listed g _ _ (k + v.decls) us _ s₂ h₂ hawaits rfl
    rw [View.braced_past] at hlisted
    exact hlisted
  refine ⟨?_, ?_⟩
  · intro g own x k us c s h hsel hhush _
    exact hseen g own x k us c s h hsel hhush.append
  · intro g own x k us c s h hawaits _
    rw [if_neg (by simp [Tree.isPlainTarget])]
    exact hseen g own x k us c s h hawaits.not_selecting (hawaits.hushed_start v.starting)

end ViewsTargets

/-! ### Fields -/

namespace ViewsFields

theorem item {e : Tree .expr} (he : ViewsTokens e) : ViewsFields (.item e) := by
  intro g own x k us c s h hg _ ⟨p, hp, hfield⟩ hus
  refine he g own x k us c s h ?_ (.of_deep (h.deep hg) hp) fun _ ha => absurd ha hus
  rintro ⟨q, hq, hsel⟩
  rw [hp] at hq
  obtain rfl := Option.some.inj hq
  rcases hfield with rfl | hsep
  · cases hsel
  · rw [(Token.isInert_of_isSeparator hsep).2.1] at hsel
    cases hsel

theorem named {e : Tree .expr} (n : Name) (he : ViewsTokens e) : ViewsFields (.named n e) := by
  intro g own x k us c s h hg hbraced ⟨p, hp, hfield⟩ hus
  have hbrace : s.brackets.head? = some .braceOpen := by
    have hground : g.braced = true := h.holds.braced.symm.trans hbraced
    rw [h.holds.brackets]
    exact beq_iff_eq.mp hground
  have hdeep := h.deep hg
  refine .cons (.unbound_name h (.of_deep hdeep hp)
    (nameUse_key _ _ hp hbrace (Cursor.mark_of_deep hdeep hp _) hfield rfl)) fun s₁ h₁ => ?_
  refine .cons_inert rfl h₁ (.of_deep (h₁.deep hg) rfl) fun s₂ h₂ => ?_
  have hawaits := Cursor.awaits_of_rests (h₁.stands.flat (t := .symbol .assign) rfl) rfl
    (by decide) rfl
  exact he g own x k us _ s₂ h₂ hawaits.not_selecting (.of_deep (h₂.deep hg) rfl) fun _ ha =>
    absurd ha hus

theorem keyed {key e : Tree .expr} (hkey : ViewsTokens key) (he : ViewsTokens e) :
    ViewsFields (.keyed key e) := by
  intro g own x k us c s h hg _ ⟨p, hp, _⟩ hus
  have hseen : (Tree.keyed key e).seen x k =
      .other :: (key.seen (x.inside false) k ++ [.other]) ++
        .other :: e.seen (x.past key) (k + key.decls) := by
    show .other :: (key.seen _ k ++ _) = _
    simp
  have hsplits : Splits (Tree.keyed key e) key e := .of_all rfl rfl rfl
  rw [Tree.keyed_tokens] at h ⊢
  refine .of_splits hsplits ?_
  rw [hseen]
  rw [List.append_assoc] at h
  have hhush : Hushed own c (.symbol .bracketOpen :: (key.tokens ++ [.symbol .bracketClose]) ++
      (.symbol .assign :: e.tokens ++ us)) := .of_deep (h.deep hg) hp
  refine .append (hkey.enclosed h rfl rfl key.starting hhush) fun s₁ h₁ => ?_
  obtain ⟨q, hq⟩ := Cursor.exists_before_after hp
    (.symbol .bracketOpen :: (key.tokens ++ [.symbol .bracketClose]))
  refine .cons_inert rfl h₁ (.of_deep (h₁.deep hg) hq) fun s₂ h₂ => ?_
  have hawaits := Cursor.awaits_of_rests (h₁.stands.flat (t := .symbol .assign) rfl) rfl
    (by decide) rfl
  exact he g _ _ _ us _ s₂ h₂ hawaits.not_selecting (.of_deep (h₂.deep hg) rfl) fun _ ha =>
    absurd ha hus

theorem noField : ViewsFields .noField := fun _ _ _ _ _ _ _ h _ _ _ _ => .nil h

theorem lastField {f : Tree .field} (hf : ViewsFields f) : ViewsFields (.lastField f) := by
  intro g own x k us c s h hg hbraced hfield hus
  exact hf g own x k us c s h hg hbraced hfield hus

theorem fieldThen {f : Tree .field} {fs : Tree .fields} (sep : Separator) (hf : ViewsFields f)
    (hfs : ViewsFields fs) : ViewsFields (.fieldThen f sep fs) := by
  intro g own x k us c s h hg hbraced hfield hus
  obtain ⟨p, hp, -⟩ := id hfield
  obtain ⟨hinert, -, hassign⟩ := Token.isInert_of_isSeparator sep.2
  have h : Sees g own x k (f.tokens ++ (sep.1 :: fs.tokens ++ us)) c s := by
    rw [← List.append_assoc]
    exact h
  have hsplits : Splits (Tree.fieldThen f sep fs) f fs := .of_all rfl rfl rfl
  refine .of_splits hsplits ?_
  refine .append (hf g own x k _ c s h hg hbraced hfield ?_) fun s₁ h₁ => ?_
  · exact fun ha => hassign (Option.some.inj ha)
  obtain ⟨q, hq⟩ := Cursor.exists_before_after hp f.tokens
  refine .cons_inert hinert h₁ (.of_deep (h₁.deep hg) hq) fun s₂ h₂ => ?_
  refine hfs g _ _ _ us _ s₂ h₂ hg ?_ ⟨_, rfl, .inr sep.2⟩ hus
  rw [View.braced_past]
  exact hbraced

end ViewsFields

/-! ### Functions -/

/-- At the beginning of a block. -/
theorem Between.of_opens {g : Ground} {own : Option Waiting} {G : List Frame} {y : View} {k : Nat}
    {ts : List Token} {c : Cursor} {s : ScopeState} {p : Token}
    (h : Holds (g.block own G) none y k (c.sites ts) s)
    (hopens : c.Opens g.blocks g.opened y.loops.length) (hfresh : y.fresh = true)
    (hp : c.before = some p)
    (hplain : p.selects = false ∧ p ≠ .symbol .braceOpen ∧ p ≠ .symbol .comma) :
    Between (g.block own G) none y k ts c s where
  holds := h
  stands := hopens.stands
  atLevel := rfl
  begins := by
    rw [hfresh]
    exact hopens.begins
  before := fun q hq => Option.some.inj (hp.symm.trans hq) ▸ hplain
  behind := absurd rfl

/-- A body and the `end` that closes it; `y` is the view inside. -/
theorem ViewsBlock.body {b : Tree .block} (hb : ViewsBlock b) {g : Ground} {own : Option Waiting}
    {x y : View} {k : Nat} {us : List Token} {c : Cursor} {s : ScopeState} {G : List Frame}
    (h : Between (g.block own G) none y k (b.tokens ++ .keyword .endKw :: us) c s)
    (hG : Frames g.outer own x.env x.later G) (hfresh : y.fresh = true)
    (hbraced : y.braced = x.braced) :
    Passes g us c s (b.tokens ++ [.keyword .endKw]) (b.seen y k ++ [.other]) none
      { x.settled with loops := y.loops.drop (b.strays true) } (k + b.decls) := by
  obtain ⟨inner, hpass⟩ := hb _ _ _ _ _ _ _ h (by simp [Succeeds])
  obtain ⟨hloops, hbraced'⟩ := b.leaves y k
  rw [hfresh] at hloops
  obtain ⟨s', hrun, hsees⟩ := hpass
  refine .prepend hrun ?_
  obtain ⟨s'', hend, hout⟩ := Passes.closer hsees (.inl rfl) hG
  exact ⟨s'', hend, hout.of_eq rfl rfl hloops.symm (hbraced.symm.trans hbraced'.symm)⟩

theorem Params.before_after (ps : Params) (c : Cursor) (ts : List Token) :
    (c.after (ts ++ ps.tokens)).before = some (.symbol .parenClose) := by
  rw [Params.tokens, ← List.append_assoc, Cursor.after_append]
  rfl

theorem ViewsTokens.function {b : Tree .block} (ps : Params) (hb : ViewsBlock b) :
    ViewsTokens (.function ps b) := by
  intro g own x k us c s h _ hhush _
  have htokens : (Tree.function ps b).tokens =
      (.keyword .functionKw :: ps.tokens) ++ (b.tokens ++ [.keyword .endKw]) :=
    List.append_assoc ..
  have hseen : (Tree.function ps b).seen x k = (.other :: ps.roles k) ++
      (b.seen (x.opened (declared k ps.names)) (k + ps.names.length) ++ [.other]) :=
    List.append_assoc ..
  rw [htokens] at h ⊢
  rw [hseen]
  rw [List.append_assoc] at h
  have hheader := Sees.header [] ps h (by simp) hhush fun _ => rfl
  have hstep : step s (c.site (.keyword .functionKw)) ((c.next (.keyword .functionKw)).sites
      (ps.tokens ++ (b.tokens ++ [.keyword .endKw] ++ us))) =
      .ok (.unbound :: bindings (ps.roles s.declared), (s.receive []).declare ps.names) :=
    congrArg (after .unbound) (functionParams_list rfl ps _)
  rw [h.holds.declared] at hstep
  refine .prepend (.of_idle_step (h.idle rfl hhush) hstep ?_) ?_
  · simp [bindings, ps.roles_length]
  have hbody := (hheader.receive []).declare ps.names
  rw [List.append_assoc] at hbody
  have hopens := h.stands.parameters [] (by simp) ps
  have hpass := hb.body (.of_opens hbody hopens rfl (ps.before_after c [.keyword .functionKw])
    ⟨rfl, by decide, by decide⟩) h.holds.frames rfl rfl
  have hcount : k + (Tree.function ps b).decls = k + ps.names.length + b.decls :=
    (Nat.add_assoc ..).symm
  rw [hcount]
  exact hpass

end LuaBundle.Lua
