import LuaBundle.Proofs.Lua.Balance

/-!
# Names in expressions

The walk binds the names of an expression as its scope says, and leaves the frames as they are.
-/
namespace LuaBundle.Lua

def Variable.decl (v : Variable) : Decl := ⟨v.number, v.implicit⟩

namespace Role

def binding : Role → Binding
  | declares v | refers v => .declared v.decl
  | free => .global
  | other => .unbound

end Role

def bindings (rs : List Role) : List Binding := rs.map Role.binding

@[simp] theorem bindings_nil : bindings [] = [] := rfl

@[simp] theorem bindings_cons (r : Role) (rs : List Role) :
    bindings (r :: rs) = r.binding :: bindings rs := rfl

@[simp] theorem bindings_append (rs rs' : List Role) :
    bindings (rs ++ rs') = bindings rs ++ bindings rs' := List.map_append

def Env.entries (Γ : Env) : Frame := Γ.map fun v => (v.name, v.decl)

namespace Token

def selects : Token → Bool
  | symbol .dot | symbol .colon => true
  | _ => false

/-- Tokens that the walk passes without a change. -/
def isInert : Token → Bool
  | number _ | string _ | comment _ => true
  | keyword .andKw | keyword .breakKw | keyword .falseKw | keyword .ifKw | keyword .inKw => true
  | keyword .nilKw | keyword .notKw | keyword .orKw | keyword .returnKw | keyword .trueKw => true
  | keyword _ | name _ => false
  | symbol .doubleColon => false
  | symbol .parenOpen | symbol .bracketOpen | symbol .braceOpen => false
  | symbol .parenClose | symbol .bracketClose | symbol .braceClose => false
  | symbol _ => true

variable {t : Token}

theorem isFlat_of_isInert (h : t.isInert = true) : t.isFlat = true := by
  cases t with
  | keyword k => cases k <;> first | rfl | cases h
  | symbol s => cases s <;> first | rfl | cases h
  | number _ | string _ | comment _ => rfl
  | name _ => cases h

theorem isInert_of_isLiteral (h : t.isLiteral = true) : t.isInert = true := by
  cases t with
  | keyword k => cases k <;> first | rfl | cases h
  | symbol s => cases s <;> first | rfl | cases h
  | number _ | string _ => rfl
  | name _ | comment _ => cases h

theorem isInert_of_isUnary (h : t.isUnary = true) : t.isInert = true ∧ t.selects = false := by
  cases t with
  | keyword k => cases k <;> first | exact ⟨rfl, rfl⟩ | cases h
  | symbol s => cases s <;> first | exact ⟨rfl, rfl⟩ | cases h
  | name _ | number _ | string _ | comment _ => cases h

theorem isInert_of_isBinary (h : t.isBinary = true) :
    t.isInert = true ∧ t.selects = false ∧ t ≠ .symbol .assign := by
  cases t with
  | keyword k => cases k <;> first | exact ⟨rfl, rfl, by decide⟩ | cases h
  | symbol s => cases s <;> first | exact ⟨rfl, rfl, by decide⟩ | cases h
  | name _ | number _ | string _ | comment _ => cases h

theorem isInert_of_isSeparator (h : t.isSeparator = true) :
    t.isInert = true ∧ t.selects = false ∧ t ≠ .symbol .assign := by
  cases t with
  | symbol s => cases s <;> first | exact ⟨rfl, rfl, by decide⟩ | cases h
  | keyword _ | name _ | number _ | string _ | comment _ => cases h

theorem selects_of_ends (h : t.endsExpression = true) : t.selects = false := by
  cases t with
  | symbol s => cases s <;> first | rfl | cases h
  | keyword _ | name _ | number _ | string _ | comment _ => rfl

end Token

section Steps

variable {c : Cursor} {s : ScopeState} {rest : List Site} {us ts : List Token} {t : Token}

theorem step_inert (h : t.isInert = true) : step s (c.site t) rest = .ok ([.unbound], s) := by
  cases t with
  | keyword k => cases k <;> first | rfl | cases h
  | symbol m => cases m <;> first | rfl | cases h
  | number _ | string _ | comment _ => rfl
  | name _ => cases h

theorem step_open {b : Symbol} (h : (Token.symbol b).opensBracket = true) :
    step s (c.site (.symbol b)) rest = .ok ([.unbound], { s with brackets := b :: s.brackets }) := by
  cases b <;> first | rfl | cases h

theorem step_close (h : t.closesBracket = true) :
    step s (c.site t) rest = .ok ([.unbound], { s with brackets := s.brackets.tail }) := by
  cases t with
  | symbol m => cases m <;> first | rfl | cases h
  | keyword _ | name _ | number _ | string _ | comment _ => cases h

theorem startsWith_sites (m : Symbol) (c : Cursor) (ts : List Token) :
    startsWith m (c.sites ts) = (ts.head? == some (.symbol m)) := by
  cases ts with
  | nil => rfl
  | cons t ts => rfl

theorem Runs.inert (h : t.isInert = true) (hidle : s.Idle c.index) :
    Runs us c s [t] [.unbound] s :=
  .of_idle_step hidle (step_inert h) rfl

end Steps

/-! ### Looking up -/

section Lookup

variable {Γ : Env} {s : ScopeState} {n : Name}

theorem lookup_flatten (frames : List Frame) (n : Name) :
    frames.findSome? (·.lookup n) = frames.flatten.lookup n := by
  induction frames with
  | nil => rfl
  | cons f frames ih =>
    rw [List.findSome?_cons, List.flatten_cons, List.lookup_append, ih]
    cases f.lookup n <;> rfl

theorem lookup_entries (Γ : Env) (n : Name) :
    Γ.entries.lookup n = (Γ.find? (·.name = n)).map Variable.decl := by
  induction Γ with
  | nil => rfl
  | cons v Γ ih =>
    by_cases h : v.name = n
    · subst h
      simp [Env.entries]
    · have hne : (n == v.name) = false := by simpa using Ne.symm h
      simp only [Env.entries, List.map_cons, List.lookup_cons, hne] at ih ⊢
      rw [ih, List.find?_cons_of_neg (by simpa using h)]

theorem reference_use (h : s.frames.flatten = Γ.entries) (n : Name) (isAssigned : Bool) :
    ∃ s', s.reference n isAssigned = ((Γ.use n).binding, s') ∧ s'.core = s.core := by
  have hlookup : s.lookup? n = (Γ.find? (·.name = n)).map Variable.decl := by
    rw [ScopeState.lookup?, lookup_flatten, h, lookup_entries]
  rw [ScopeState.reference, Env.use, hlookup]
  cases Γ.find? (·.name = n) with
  | some v => exact ⟨s, rfl, rfl⟩
  | none =>
    refine ⟨_, rfl, ?_⟩
    split
    · unfold ScopeState.assign
      split <;> rfl
    · rfl

/-- A name that is not taken for a field or a key is bound as the scope says. -/
theorem nameUse_scope (site : Site) (rest : List Site)
    (h : s.frames.flatten = Γ.entries) (hdot : site.before ≠ some (.symbol .dot))
    (hcolon : site.before ≠ some (.symbol .colon))
    (hkey : s.brackets.head? = some .braceOpen → startsWith .assign rest = true →
      site.mark.start = true ∨ ∀ p, site.before = some p → p ≠ .symbol .braceOpen ∧
        p.isSeparator = false) :
    ∃ s', nameUse s site n rest = ((Γ.use n).binding, s') ∧ s'.core = s.core := by
  have hnokey : ¬ (s.brackets.head? = some .braceOpen ∧ ¬ site.mark.start ∧
      (site.before = some (.symbol .braceOpen) ∨ site.before = some (.symbol .comma) ∨
        site.before = some (.symbol .semicolon)) ∧ startsWith .assign rest) := by
    rintro ⟨hbrace, hstart, hbefore, hassign⟩
    rcases hkey hbrace hassign with hstart' | hplain
    · exact hstart hstart'
    · rcases hbefore with hp | hp | hp
      · exact (hplain _ hp).1 rfl
      · exact nomatch (hplain _ hp).2
      · exact nomatch (hplain _ hp).2
  unfold nameUse
  rw [if_neg (by simp [hdot, hcolon]), if_neg hnokey]
  split
  · obtain ⟨s', hs', hcore⟩ := reference_use
      (s := { s with targets := assignmentTargets site rest ++ s.targets }) h n
      (decide (site.index ∈ assignmentTargets site rest ++ s.targets))
    exact ⟨s', hs', hcore⟩
  · exact reference_use h n _

/-- The key of a field, or a target that looks like one. -/
theorem nameUse_key (site : Site) (rest : List Site) {p : Token} (hp : site.before = some p)
    (hbrace : s.brackets.head? = some .braceOpen) (hstart : site.mark.start = false)
    (hkey : p = .symbol .braceOpen ∨ p.isSeparator = true)
    (hassign : startsWith .assign rest = true) : nameUse s site n rest = (.unbound, s) := by
  have hbefore : p = .symbol .braceOpen ∨ p = .symbol .comma ∨ p = .symbol .semicolon := by
    rcases hkey with rfl | hsep
    · exact .inl rfl
    · cases p with
      | symbol m => cases m <;> first | simp; done | cases hsep
      | keyword _ | name _ | number _ | string _ | comment _ => cases hsep
  unfold nameUse
  split
  · rfl
  · rw [if_pos ⟨hbrace, by simp [hstart], by simpa [hp] using hbefore, hassign⟩]

end Lookup

/-! ### Reading -/

/-- The token before the cursor selects a field or a method. -/
def Cursor.Selecting (c : Cursor) : Prop := ∃ p, c.before = some p ∧ p.selects = true

/-- A place in a scope at which the tokens `ts` may be read as a part of an expression. -/
structure Place (Γ : Env) (c : Cursor) (s : ScopeState) (ts : List Token) : Prop where
  scope : s.frames.flatten = Γ.entries
  idle : ∀ w ∈ s.waiting, w.1 < c.index ∨ c.index + ts.length ≤ w.1
  before : ¬ c.Selecting
  fit : c.nesting.Fit

/-- The tokens are not the key of a field, as far as what follows them tells. -/
structure Reads (Γ : Env) (us : List Token) (c : Cursor) (s : ScopeState) (ts : List Token) : Prop
    extends Place Γ c s ts where
  key : s.brackets.head? = some .braceOpen → us.head? ≠ some (.symbol .assign)

/-- The walk reads `ts` with these roles and changes no frame. -/
def ReadAs (us : List Token) (c : Cursor) (s : ScopeState) (ts : List Token) (rs : List Role) :
    Prop :=
  ∃ s', s'.core = s.core ∧ Runs us c s ts (bindings rs) s'

theorem Phrase.not_selecting {ts : List Token} (h : Phrase ts) (c : Cursor) :
    ¬ (c.after ts).Selecting := by
  obtain ⟨q, hq, hends⟩ := h.before_after c
  rintro ⟨p, hp, hsel⟩
  rw [hq, Option.some.injEq] at hp
  rw [← hp, Token.selects_of_ends hends] at hsel
  cases hsel

theorem Cursor.not_selecting_next {t : Token} (h : t.selects = false) (c : Cursor) :
    ¬ (c.next t).Selecting := by
  rintro ⟨p, hp, hsel⟩
  rw [← Option.some.inj hp, h] at hsel
  cases hsel

variable {Γ : Env} {us ts vs : List Token} {c : Cursor} {s s' : ScopeState} {t : Token}
  {rs rs' : List Role}

namespace Place

theorem idle_at (ts : List Token) (h : Place Γ c s (ts ++ t :: vs)) (hcore : s'.core = s.core) :
    s'.Idle (c.after ts).index := by
  obtain ⟨-, -, -, -, hwaiting⟩ := ScopeState.core_eq_iff.mp hcore
  intro w hw
  have := h.idle w (hwaiting ▸ hw)
  rw [List.length_append, List.length_cons] at this
  rw [Cursor.index_after]
  omega

theorem idle_here (h : Place Γ c s (t :: vs)) : s.Idle c.index := h.idle_at [] rfl

theorem left (h : Place Γ c s (ts ++ vs)) : Place Γ c s ts where
  scope := h.scope
  idle := by
    intro w hw
    have := h.idle w hw
    rw [List.length_append] at this
    omega
  before := h.before
  fit := h.fit

theorem right (h : Place Γ c s (ts ++ vs)) (hts : Balanced ts) (hsel : ¬ (c.after ts).Selecting)
    (hcore : s'.core = s.core) : Place Γ (c.after ts) s' vs where
  scope := by rw [(ScopeState.core_eq_iff.mp hcore).1, h.scope]
  idle := by
    obtain ⟨-, -, -, -, hwaiting⟩ := ScopeState.core_eq_iff.mp hcore
    intro w hw
    have := h.idle w (hwaiting ▸ hw)
    rw [List.length_append] at this
    rw [Cursor.index_after]
    omega
  before := hsel
  fit := Cursor.fit_after h.fit hts

/-- The place behind a flat token that selects nothing. -/
theorem past (ts : List Token) (h : Place Γ c s (ts ++ t :: vs)) (hts : Balanced ts)
    (ht : t.isFlat = true)
    (hsel : t.selects = false) (hcore : s'.core = s.core) :
    Place Γ ((c.after ts).next t) s' vs := by
  rw [List.append_cons] at h
  have hend : c.after (ts ++ [t]) = (c.after ts).next t := Cursor.after_append
  rw [← hend]
  refine h.right (hts.append (.flat ht .nil)) ?_ hcore
  rw [hend]
  exact Cursor.not_selecting_next hsel _

end Place

namespace Reads

theorem left (h : Reads Γ us c s (ts ++ t :: vs)) (ht : t ≠ .symbol .assign) :
    Reads Γ (t :: vs ++ us) c s ts where
  toPlace := h.toPlace.left
  key := fun _ => by simpa using ht

theorem key_of_core (h : Reads Γ us c s ts) (hcore : s'.core = s.core) :
    s'.brackets.head? = some .braceOpen → us.head? ≠ some (.symbol .assign) := by
  obtain ⟨-, -, hbrackets, -⟩ := ScopeState.core_eq_iff.mp hcore
  rw [hbrackets]
  exact h.key

theorem right (h : Reads Γ us c s (ts ++ vs)) (hts : Phrase ts) (hcore : s'.core = s.core) :
    Reads Γ us (c.after ts) s' vs :=
  ⟨h.toPlace.right hts.balanced (hts.not_selecting c) hcore, h.key_of_core hcore⟩

theorem past (ts : List Token) (h : Reads Γ us c s (ts ++ t :: vs)) (hts : Balanced ts)
    (ht : t.isFlat = true)
    (hsel : t.selects = false) (hcore : s'.core = s.core) :
    Reads Γ us ((c.after ts).next t) s' vs :=
  ⟨h.toPlace.past ts hts ht hsel hcore, h.key_of_core hcore⟩

theorem tail (h : Reads Γ us c s (t :: vs)) (ht : t.isFlat = true) (hsel : t.selects = false) :
    Reads Γ us (c.next t) s vs := h.past [] .nil ht hsel rfl

end Reads

namespace ReadAs

theorem append (h : ReadAs (vs ++ us) c s ts rs)
    (h' : ∀ s', s'.core = s.core → ReadAs us (c.after ts) s' vs rs') :
    ReadAs us c s (ts ++ vs) (rs ++ rs') := by
  obtain ⟨s₁, hcore, hrun⟩ := h
  obtain ⟨s₂, hcore', hrun'⟩ := h' s₁ hcore
  exact ⟨s₂, hcore'.trans hcore, by rw [bindings_append]; exact hrun.append hrun'⟩

theorem cons_inert (ht : t.isInert = true) (hidle : s.Idle c.index)
    (h : ReadAs us (c.next t) s ts rs) : ReadAs us c s (t :: ts) (.other :: rs) := by
  obtain ⟨s', hcore, hrun⟩ := h
  exact ⟨s', hcore, .cons (.inert ht hidle) hrun⟩

theorem nil : ReadAs us c s [] [] := ⟨s, rfl, .nil⟩

theorem name {n : Name} (h : Reads Γ us c s [.name n]) : ReadAs us c s [.name n] [Γ.use n] := by
  obtain ⟨s', huse, hcore⟩ := nameUse_scope (n := n) (c.site (.name n))
    ((c.next (.name n)).sites us) h.scope
    (fun hb => h.before ⟨_, hb, rfl⟩) (fun hb => h.before ⟨_, hb, rfl⟩)
    (fun hbrace hassign => by
      rw [startsWith_sites, beq_iff_eq] at hassign
      exact absurd hassign (h.key hbrace))
  refine ⟨s', hcore, .of_idle_step h.idle_here ?_ rfl⟩
  rw [List.nil_append]
  simp only [step, Cursor.site_token, huse]
  rfl

theorem passed_name {n : Name} (hidle : s.Idle c.index)
    (h : nameUse s (c.site (.name n)) n ((c.next (.name n)).sites us) = (.unbound, s)) :
    ReadAs us c s [.name n] [.other] := by
  refine ⟨s, rfl, .of_idle_step hidle ?_ rfl⟩
  rw [List.nil_append]
  simp only [step, Cursor.site_token, h]
  rfl

theorem selected_name {n : Name} (hidle : s.Idle c.index) (h : c.Selecting) :
    ReadAs us c s [.name n] [.other] := by
  refine passed_name hidle ?_
  obtain ⟨p, hp, hsel⟩ := h
  unfold nameUse
  rw [if_pos]
  rw [Cursor.site_before, hp]
  cases p with
  | symbol m => cases m <;> first | simp; done | cases hsel
  | keyword _ | name _ | number _ | string _ | comment _ => cases hsel

/-- Between brackets the walk reads with the bracket pushed, and drops it at the end. -/
theorem group {b : Symbol} {e : Token} (h : Place Γ c s (.symbol b :: (ts ++ [e])))
    (hb : (Token.symbol b).opensBracket = true) (he : e.closesBracket = true)
    (inner : ∀ s', s'.brackets = b :: s.brackets →
      Reads Γ (e :: us) (c.next (.symbol b)) s' ts →
      ReadAs (e :: us) (c.next (.symbol b)) s' ts rs) :
    ReadAs us c s (.symbol b :: (ts ++ [e])) (.other :: (rs ++ [.other])) := by
  have hinner : Reads Γ (e :: us) (c.next (.symbol b)) { s with brackets := b :: s.brackets } ts := by
    refine ⟨⟨h.scope, ?_, Cursor.not_selecting_next ?_ c, (Cursor.deep_open h.fit hb).1⟩, ?_⟩
    · intro w hw
      have := h.idle w hw
      simp only [List.length_cons, List.length_append, List.length_nil, Cursor.next_index] at this ⊢
      omega
    · cases b <;> first | rfl | cases hb
    · rintro - heq
      cases Option.some.inj heq
      cases he
  obtain ⟨s₁, hcore, hrun⟩ := inner _ rfl hinner
  obtain ⟨hframes, hdeclared, hbrackets, hloops, hwaiting⟩ := ScopeState.core_eq_iff.mp hcore
  have hclose : Runs us ((c.next (.symbol b)).after ts) s₁ [e] [.unbound]
      { s₁ with brackets := s₁.brackets.tail } := by
    refine .of_idle_step ?_ (step_close he) rfl
    intro w hw
    have := h.idle w (by rw [hwaiting] at hw; exact hw)
    simp only [List.length_cons, List.length_append, List.length_nil] at this
    rw [Cursor.index_after, Cursor.next_index]
    omega
  refine ⟨{ s₁ with brackets := s₁.brackets.tail }, ?_, ?_⟩
  · refine ScopeState.core_eq_iff.mpr ⟨hframes, hdeclared, ?_, hloops, hwaiting⟩
    rw [hbrackets]
    rfl
  · rw [bindings_cons, bindings_append]
    exact .cons (.of_idle_step h.idle_here (step_open hb) rfl) (hrun.append hclose)

theorem follow (h : Reads Γ us c s (ts ++ t :: vs)) (hts : Phrase ts) (ht : t ≠ .symbol .assign)
    (hl : Reads Γ (t :: vs ++ us) c s ts → ReadAs (t :: vs ++ us) c s ts rs)
    (hr : ∀ s', Reads Γ us (c.after ts) s' (t :: vs) → ReadAs us (c.after ts) s' (t :: vs) rs') :
    ReadAs us c s (ts ++ t :: vs) (rs ++ rs') :=
  (hl (h.left ht)).append fun s' hcore => hr s' (h.right hts hcore)

/-- Two readings with an inert token between them. -/
theorem connect (h : Reads Γ us c s (ts ++ t :: vs)) (hts : Phrase ts) (ht : t.isInert = true)
    (hsel : t.selects = false) (hassign : t ≠ .symbol .assign)
    (hl : Reads Γ (t :: vs ++ us) c s ts → ReadAs (t :: vs ++ us) c s ts rs)
    (hr : ∀ s', Reads Γ us ((c.after ts).next t) s' vs →
      ReadAs us ((c.after ts).next t) s' vs rs') :
    ReadAs us c s (ts ++ t :: vs) (rs ++ .other :: rs') :=
  follow h hts hassign hl fun s' h' =>
    .cons_inert ht h'.idle_here (hr s' (h'.tail (Token.isFlat_of_isInert ht) hsel))

end ReadAs

/-! ### Expressions -/

def Cursor.AtField (c : Cursor) : Prop :=
  ∃ p, c.before = some p ∧ (p = .symbol .braceOpen ∨ p.isSeparator = true)

/-- Reading the tree's tokens gives its roles. -/
def ReadsTokens {kind : Kind} (t : Tree kind) : Prop :=
  ∀ Γ k us c s, Reads Γ us c s t.tokens → ReadAs us c s t.tokens (t.roles Γ k)

/-- The same for fields, which are read inside the braces of a table. -/
def ReadsFields {kind : Kind} (t : Tree kind) : Prop :=
  ∀ Γ k us c s, Reads Γ us c s t.tokens → s.brackets.head? = some .braceOpen → c.nesting.Deep →
    c.AtField → ReadAs us c s t.tokens (t.roles Γ k)

def Tree.Read : {kind : Kind} → Tree kind → Prop
  | .field, t | .fields, t => ReadsFields t
  | .stmt, _ | .tail, _ | .block, _ => True
  | .expr, t | .operand, t | .var, t | .call, t | .args, t | .exprs, t | .vars, t | .range, t =>
    ReadsTokens t

theorem Tree.args_head (a : Tree .args) :
    ∃ t ts, a.tokens = t :: ts ∧ t ≠ .symbol .assign := by
  cases a with
  | noArgs => exact ⟨_, _, rfl, by decide⟩
  | someArgs es => exact ⟨_, _, rfl, by decide⟩
  | tableArg fs => exact ⟨_, _, rfl, by decide⟩
  | stringArg text => exact ⟨_, _, rfl, by simp⟩

namespace ReadsTokens

theorem literal (t : Literal) : ReadsTokens (.literal t) := by
  intro Γ k us c s h
  exact .cons_inert (Token.isInert_of_isLiteral t.2) h.idle_here .nil

theorem name (n : Name) : ReadsTokens (.name n) := fun _ _ _ _ _ h => .name h

theorem binary {l r : Tree .expr} (op : BinaryOp) (hp : Phrase l.tokens) (hl : ReadsTokens l)
    (hr : ReadsTokens r) : ReadsTokens (.binary l op r) := by
  intro Γ k us c s h
  obtain ⟨hi, hsel, hassign⟩ := Token.isInert_of_isBinary op.2
  exact .connect h hp hi hsel hassign (hl Γ k _ c s) fun s' => hr Γ _ us _ s'

theorem unary {e : Tree .expr} (op : UnaryOp) (he : ReadsTokens e) :
    ReadsTokens (.unary op e) := by
  intro Γ k us c s h
  obtain ⟨hi, hsel⟩ := Token.isInert_of_isUnary op.2
  exact .cons_inert hi h.idle_here (he Γ k us _ s (h.tail (Token.isFlat_of_isInert hi) hsel))

theorem parenthesized {kind kind' : Kind} {t : Tree kind} {t' : Tree kind'} (ht : ReadsTokens t)
    (htokens : t'.tokens = .symbol .parenOpen :: (t.tokens ++ [.symbol .parenClose]))
    (hroles : ∀ Γ k, t'.roles Γ k = .other :: (t.roles Γ k ++ [.other])) : ReadsTokens t' := by
  intro Γ k us c s h
  rw [htokens] at h ⊢
  rw [hroles]
  exact .group h.toPlace rfl rfl fun s' _ h' => ht Γ k _ _ s' h'

theorem braced {kind : Kind} {fs : Tree .fields} {t : Tree kind} (hfs : ReadsFields fs)
    (htokens : t.tokens = .symbol .braceOpen :: (fs.tokens ++ [.symbol .braceClose]))
    (hroles : ∀ Γ k, t.roles Γ k = .other :: (fs.roles Γ k ++ [.other])) : ReadsTokens t := by
  intro Γ k us c s h
  rw [htokens] at h ⊢
  rw [hroles]
  refine .group h.toPlace rfl rfl fun s' hbrackets h' => hfs Γ k _ _ s' h' ?_ ?_ ?_
  · rw [hbrackets]
    rfl
  · exact (Cursor.deep_open h.fit rfl).2
  · exact ⟨_, rfl, .inl rfl⟩

theorem index {p : Tree .operand} {e : Tree .expr} (hphrase : Phrase p.tokens) (hp : ReadsTokens p)
    (he : ReadsTokens e) : ReadsTokens (.index p e) := by
  intro Γ k us c s h
  have htokens : (Tree.index p e).tokens =
      p.tokens ++ .symbol .bracketOpen :: (e.tokens ++ [.symbol .bracketClose]) :=
    List.append_assoc ..
  have hroles : (Tree.index p e).roles Γ k =
      p.roles Γ k ++ .other :: (e.roles Γ (k + p.decls) ++ [.other]) := List.append_assoc ..
  rw [htokens] at h ⊢
  rw [hroles]
  exact .follow h hphrase nofun (hp Γ k _ c s) fun s' h' =>
    .group h'.toPlace rfl rfl fun s'' _ h'' => he Γ _ _ _ s'' h''

theorem member {p : Tree .operand} (n : Name) (hphrase : Phrase p.tokens) (hp : ReadsTokens p) :
    ReadsTokens (.member p n) := by
  intro Γ k us c s h
  exact .follow h hphrase nofun (hp Γ k _ c s) fun s' h' =>
    .cons_inert rfl h'.idle_here
      (.selected_name (h'.toPlace.idle_at [.symbol .dot] rfl) ⟨_, rfl, rfl⟩)

theorem apply {p : Tree .operand} {a : Tree .args} (hphrase : Phrase p.tokens)
    (hp : ReadsTokens p) (ha : ReadsTokens a) : ReadsTokens (.apply p a) := by
  intro Γ k us c s h
  obtain ⟨t, ts, htokens, ht⟩ := a.args_head
  have hr : ∀ s', Reads Γ us (c.after p.tokens) s' (t :: ts) →
      ReadAs us (c.after p.tokens) s' (t :: ts) (a.roles Γ (k + p.decls)) := by
    rw [← htokens]
    exact fun s' => ha Γ _ us _ s'
  show ReadAs us c s (p.tokens ++ a.tokens) (p.roles Γ k ++ a.roles Γ (k + p.decls))
  have h : Reads Γ us c s (p.tokens ++ a.tokens) := h
  rw [htokens] at h ⊢
  exact .follow h hphrase ht (hp Γ k _ c s) hr

theorem invoke {p : Tree .operand} {a : Tree .args} (n : Name) (hphrase : Phrase p.tokens)
    (hp : ReadsTokens p) (ha : ReadsTokens a) : ReadsTokens (.invoke p n a) := by
  intro Γ k us c s h
  refine .follow h hphrase nofun (hp Γ k _ c s) fun s' h' => .cons_inert rfl h'.idle_here ?_
  have hname : ReadAs (a.tokens ++ us) ((c.after p.tokens).next (.symbol .colon)) s' [.name n]
      [.other] :=
    .selected_name (h'.toPlace.idle_at [.symbol .colon] rfl) ⟨_, rfl, rfl⟩
  exact hname.append fun s'' hcore =>
    ha Γ _ us _ s'' (h'.past [.symbol .colon] (.flat rfl .nil) rfl rfl hcore)

theorem noArgs : ReadsTokens .noArgs := by
  intro Γ k us c s h
  show ReadAs us c s (.symbol .parenOpen :: ([] ++ [.symbol .parenClose]))
    (.other :: ([] ++ [.other]))
  exact .group h.toPlace rfl rfl fun s' _ _ => .nil

theorem stringArg (text : List Char) : ReadsTokens (.stringArg text) := by
  intro Γ k us c s h
  exact .cons_inert rfl h.idle_here .nil

theorem comma {kind kind₁ kind₂ : Kind} {t : Tree kind} {t₁ : Tree kind₁} {t₂ : Tree kind₂}
    (hphrase : Phrase t₁.tokens) (h₁ : ReadsTokens t₁) (h₂ : ReadsTokens t₂)
    (htokens : t.tokens = t₁.tokens ++ .symbol .comma :: t₂.tokens)
    (hroles : ∀ Γ k, t.roles Γ k = t₁.roles Γ k ++ .other :: t₂.roles Γ (k + t₁.decls)) :
    ReadsTokens t := by
  intro Γ k us c s h
  rw [htokens] at h ⊢
  rw [hroles]
  exact .connect h hphrase rfl rfl nofun (h₁ Γ k _ c s) fun s' => h₂ Γ _ us _ s'

theorem stride {first limit step : Tree .expr} (hfirst : Phrase first.tokens)
    (hlimit : Phrase limit.tokens) (h₁ : ReadsTokens first) (h₂ : ReadsTokens limit)
    (h₃ : ReadsTokens step) : ReadsTokens (.stride first limit step) := by
  intro Γ k us c s h
  refine .connect h (hfirst.comma hlimit) rfl rfl nofun (fun h' => ?_) fun s' => h₃ Γ _ us _ s'
  exact comma (t := .span first limit) hfirst h₁ h₂ rfl (fun _ _ => rfl) Γ k _ c s h'

end ReadsTokens

theorem Tree.keyed_tokens (key e : Tree .expr) : (Tree.keyed key e).tokens =
    .symbol .bracketOpen :: (key.tokens ++ [.symbol .bracketClose]) ++
      .symbol .assign :: e.tokens := by
  show .symbol .bracketOpen :: (key.tokens ++ _) = _
  simp

namespace ReadsFields

theorem item {e : Tree .expr} (he : ReadsTokens e) : ReadsFields (.item e) :=
  fun Γ k us c s h _ _ _ => he Γ k us c s h

theorem named {e : Tree .expr} (n : Name) (he : ReadsTokens e) : ReadsFields (.named n e) := by
  intro Γ k us c s h hbrace hdeep ⟨p, hp, hfield⟩
  have hkey : ReadAs (.symbol .assign :: e.tokens ++ us) c s [.name n] [.other] := by
    refine .passed_name h.idle_here ?_
    exact nameUse_key _ _ hp hbrace (Cursor.mark_of_deep hdeep hp (.name n)) hfield rfl
  refine hkey.append fun s' hcore => ?_
  have h' := h.past [] .nil rfl rfl hcore
  exact .cons_inert rfl h'.idle_here (he Γ k us _ s' (h'.tail rfl rfl))

theorem keyed {key e : Tree .expr} (hbalanced : Balanced key.tokens) (hkey : ReadsTokens key)
    (he : ReadsTokens e) : ReadsFields (.keyed key e) := by
  intro Γ k us c s h _ _ _
  have hroles : (Tree.keyed key e).roles Γ k =
      .other :: (key.roles Γ k ++ [.other]) ++ .other :: e.roles Γ (k + key.decls) := by
    show .other :: (key.roles Γ k ++ _) = _
    simp
  rw [Tree.keyed_tokens] at h ⊢
  rw [hroles]
  refine (ReadAs.group h.toPlace.left rfl rfl fun s' _ h' => hkey Γ k _ _ s' h').append
    fun s' hcore => ?_
  have hgroup : Balanced (.symbol .bracketOpen :: (key.tokens ++ [.symbol .bracketClose])) :=
    .group rfl rfl hbalanced .nil
  exact .cons_inert rfl (h.toPlace.idle_at _ hcore) (he Γ _ us _ s' (h.past _ hgroup rfl rfl hcore))

theorem fieldThen {f : Tree .field} {fs : Tree .fields} (sep : Separator)
    (hbalanced : Balanced f.tokens) (hf : ReadsFields f) (hfs : ReadsFields fs) :
    ReadsFields (.fieldThen f sep fs) := by
  intro Γ k us c s h hbrace hdeep hfield
  obtain ⟨hi, hsel, hassign⟩ := Token.isInert_of_isSeparator sep.2
  have hflat := Token.isFlat_of_isInert hi
  refine (hf Γ k _ c s (h.left hassign) hbrace hdeep hfield).append fun s' hcore => ?_
  refine .cons_inert hi (h.toPlace.idle_at _ hcore) ?_
  refine hfs Γ _ us _ s' (h.past _ hbalanced hflat hsel hcore) ?_ ?_ ⟨_, rfl, .inr sep.2⟩
  · rw [(ScopeState.core_eq_iff.mp hcore).2.2.1]
    exact hbrace
  · have hend := Cursor.nesting_after (hbalanced.append (.flat hflat .nil)) h.fit.params
    rw [Cursor.after_append] at hend
    exact hdeep.of_calm hend

end ReadsFields

/-- The walk reads every tree of an expression as its scope says. -/
theorem Tree.reads {kind : Kind} (t : Tree kind) (h : t.plainly = true) : t.Read := by
  induction t with
  | literal t => exact ReadsTokens.literal t
  | plain p ih | read p ih | result p ih | one p ih | target p ih => exact ih h
  | table fs ih | tableArg fs ih => exact ReadsTokens.braced (ih h) rfl fun _ _ => rfl
  | paren e ih | someArgs e ih => exact ReadsTokens.parenthesized (ih h) rfl fun _ _ => rfl
  | binary l op r ihl ihr =>
    obtain ⟨h, hr⟩ := and_and_inv h
    exact ReadsTokens.binary op (l.shaped h) (ihl h) (ihr hr)
  | unary op e ih => exact ReadsTokens.unary op (ih h)
  | function ps b ih => cases h
  | name n => exact ReadsTokens.name n
  | index p e ihp ihe =>
    obtain ⟨h, he⟩ := and_and_inv h
    exact ReadsTokens.index (p.shaped h) (ihp h) (ihe he)
  | member p n ih => exact ReadsTokens.member n (p.shaped h) (ih h)
  | apply p a ihp iha =>
    obtain ⟨h, ha⟩ := and_and_inv h
    exact ReadsTokens.apply (p.shaped h) (ihp h) (iha ha)
  | invoke p n a ihp iha =>
    obtain ⟨h, ha⟩ := and_and_inv h
    exact ReadsTokens.invoke n (p.shaped h) (ihp h) (iha ha)
  | noArgs => exact ReadsTokens.noArgs
  | stringArg text => exact ReadsTokens.stringArg text
  | more e es ih ih' | targets e es ih ih' | span e es ih ih' =>
    obtain ⟨h, h'⟩ := and_and_inv h
    exact ReadsTokens.comma (e.shaped h) (ih h) (ih' h') rfl fun _ _ => rfl
  | stride first limit step ih ih' ih'' =>
    obtain ⟨h, h', h''⟩ := and_and_and_inv h
    exact ReadsTokens.stride (first.shaped h) (limit.shaped h') (ih h)
      (ih' h') (ih'' h'')
  | item e ih => exact ReadsFields.item (ih h)
  | named n e ih => exact ReadsFields.named n (ih h)
  | keyed k e ihk ihe =>
    obtain ⟨h, he⟩ := and_and_inv h
    exact ReadsFields.keyed (Phrase.balanced (k.shaped h)) (ihk h) (ihe he)
  | noField => exact fun _ _ _ _ _ _ _ _ _ => ReadAs.nil
  | lastField f ih => exact ih h
  | fieldThen f sep fs ihf ihfs =>
    obtain ⟨h, hfs⟩ := and_and_inv h
    exact ReadsFields.fieldThen sep (f.shaped h) (ihf h) (ihfs hfs)
  | _ => trivial

end LuaBundle.Lua
