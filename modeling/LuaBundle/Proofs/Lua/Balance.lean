import LuaBundle.Proofs.Lua.Cursor
import LuaBundle.Proofs.Lua.Tree

/-!
# The layout of expressions

Expressions leave blocks and brackets as they were, and no token of an expression begins a statement
where it follows a token that ends none.
-/
namespace LuaBundle.Lua

namespace Token

/-- Tokens that leave blocks and brackets alone. -/
def isFlat : Token → Bool
  | keyword .functionKw | keyword .whileKw | keyword .forKw | keyword .doKw | keyword .thenKw => false
  | keyword .repeatKw | keyword .elseKw | keyword .endKw | keyword .elseifKw => false
  | keyword .untilKw => false
  | symbol .parenOpen | symbol .bracketOpen | symbol .braceOpen => false
  | symbol .parenClose | symbol .bracketClose | symbol .braceClose => false
  | _ => true

def opensBracket : Token → Bool
  | symbol .parenOpen | symbol .bracketOpen | symbol .braceOpen => true
  | _ => false

def closesBracket : Token → Bool
  | symbol .parenClose | symbol .bracketClose | symbol .braceClose => true
  | _ => false

/-- `t` goes on with the expression or the statement that `p` stands in. -/
def joins (p t : Token) : Bool :=
  !t.closesBlock && p != .symbol .semicolon && (!p.endsExpression || t.continuesExpression)

end Token

namespace Nesting

def calm (n : Nesting) : Nesting := { n with openedBlock := false }

/-- No parameter list is awaited, and no bracket around the innermost block has been closed. -/
structure Fit (n : Nesting) : Prop where
  params : n.expectParams = false
  level : n.blocks.head?.getD 0 ≤ n.brackets.length

/-- Brackets are open inside the innermost block. -/
def Deep (n : Nesting) : Prop := n.blocks.head?.getD 0 < n.brackets.length

variable {n n' : Nesting} {p t : Token} {start : Bool}

theorem calm_eq_iff : n'.calm = n.calm ↔ n'.blocks = n.blocks ∧ n'.brackets = n.brackets ∧
    n'.expectParams = n.expectParams ∧ n'.loopHeaders = n.loopHeaders := by
  simp [calm]

theorem Fit.of_calm (h : n.Fit) (he : n'.calm = n.calm) : n'.Fit := by
  obtain ⟨hblocks, hbrackets, hparams, -⟩ := calm_eq_iff.mp he
  refine ⟨hparams.trans h.params, ?_⟩
  rw [hblocks, hbrackets]
  exact h.level

theorem Deep.of_calm (h : n.Deep) (he : n'.calm = n.calm) : n'.Deep := by
  obtain ⟨hblocks, hbrackets, -⟩ := calm_eq_iff.mp he
  rw [Deep, hblocks, hbrackets]
  exact h

theorem after_flat (h : t.isFlat = true) : n.after start t = n.calm := by
  cases t with
  | keyword k => cases k <;> first | rfl | cases h
  | symbol s => cases s <;> first | rfl | cases h
  | name _ | number _ | string _ | comment _ => rfl

theorem after_open (h : t.opensBracket = true) (hp : n.expectParams = false) :
    n.after start t = { n.calm with brackets := false :: n.brackets } := by
  cases t with
  | symbol s => cases s <;> first | simp [after, hp, calm]; done | cases h
  | keyword _ | name _ | number _ | string _ | comment _ => cases h

theorem after_close (h : t.closesBracket = true) {rest : List Bool}
    (hb : n.brackets = false :: rest) : n.after start t = { n.calm with brackets := rest } := by
  cases t with
  | symbol s => cases s <;> first | simp [after, hb, calm]; done | cases h
  | keyword _ | name _ | number _ | string _ | comment _ => cases h

theorem starts_of_joins (ho : n.openedBlock = false) (hj : p.joins t = true) :
    n.starts (some p) t = false := by
  simp only [Token.joins, Bool.and_eq_true, Bool.not_eq_true', bne_iff_ne, ne_eq,
    Bool.or_eq_true] at hj
  obtain ⟨⟨hclose, hsemi⟩, hends⟩ := hj
  rcases hends with hends | hends <;> simp [starts, hclose, ho, hsemi, hends]

theorem starts_of_deep (hd : n.Deep) : n.starts (some p) t = false := by
  have : n.atStatementLevel = false := by
    rw [Deep] at hd
    simp only [atStatementLevel, beq_eq_false_iff_ne]
    omega
  simp [starts, this]

end Nesting

/-- Brackets are closed in the order in which they are opened, with only flat tokens between. -/
inductive Balanced : List Token → Prop where
  | nil : Balanced []
  | flat {t : Token} {ts : List Token} (ht : t.isFlat = true) (hts : Balanced ts) :
      Balanced (t :: ts)
  | group {o c : Token} {ts us : List Token} (ho : o.opensBracket = true)
      (hc : c.closesBracket = true) (hts : Balanced ts) (hus : Balanced us) :
      Balanced (o :: (ts ++ c :: us))

/-- After `p`, balanced tokens up to `q` that go on with it; what is inside brackets is free. -/
inductive Joined : Token → List Token → Token → Prop where
  | nil {p : Token} : Joined p [] p
  | flat {p t q : Token} {ts : List Token} (hj : p.joins t = true) (ht : t.isFlat = true)
      (hts : Joined t ts q) : Joined p (t :: ts) q
  | group {p o c q : Token} {ts us : List Token} (hj : p.joins o = true)
      (ho : o.opensBracket = true) (hc : c.closesBracket = true) (hts : Balanced ts)
      (hus : Joined c us q) : Joined p (o :: (ts ++ c :: us)) q

def Quiet (c : Cursor) (ts : List Token) : Prop := ∀ s ∈ c.sites ts, s.mark.start = false

theorem Balanced.append {ts us : List Token} (h : Balanced ts) (h' : Balanced us) :
    Balanced (ts ++ us) := by
  induction h with
  | nil => exact h'
  | flat ht _ ih => exact .flat ht ih
  | group ho hc hts _ _ ih =>
    rw [List.cons_append, List.append_assoc, List.cons_append]
    exact .group ho hc hts ih

theorem Balanced.of_flat {ts : List Token} (h : ∀ t ∈ ts, t.isFlat = true) : Balanced ts := by
  induction ts with
  | nil => exact .nil
  | cons t ts ih =>
    obtain ⟨ht, hts⟩ := List.forall_mem_cons.mp h
    exact .flat ht (ih hts)

namespace Joined

variable {p q r t o c : Token} {ts us : List Token}

theorem append (h : Joined p ts q) (h' : Joined q us r) : Joined p (ts ++ us) r := by
  induction h with
  | nil => exact h'
  | flat hj ht _ ih => exact .flat hj ht (ih h')
  | group hj ho hc hts _ ih =>
    rw [List.cons_append, List.append_assoc, List.cons_append]
    exact .group hj ho hc hts (ih h')

theorem balanced (h : Joined p ts q) : Balanced ts := by
  induction h with
  | nil => exact .nil
  | flat _ ht _ ih => exact .flat ht ih
  | group _ ho hc hts _ ih => exact .group ho hc hts ih

theorem bracketed (hj : p.joins o = true) (ho : o.opensBracket = true) (hc : c.closesBracket = true)
    (hts : Balanced ts) : Joined p (o :: (ts ++ [c])) c := .group hj ho hc hts .nil

theorem getLast? (h : Joined p ts q) : ts.getLast?.getD p = q := by
  induction h with
  | nil => rfl
  | @flat p t q ts _ _ _ ih =>
    rw [List.getLast?_cons]
    exact ih
  | @group p o c q ts us _ _ _ _ _ ih =>
    rw [List.getLast?_cons, List.getLast?_append, List.getLast?_cons]
    simpa using ih

end Joined

namespace Cursor

variable {c : Cursor} {p q : Token} {ts us : List Token}

theorem next_flat {t : Token} (h : t.isFlat = true) :
    c.next t = ⟨c.nesting.calm, some t, c.index + 1⟩ := by rw [next, Nesting.after_flat h]

theorem nesting_open {o : Token} (ho : o.opensBracket = true)
    (hp : c.nesting.expectParams = false) :
    (c.next o).nesting = { c.nesting.calm with brackets := false :: c.nesting.brackets } :=
  Nesting.after_open ho hp

/-- If the tokens inside brackets leave the nesting alone, so do the tokens with their brackets. -/
theorem nesting_group {o e : Token} (ho : o.opensBracket = true) (he : e.closesBracket = true)
    (hp : c.nesting.expectParams = false)
    (hin : ((c.next o).after ts).nesting.calm = (c.next o).nesting.calm) :
    (((c.next o).after ts).next e).nesting = c.nesting.calm := by
  have hbrackets := (Nesting.calm_eq_iff.mp hin).2.1
  rw [nesting_open ho hp] at hbrackets hin
  rw [next, Nesting.after_close he hbrackets, hin]
  rfl

theorem nesting_after (h : Balanced ts) (hp : c.nesting.expectParams = false) :
    (c.after ts).nesting.calm = c.nesting.calm := by
  induction h generalizing c with
  | nil => rfl
  | flat ht _ ih =>
    rw [after_cons, next_flat ht]
    exact ih hp
  | group ho he _ _ ih ih' =>
    have hgroup := nesting_group ho he hp (ih (by rw [nesting_open ho hp]; exact hp))
    rw [after_cons, after_append, after_cons, ih' (by rw [hgroup]; exact hp), hgroup]
    rfl

theorem openedBlock_after (h : Balanced ts) (hp : c.nesting.expectParams = false)
    (ho : c.nesting.openedBlock = false) : (c.after ts).nesting.openedBlock = false := by
  induction h generalizing c with
  | nil => exact ho
  | flat ht _ ih =>
    rw [after_cons, next_flat ht]
    exact ih hp rfl
  | group ho' he hts _ _ ih =>
    have hin := nesting_after (c := c.next _) hts (by rw [nesting_open ho' hp]; exact hp)
    have hgroup := nesting_group ho' he hp hin
    rw [after_cons, after_append, after_cons]
    exact ih (by rw [hgroup]; exact hp) (by rw [hgroup]; rfl)

theorem before_of_joined (h : Joined p ts q) (hb : c.before = some p) :
    (c.after ts).before = some q := by
  rw [before_after, hb, ← h.getLast?]
  cases ts.getLast? <;> rfl

theorem exists_before_after (hb : c.before = some p) (ts : List Token) :
    ∃ q, (c.after ts).before = some q := by
  rw [before_after, hb]
  cases ts.getLast? with
  | none => exact ⟨p, rfl⟩
  | some q => exact ⟨q, rfl⟩

theorem fit_after (h : c.nesting.Fit) (hts : Balanced ts) : (c.after ts).nesting.Fit :=
  h.of_calm (nesting_after hts h.params)

theorem deep_open {o : Token} (h : c.nesting.Fit) (ho : o.opensBracket = true) :
    (c.next o).nesting.Fit ∧ (c.next o).nesting.Deep := by
  have hlevel : c.nesting.blocks.head?.getD 0 < c.nesting.brackets.length + 1 :=
    Nat.lt_succ_of_le h.level
  rw [nesting_open ho h.params]
  exact ⟨⟨h.params, Nat.le_of_lt hlevel⟩, hlevel⟩

theorem mark_of_deep (hdeep : c.nesting.Deep) (hb : c.before = some p) (t : Token) :
    (c.site t).mark.start = false := by
  rw [site, hb]
  exact Nesting.starts_of_deep hdeep

theorem mark_of_joins {t : Token} (hj : p.joins t = true) (hb : c.before = some p)
    (ho : c.nesting.openedBlock = false) : (c.site t).mark.start = false := by
  rw [site, hb]
  exact Nesting.starts_of_joins ho hj

/-- Brackets are quiet if what opens them, what is inside and what follows them is. -/
theorem quiet_group {o e : Token} (ho : o.opensBracket = true) (he : e.closesBracket = true)
    (hfit : c.nesting.Fit) (hts : Balanced ts) (hopen : (c.site o).mark.start = false)
    (hin : Quiet (c.next o) ts)
    (hout : ∀ c' : Cursor, c'.nesting = c.nesting.calm → c'.before = some e → Quiet c' us) :
    Quiet c (o :: (ts ++ e :: us)) := by
  obtain ⟨hfit', hdeep⟩ := deep_open hfit ho
  have hafter := nesting_after hts hfit'.params
  have hclose : (((c.next o).after ts).site e).mark.start = false := by
    obtain ⟨q, hq⟩ := exists_before_after (c := c.next o) rfl ts
    exact mark_of_deep (hdeep.of_calm hafter) hq e
  have hrest := hout _ (nesting_group ho he hfit.params hafter) rfl
  intro s hs
  rw [sites, sites_append, List.mem_cons, List.mem_append, sites, List.mem_cons] at hs
  rcases hs with rfl | hs | rfl | hs
  · exact hopen
  · exact hin s hs
  · exact hclose
  · exact hrest s hs

theorem quiet_of_deep (hts : Balanced ts) (hfit : c.nesting.Fit) (hdeep : c.nesting.Deep)
    (hb : c.before = some p) : Quiet c ts := by
  induction hts generalizing c p with
  | nil =>
    intro s hs
    cases hs
  | flat ht _ ih =>
    refine List.forall_mem_cons.mpr ⟨mark_of_deep hdeep hb _, ?_⟩
    rw [next_flat ht]
    exact ih (hfit.of_calm rfl) (hdeep.of_calm rfl) rfl
  | group ho he hts _ ih ih' =>
    obtain ⟨hfit', hdeep'⟩ := deep_open hfit ho
    refine quiet_group ho he hfit hts (mark_of_deep hdeep hb _) (ih hfit' hdeep' rfl)
      fun c' hc' hb' => ?_
    exact ih' (by rw [hc']; exact hfit.of_calm rfl) (by rw [hc']; exact hdeep.of_calm rfl) hb'

theorem quiet_of_joined (h : Joined p ts q) (hfit : c.nesting.Fit) (hb : c.before = some p)
    (ho : c.nesting.openedBlock = false) : Quiet c ts := by
  induction h generalizing c with
  | nil =>
    intro s hs
    cases hs
  | flat hj ht _ ih =>
    refine List.forall_mem_cons.mpr ⟨mark_of_joins hj hb ho, ?_⟩
    rw [next_flat ht]
    exact ih (hfit.of_calm rfl) rfl rfl
  | group hj ho' he hts _ ih =>
    obtain ⟨hfit', hdeep'⟩ := deep_open hfit ho'
    have hin := quiet_of_deep hts hfit' hdeep' rfl
    refine quiet_group ho' he hfit hts (mark_of_joins hj hb ho) hin fun c' hc' hb' => ?_
    exact ih (by rw [hc']; exact hfit.of_calm rfl) hb' (by rw [hc']; rfl)

end Cursor

namespace Token

variable {p t : Token}

theorem closesBlock_of_continues (h : t.continuesExpression = true) : t.closesBlock = false := by
  cases t with
  | keyword k => cases k <;> first | rfl | cases h
  | symbol s => rfl
  | name _ | number _ | string _ | comment _ => rfl

theorem ne_semicolon_of_ends (h : t.endsExpression = true) : t ≠ .symbol .semicolon := by
  rintro rfl
  cases h

theorem joins_of_operand (hp : p.endsExpression = false) (hs : p ≠ .symbol .semicolon)
    (ht : t.closesBlock = false) : p.joins t = true := by
  simp [joins, hp, hs, ht]

theorem joins_of_continues (hp : p ≠ .symbol .semicolon) (ht : t.continuesExpression = true) :
    p.joins t = true := by
  simp [joins, hp, ht, closesBlock_of_continues ht]

theorem closesBlock_of_opens (h : t.opensBracket = true) : t.closesBlock = false := by
  cases t with
  | symbol s => rfl
  | keyword _ | name _ | number _ | string _ | comment _ => cases h

theorem continues_of_opens (h : t.opensBracket = true) : t.continuesExpression = true := by
  cases t with
  | symbol s => cases s <;> first | rfl | cases h
  | keyword _ | name _ | number _ | string _ | comment _ => cases h

theorem ends_of_closes (h : t.closesBracket = true) : t.endsExpression = true := by
  cases t with
  | symbol s => cases s <;> first | rfl | cases h
  | keyword _ | name _ | number _ | string _ | comment _ => cases h

theorem of_isLiteral (h : t.isLiteral = true) :
    t.isFlat = true ∧ t.endsExpression = true ∧ t.closesBlock = false := by
  cases t with
  | keyword k => cases k <;> first | exact ⟨rfl, rfl, rfl⟩ | cases h
  | symbol s => cases s <;> first | exact ⟨rfl, rfl, rfl⟩ | cases h
  | number _ | string _ => exact ⟨rfl, rfl, rfl⟩
  | name _ | comment _ => cases h

theorem of_isUnary (h : t.isUnary = true) :
    t.isFlat = true ∧ t.endsExpression = false ∧ t.closesBlock = false ∧
      t ≠ .symbol .semicolon := by
  cases t with
  | keyword k => cases k <;> first | exact ⟨rfl, rfl, rfl, by decide⟩ | cases h
  | symbol s => cases s <;> first | exact ⟨rfl, rfl, rfl, by decide⟩ | cases h
  | name _ | number _ | string _ | comment _ => cases h

theorem of_isBinary (h : t.isBinary = true) :
    t.isFlat = true ∧ t.endsExpression = false ∧ t.continuesExpression = true ∧
      t ≠ .symbol .semicolon := by
  cases t with
  | keyword k => cases k <;> first | exact ⟨rfl, rfl, rfl, by decide⟩ | cases h
  | symbol s => cases s <;> first | exact ⟨rfl, rfl, rfl, by decide⟩ | cases h
  | name _ | number _ | string _ | comment _ => cases h

theorem isFlat_of_isSeparator (h : t.isSeparator = true) : t.isFlat = true := by
  cases t with
  | symbol s => cases s <;> first | rfl | cases h
  | keyword _ | name _ | number _ | string _ | comment _ => cases h

end Token

/-- Tokens of an expression: after a token that ends none they go on up to one that does. -/
def Phrase (ts : List Token) : Prop :=
  ∃ q : Token, q.endsExpression = true ∧
    ∀ p : Token, p.endsExpression = false → p ≠ .symbol .semicolon → Joined p ts q

def Suffix (ts : List Token) : Prop :=
  ∃ q : Token, q.endsExpression = true ∧ ∀ p : Token, p.endsExpression = true → Joined p ts q

namespace Phrase

variable {t o c : Token} {ts us : List Token}

theorem single (hf : t.isFlat = true) (he : t.endsExpression = true) (hc : t.closesBlock = false) :
    Phrase [t] :=
  ⟨t, he, fun _ hp hs => .flat (Token.joins_of_operand hp hs hc) hf .nil⟩

theorem append (h : Phrase ts) (h' : Suffix us) : Phrase (ts ++ us) := by
  obtain ⟨q, hq, hts⟩ := h
  obtain ⟨r, hr, hus⟩ := h'
  exact ⟨r, hr, fun p hp hs => (hts p hp hs).append (hus q hq)⟩

theorem connect (h : Phrase ts) (hf : t.isFlat = true) (he : t.endsExpression = false)
    (hc : t.continuesExpression = true) (hs : t ≠ .symbol .semicolon) (h' : Phrase us) :
    Phrase (ts ++ t :: us) := by
  obtain ⟨q, hq, hts⟩ := h
  obtain ⟨r, hr, hus⟩ := h'
  refine ⟨r, hr, fun p hp hs' => (hts p hp hs').append ?_⟩
  exact .flat (Token.joins_of_continues (Token.ne_semicolon_of_ends hq) hc) hf (hus t he hs)

theorem comma (h : Phrase ts) (h' : Phrase us) : Phrase (ts ++ .symbol .comma :: us) :=
  h.connect rfl rfl rfl nofun h'

theorem bracketed (ho : o.opensBracket = true) (hc : c.closesBracket = true) (h : Balanced ts) :
    Phrase (o :: ts ++ [c]) :=
  ⟨c, Token.ends_of_closes hc, fun _ hp hs =>
    .bracketed (Token.joins_of_operand hp hs (Token.closesBlock_of_opens ho)) ho hc h⟩

theorem balanced (h : Phrase ts) : Balanced ts := by
  obtain ⟨q, -, h⟩ := h
  exact (h (.symbol .comma) rfl nofun).balanced

/-- A phrase is not empty, and its last token ends an expression. -/
theorem exists_last (h : Phrase ts) : ∃ q, ts.getLast? = some q ∧ q.endsExpression = true := by
  obtain ⟨q, hq, h⟩ := h
  have hlast := (h (.symbol .comma) rfl nofun).getLast?
  cases hl : ts.getLast? with
  | none =>
    rw [hl] at hlast
    rw [← hlast] at hq
    cases hq
  | some r =>
    rw [hl] at hlast
    exact ⟨r, rfl, (show r = q from hlast) ▸ hq⟩

theorem before_after (h : Phrase ts) (c : Cursor) :
    ∃ q, (c.after ts).before = some q ∧ q.endsExpression = true := by
  obtain ⟨q, hq, hends⟩ := h.exists_last
  exact ⟨q, by rw [Cursor.before_after, hq, Option.some_or], hends⟩

end Phrase

namespace Suffix

variable {t o c : Token} {ts us : List Token}

theorem bracketed (ho : o.opensBracket = true) (hc : c.closesBracket = true) (h : Balanced ts) :
    Suffix (o :: ts ++ [c]) :=
  ⟨c, Token.ends_of_closes hc, fun _ hp => .bracketed
    (Token.joins_of_continues (Token.ne_semicolon_of_ends hp) (Token.continues_of_opens ho)) ho hc h⟩

/-- A name behind a dot or a colon. -/
theorem selected {selector : Symbol} (n : Name) (hf : (Token.symbol selector).isFlat = true)
    (he : (Token.symbol selector).endsExpression = false)
    (hc : (Token.symbol selector).continuesExpression = true) (hs : selector ≠ .semicolon) :
    Suffix [.symbol selector, .name n] := by
  refine ⟨.name n, rfl, fun p hp => ?_⟩
  refine .flat (Token.joins_of_continues (Token.ne_semicolon_of_ends hp) hc) hf ?_
  exact .flat (Token.joins_of_operand he (by simpa using hs) rfl) rfl .nil

theorem append (h : Suffix ts) (h' : Suffix us) : Suffix (ts ++ us) := by
  obtain ⟨q, hq, hts⟩ := h
  obtain ⟨r, hr, hus⟩ := h'
  exact ⟨r, hr, fun p hp => (hts p hp).append (hus q hq)⟩

end Suffix

namespace Tree

/-- What the layout of a tree's tokens is by its kind; statements are no part of expressions. -/
def Shaped : {kind : Kind} → Tree kind → Prop
  | .args, t => Suffix t.tokens
  | .field, t | .fields, t => Balanced t.tokens
  | .stmt, _ | .tail, _ | .block, _ => True
  | .expr, t | .operand, t | .var, t | .call, t | .exprs, t | .vars, t | .range, t => Phrase t.tokens

theorem and_inv {a b : Bool} (h : (a && b) = true) : a = true ∧ b = true :=
  Bool.and_eq_true_iff.mp h

theorem and_and_inv {a b c : Bool} (h : (a && b && c) = true) : b = true ∧ c = true :=
  ⟨(and_inv (and_inv h).1).2, (and_inv h).2⟩

theorem and_and_and_inv {a b c d : Bool} (h : (a && b && c && d) = true) :
    b = true ∧ c = true ∧ d = true := by
  obtain ⟨h, hd⟩ := and_inv h
  obtain ⟨hb, hc⟩ := and_and_inv h
  exact ⟨hb, hc, hd⟩

theorem shaped {kind : Kind} (t : Tree kind) (h : t.plainly = true) : t.Shaped := by
  induction t with
  | literal t =>
    obtain ⟨hf, he, hc⟩ := Token.of_isLiteral t.2
    exact Phrase.single hf he hc
  | plain p ih | read p ih | result p ih | one p ih | target p ih => exact ih h
  | item e ih => exact Phrase.balanced (ih h)
  | lastField f ih => exact ih h
  | table fs ih => exact Phrase.bracketed rfl rfl (ih h)
  | paren e ih => exact Phrase.bracketed rfl rfl (Phrase.balanced (ih h))
  | binary l op r ihl ihr =>
    obtain ⟨h, hr⟩ := and_and_inv h
    obtain ⟨hf, he, hc, hs⟩ := Token.of_isBinary op.2
    exact Phrase.connect (ihl h) hf he hc hs (ihr hr)
  | unary op e ih =>
    obtain ⟨hf, he, hc, hs⟩ := Token.of_isUnary op.2
    obtain ⟨q, hq, hts⟩ := ih h
    exact ⟨q, hq, fun p hp hs' => .flat (Token.joins_of_operand hp hs' hc) hf (hts _ he hs)⟩
  | function ps b ih => cases h
  | name n => exact Phrase.single rfl rfl rfl
  | index p e ihp ihe =>
    obtain ⟨h, he⟩ := and_and_inv h
    show Phrase (p.tokens ++ .symbol .bracketOpen :: e.tokens ++ [.symbol .bracketClose])
    rw [List.append_assoc]
    exact Phrase.append (ihp h) (Suffix.bracketed rfl rfl (Phrase.balanced (ihe he)))
  | member p n ih => exact Phrase.append (ih h) (Suffix.selected n rfl rfl rfl nofun)
  | apply p a ihp iha =>
    obtain ⟨h, ha⟩ := and_and_inv h
    exact Phrase.append (ihp h) (iha ha)
  | invoke p n a ihp iha =>
    obtain ⟨h, ha⟩ := and_and_inv h
    have hname : Suffix [.symbol .colon, .name n] := .selected n rfl rfl rfl nofun
    exact Phrase.append (ihp h) (hname.append (iha ha))
  | noArgs => exact Suffix.bracketed rfl rfl .nil
  | someArgs es ih => exact Suffix.bracketed rfl rfl (Phrase.balanced (ih h))
  | tableArg fs ih => exact Suffix.bracketed rfl rfl (ih h)
  | stringArg text =>
    refine ⟨.string text, rfl, fun p hp => .flat ?_ rfl .nil⟩
    exact Token.joins_of_continues (Token.ne_semicolon_of_ends hp) rfl
  | more e es ih ih' | targets v vs ih ih' | span first limit ih ih' =>
    obtain ⟨h, h'⟩ := and_and_inv h
    exact Phrase.comma (ih h) (ih' h')
  | stride first limit step ih ih' ih'' =>
    obtain ⟨h, h', h''⟩ := and_and_and_inv h
    exact Phrase.comma (Phrase.comma (ih h) (ih' h')) (ih'' h'')
  | named n e ih => exact .flat rfl (.flat rfl (Phrase.balanced (ih h)))
  | keyed k e ihk ihe =>
    obtain ⟨h, he⟩ := and_and_inv h
    have hk := Phrase.balanced (ihk h)
    exact .group rfl rfl hk (.flat rfl (Phrase.balanced (ihe he)))
  | noField => exact .nil
  | fieldThen f s fs ihf ihfs =>
    obtain ⟨h, hfs⟩ := and_and_inv h
    have hf : Balanced f.tokens := ihf h
    exact hf.append (.flat (Token.isFlat_of_isSeparator s.2) (ihfs hfs))
  | _ => trivial

end Tree

end LuaBundle.Lua
