import LuaBundle.Proofs.Lua.Statements
import LuaBundle.Proofs.Lua.Views

/-!
# The layout of a chunk

Every tree leaves the blocks and brackets as they were, and takes one header of a loop off for every
`do` that is not the one of a loop. Nothing is assumed of the tree.
-/
namespace LuaBundle.Lua

/-! ### Last tokens -/

def EndsWith (p : Token → Prop) (ts : List Token) : Prop := ∃ q, ts.getLast? = some q ∧ p q

namespace EndsWith

variable {p p' : Token → Prop} {t : Token} {ts us : List Token}

theorem append (h : EndsWith p us) : EndsWith p (ts ++ us) := by
  obtain ⟨q, hlast, hq⟩ := h
  exact ⟨q, by rw [List.getLast?_append, hlast, Option.some_or], hq⟩

theorem cons (h : EndsWith p us) : EndsWith p (t :: us) := by
  show EndsWith p ([t] ++ us)
  exact h.append

theorem single (ht : p t) : EndsWith p [t] := ⟨t, rfl, ht⟩

theorem snoc (ht : p t) : EndsWith p (ts ++ [t]) := append (single ht)

theorem mono (h : EndsWith p ts) (hp : ∀ q, p q → p' q) : EndsWith p' ts := by
  obtain ⟨q, hlast, hq⟩ := h
  exact ⟨q, hlast, hp q hq⟩

theorem before_after (h : EndsWith p ts) (c : Cursor) : ∃ q, (c.after ts).before = some q ∧ p q := by
  obtain ⟨q, hlast, hq⟩ := h
  exact ⟨q, by rw [Cursor.before_after, hlast, Option.some_or], hq⟩

end EndsWith

/-- Ends an expression. -/
abbrev EndsExpression (ts : List Token) : Prop := EndsWith (·.endsExpression = true) ts

/-- What a statement ends with, which is a semicolon if it is one. -/
def Token.Concludes (isSemicolon : Bool) (t : Token) : Prop :=
  (t = .symbol .semicolon ↔ isSemicolon = true) ∧ t.selects = false ∧ t ≠ .symbol .braceOpen ∧
    t ≠ .symbol .comma

theorem Token.concludes_of_ends {t : Token} (h : t.endsExpression = true) : t.Concludes false := by
  refine ⟨by simp [ne_semicolon_of_ends h], selects_of_ends h, ?_, ?_⟩ <;> rintro rfl <;> cases h

namespace Tree

def Ended : {kind : Kind} → Tree kind → Prop
  | .field, _ | .fields, _ | .block, _ => True
  | .stmt, t => EndsWith (Token.Concludes t.isSemicolon) t.tokens
  | .expr, t | .operand, t | .var, t | .call, t | .args, t | .exprs, t | .vars, t | .range, t
  | .tail, t => EndsExpression t.tokens

theorem ended_local (l : Local) : EndsWith (Token.Concludes false) l.tokens := by
  obtain ⟨n, attrib⟩ := l
  cases attrib with
  | none => exact .single (Token.concludes_of_ends rfl)
  | some a => exact .cons (.cons (.cons (.single (by simp [Token.Concludes, Token.selects]))))

theorem ended_locals (l : Local) (ls : List Local) :
    EndsWith (Token.Concludes false) (localTokens l ls) := by
  induction ls generalizing l with
  | nil => exact ended_local l
  | cons m ls ih => exact .append (.cons (ih m))

/-- Expressions end with a token that ends one, and only the empty statement with a semicolon. -/
theorem ended {kind : Kind} (t : Tree kind) : t.Ended := by
  induction t with
  | literal t => exact EndsWith.single (Token.of_isLiteral t.2).2.1
  | plain p ih | read p ih | result p ih | one p ih | target p ih => exact ih
  | binary l op r _ ih | more l r _ ih | targets l r _ ih | span l r _ ih =>
    exact EndsWith.append (EndsWith.cons ih)
  | unary op e ih => exact EndsWith.cons ih
  | table fs | paren e | function ps b | index p e | someArgs es | tableArg fs | elseEnd b =>
    exact EndsWith.snoc rfl
  | name n | stringArg text | endIf => exact EndsWith.single rfl
  | noArgs => exact EndsWith.cons (EndsWith.single rfl)
  | member p n => exact EndsWith.append (EndsWith.cons (EndsWith.single rfl))
  | apply p a _ ih => exact EndsWith.append ih
  | invoke p n a _ ih => exact EndsWith.append (EndsWith.cons (EndsWith.cons ih))
  | stride first limit step _ _ ih => exact EndsWith.append (EndsWith.cons ih)
  | semicolon => exact EndsWith.single (by simp [Token.Concludes, Token.selects, isSemicolon])
  | locals l ls => exact EndsWith.cons (ended_locals l ls)
  | localsInit l ls es ih =>
    exact EndsWith.append (EndsWith.cons (EndsWith.mono ih fun _ => Token.concludes_of_ends))
  | assign vs es _ ih =>
    exact EndsWith.append (EndsWith.cons (EndsWith.mono ih fun _ => Token.concludes_of_ends))
  | callOnly c ih => exact EndsWith.mono ih fun _ => Token.concludes_of_ends
  | doEnd b | whileDo e b | forRange n r b | forIn n ns es b | localFunction n ps b
  | functionNamed f ps b => exact EndsWith.snoc (Token.concludes_of_ends rfl)
  | repeatUntil b e _ ih =>
    exact EndsWith.append (EndsWith.cons (EndsWith.mono ih fun _ => Token.concludes_of_ends))
  | ifThen e b f _ _ ih =>
    exact EndsWith.append (EndsWith.mono ih fun _ => Token.concludes_of_ends)
  | breakLoop => exact EndsWith.single (Token.concludes_of_ends rfl)
  | gotoLabel n => exact EndsWith.cons (EndsWith.single (Token.concludes_of_ends rfl))
  | label n =>
    exact EndsWith.cons (EndsWith.cons (EndsWith.single (by
      simp [Token.Concludes, Token.selects, isSemicolon])))
  | elseIf e b f _ _ ih => exact EndsWith.append ih
  | _ => trivial

end Tree

/-! ### Blocks, brackets and headers -/

namespace Cursor

variable {c : Cursor} {t : Token} {ts us : List Token} {blocks : List Nat} {brackets : List Bool}
  {headers : Nat} {fresh : Bool}

/-- So many blocks, brackets and headers of loops are open. -/
def Stands (blocks : List Nat) (brackets : List Bool) (headers : Nat) (c : Cursor) : Prop :=
  c.nesting.calm = ⟨blocks, brackets, false, headers, false⟩

/-- The same, and no block has just begun. -/
def Rests (blocks : List Nat) (brackets : List Bool) (headers : Nat) (c : Cursor) : Prop :=
  c.nesting = ⟨blocks, brackets, false, headers, false⟩

/-- The same, and a block has just begun. -/
def Opens (blocks : List Nat) (brackets : List Bool) (headers : Nat) (c : Cursor) : Prop :=
  c.nesting = ⟨brackets.length :: blocks, brackets, false, headers, true⟩

theorem Rests.stands (h : c.Rests blocks brackets headers) : c.Stands blocks brackets headers := by
  rw [Stands, h]
  rfl

theorem Opens.stands (h : c.Opens blocks brackets headers) :
    c.Stands (brackets.length :: blocks) brackets headers := by
  rw [Stands, h]
  rfl

theorem nesting_next (c : Cursor) (t : Token) : (c.next t).nesting =
    c.nesting.calm.after (c.nesting.starts c.before t) t := rfl

namespace Stands

theorem flat (h : c.Stands blocks brackets headers) (ht : t.isFlat = true) :
    (c.next t).Rests blocks brackets headers := by
  rw [next_flat ht]
  exact h

theorem flats (h : c.Stands blocks brackets headers) (hts : ∀ t ∈ ts, t.isFlat = true) :
    (c.after ts).Stands blocks brackets headers := by
  induction ts generalizing c with
  | nil => exact h
  | cons t ts ih =>
    obtain ⟨ht, hts⟩ := List.forall_mem_cons.mp hts
    exact ih (h.flat ht).stands hts

theorem opened (h : c.Stands blocks brackets headers) (ht : t.opensBracket = true) :
    (c.next t).Rests blocks (false :: brackets) headers := by
  have hparams : c.nesting.expectParams = false := congrArg Nesting.expectParams h
  have hbrackets : c.nesting.brackets = brackets := congrArg Nesting.brackets h
  rw [Rests, nesting_open ht hparams, hbrackets, h]

theorem closed (h : c.Stands blocks (false :: brackets) headers) (ht : t.closesBracket = true) :
    (c.next t).Rests blocks brackets headers := by
  have hbrackets : c.nesting.brackets = false :: brackets := congrArg Nesting.brackets h
  have hafter : (c.next t).nesting = { c.nesting.calm with brackets := brackets } :=
    Nesting.after_close ht hbrackets
  rw [Rests, hafter, h]

/-- A function up to the parenthesis of its parameters. -/
theorem opened_params (h : c.Stands blocks brackets headers) (hts : ∀ t ∈ ts, t.isFlat = true) :
    (((c.next (.keyword .functionKw)).after ts).next (.symbol .parenOpen)).nesting =
      ⟨blocks, true :: brackets, false, headers, false⟩ := by
  have hword : (c.next (.keyword .functionKw)).nesting =
      ⟨blocks, brackets, true, headers, false⟩ := by
    rw [nesting_next, h]
    rfl
  rw [nesting_next, calm_after_flat hts, hword]
  rfl

/-- A function up to the end of its parameters. -/
theorem function (h : c.Stands blocks brackets headers) (hts : ∀ t ∈ ts, t.isFlat = true)
    (hus : ∀ t ∈ us, t.isFlat = true) :
    (c.after (.keyword .functionKw :: ts ++ .symbol .parenOpen :: us ++
      [.symbol .parenClose])).Opens blocks brackets headers := by
  rw [Opens, after_append, after_append, after_cons, after_cons, after_cons, after_nil,
    nesting_next, calm_after_flat hus, h.opened_params hts]
  rfl

theorem opened_block (h : c.Stands blocks brackets headers) (ht : t.opensBlock = true) :
    (c.next t).Opens blocks brackets headers := by
  rw [Opens, nesting_next, h]
  cases t with
  | keyword w => cases w <;> first | rfl | cases ht
  | symbol _ | name _ | number _ | string _ | comment _ => cases ht

theorem opened_header (h : c.Stands blocks brackets headers) (ht : t.opensLoop = true) :
    (c.next t).Rests blocks brackets (headers + 1) := by
  rw [Rests, nesting_next, h]
  cases t with
  | keyword w => cases w <;> first | rfl | cases ht
  | symbol _ | name _ | number _ | string _ | comment _ => cases ht

theorem left {level : Nat} (h : c.Stands (level :: blocks) brackets headers)
    (ht : t.leavesBlock = true) : (c.next t).Rests blocks brackets headers := by
  rw [Rests, nesting_next, h]
  cases t with
  | keyword w => cases w <;> first | rfl | cases ht
  | symbol _ | name _ | number _ | string _ | comment _ => cases ht

theorem passed_else {level : Nat} (h : c.Stands (level :: blocks) brackets headers) :
    (c.next (.keyword .elseKw)).Opens blocks brackets headers := by
  rw [Opens, nesting_next, h]
  rfl

end Stands

/-- Whether a statement surely begins here. -/
def Begins (fresh : Bool) (c : Cursor) : Prop :=
  if fresh then
    c.nesting.openedBlock = true ∨ c.before = some (.symbol .semicolon) ∨ c.before = none
  else c.nesting.openedBlock = false ∧ ∃ p, c.before = some p ∧ p ≠ .symbol .semicolon

theorem Opens.begins (h : c.Opens blocks brackets headers) : c.Begins true := by
  refine .inl ?_
  rw [h]

theorem begins_of_ends (h : c.Rests blocks brackets headers)
    (hbefore : ∃ p, c.before = some p ∧ p.endsExpression = true) : c.Begins false := by
  obtain ⟨p, hp, hends⟩ := hbefore
  exact ⟨by rw [h], p, hp, Token.ne_semicolon_of_ends hends⟩

theorem begins_of_concludes (h : c.Rests blocks brackets headers)
    (hbefore : ∃ p, c.before = some p ∧ p.Concludes fresh) : c.Begins fresh := by
  obtain ⟨p, hp, hsemi, -⟩ := hbefore
  cases fresh with
  | true => exact .inr (.inl (by rw [hp, hsemi.mpr rfl]))
  | false => exact ⟨by rw [h], p, hp, fun hcontra => nomatch hsemi.mp hcontra⟩

/-- Brackets opened around the statements of the innermost block have been closed. -/
def AtLevel (blocks : List Nat) (brackets : List Bool) : Prop :=
  brackets.length = blocks.head?.getD 0

theorem Stands.atStatementLevel (h : c.Stands blocks brackets headers)
    (hlevel : AtLevel blocks brackets) : c.nesting.atStatementLevel = true := by
  have hblocks : c.nesting.blocks = blocks := congrArg Nesting.blocks h
  have hbrackets : c.nesting.brackets = brackets := congrArg Nesting.brackets h
  rw [Nesting.atStatementLevel, hblocks, hbrackets, hlevel, beq_self_eq_true]

theorem starts_of_begins (h : c.Stands blocks brackets headers) (hlevel : AtLevel blocks brackets)
    (hb : c.Begins true) (t : Token) : c.nesting.starts c.before t = true := by
  unfold Nesting.starts
  split
  · rfl
  · rename_i p hp
    rw [h.atStatementLevel hlevel]
    rcases hb with hopened | hsemi | hnone
    · simp [hopened]
    · have : p = .symbol .semicolon := Option.some.inj (hp.symm.trans hsemi)
      simp [this]
    · rw [hnone] at hp
      cases hp

/-- The `do` of a loop does not seem to begin a statement. -/
theorem Stands.goes_on_do (h : c.Stands blocks brackets (headers + 1)) (hb : c.Begins false) :
    c.nesting.starts c.before (.keyword .doKw) = false := by
  obtain ⟨hopened, p, hp, hsemi⟩ := hb
  have hheaders : c.nesting.loopHeaders = headers + 1 := congrArg Nesting.loopHeaders h
  have hgoes : c.nesting.goesOn (.keyword .doKw) = true := by simp [Nesting.goesOn, hheaders]
  rw [hp, Nesting.starts, hopened, hgoes]
  simp [Token.closesBlock, hsemi]

/-- A `do` takes a header off, unless a statement surely begins with it. -/
theorem Stands.opened_do (h : c.Stands blocks brackets headers) (hlevel : AtLevel blocks brackets)
    (hb : c.Begins fresh) :
    (c.next (.keyword .doKw)).Opens blocks brackets (headers - if fresh then 0 else 1) := by
  have hnesting : (c.next (.keyword .doKw)).nesting = ⟨brackets.length :: blocks, brackets, false,
      if c.nesting.starts c.before (.keyword .doKw) then headers else headers - 1, true⟩ := by
    rw [nesting_next, h]
    rfl
  rw [Opens, hnesting]
  cases fresh with
  | true => rw [starts_of_begins h hlevel hb]; rfl
  | false =>
    cases headers with
    | zero => simp
    | succ headers =>
      rw [h.goes_on_do hb]
      rfl

theorem Stands.parameters (h : c.Stands blocks brackets headers) (ts : List Token)
    (hts : ∀ t ∈ ts, t.isFlat = true) (ps : Params) :
    (c.after (.keyword .functionKw :: ts ++ ps.tokens)).Opens blocks brackets headers := by
  rw [Params.tokens, ← List.append_assoc]
  refine h.function hts (forall_mem_intersperse rfl fun t ht => ?_)
  rcases List.mem_append.mp ht with ht | ht
  · obtain ⟨n, -, rfl⟩ := List.mem_map.mp ht
    rfl
  · split at ht
    · rw [List.mem_singleton.mp ht]
      rfl
    · cases ht

theorem Rests.flats (h : c.Rests blocks brackets headers) (hts : ∀ t ∈ ts, t.isFlat = true) :
    (c.after ts).Rests blocks brackets headers := by
  induction ts generalizing c with
  | nil => exact h
  | cons t ts ih =>
    obtain ⟨ht, hts⟩ := List.forall_mem_cons.mp hts
    exact ih (h.stands.flat ht) hts

/-- Tokens in brackets. -/
theorem Stands.group {o e : Token} {headers' : Nat} (h : c.Stands blocks brackets headers)
    (ho : o.opensBracket = true) (he : e.closesBracket = true)
    (hin : ∀ c : Cursor, c.Stands blocks (false :: brackets) headers →
      (c.after ts).Stands blocks (false :: brackets) headers') :
    (c.after (o :: ts ++ [e])).Rests blocks brackets headers' := by
  rw [after_append, after_cons]
  exact (hin _ (h.opened ho).stands).closed he

end Cursor

theorem localTokens_flat (l : Local) (ls : List Local) :
    ∀ t ∈ localTokens l ls, t.isFlat = true := by
  have hlocal : ∀ l : Local, ∀ t ∈ l.tokens, t.isFlat = true := by
    rintro ⟨n, attrib⟩ t ht
    cases attrib <;> simp [Local.tokens] at ht
    · rw [ht]; rfl
    · rcases ht with rfl | rfl | rfl | rfl <;> rfl
  induction ls generalizing l with
  | nil => exact hlocal l
  | cons m ls ih =>
    intro t ht
    simp only [localTokens, List.mem_append, List.mem_cons] at ht
    rcases ht with ht | rfl | ht
    · exact hlocal l t ht
    · rfl
    · exact ih m t ht

namespace Tree

open Cursor

/-- Where a tree leaves the layout; statements stand where no bracket of their block is open. -/
def Nested : {kind : Kind} → Tree kind → Prop
  | .field, t | .fields, t =>
    ∀ (c : Cursor) (blocks : List Nat) (brackets : List Bool) (headers : Nat),
      c.Stands blocks brackets headers →
        (c.after t.tokens).Stands blocks brackets (headers - t.strays true)
  | .stmt, t =>
    ∀ (c : Cursor) (blocks : List Nat) (brackets : List Bool) (headers : Nat) (fresh : Bool),
      c.Stands blocks brackets headers → AtLevel blocks brackets → c.Begins fresh →
        (c.after t.tokens).Rests blocks brackets (headers - t.strays fresh)
  | .block, t =>
    ∀ (c : Cursor) (blocks : List Nat) (brackets : List Bool) (headers : Nat) (fresh : Bool),
      c.Stands blocks brackets headers → AtLevel blocks brackets → c.Begins fresh →
        (c.after t.tokens).Stands blocks brackets (headers - t.strays fresh)
  | .tail, t =>
    ∀ (c : Cursor) (level : Nat) (blocks : List Nat) (brackets : List Bool) (headers : Nat),
      c.Stands (level :: blocks) brackets headers →
        (c.after t.tokens).Rests blocks brackets (headers - t.strays true)
  | .expr, t | .operand, t | .var, t | .call, t | .args, t | .exprs, t | .vars, t | .range, t =>
    ∀ (c : Cursor) (blocks : List Nat) (brackets : List Bool) (headers : Nat),
      c.Stands blocks brackets headers →
        (c.after t.tokens).Rests blocks brackets (headers - t.strays true)

section

variable {c : Cursor} {blocks : List Nat} {brackets : List Bool} {headers : Nat}

/-- A block up to its `end`. -/
theorem nested_body {b : Tree .block} (hb : b.Nested) (h : c.Opens blocks brackets headers) :
    (c.after (b.tokens ++ [.keyword .endKw])).Rests blocks brackets (headers - b.strays true) := by
  rw [after_append]
  exact (hb c _ brackets headers true h.stands rfl h.begins).left rfl

/-- From the condition of an `if` to its end. -/
theorem nested_branch {e : Tree .expr} {b : Tree .block} {f : Tree .tail} (he : e.Nested)
    (hb : b.Nested) (hf : f.Nested) (h : c.Stands blocks brackets headers) :
    (c.after (e.tokens ++ .keyword .thenKw :: b.tokens ++ f.tokens)).Rests blocks brackets
      (headers - (e.strays true + b.strays true + f.strays true)) := by
  have hthen := (he c blocks brackets headers h).stands.opened_block (t := .keyword .thenKw) rfl
  have htail := hf _ _ _ _ _ (hb _ _ _ _ true hthen.stands rfl hthen.begins)
  simpa [Nat.sub_sub] using htail

/-- From the header of a loop to its end. -/
theorem nested_loop {kind : Kind} {e : Tree kind} {b : Tree .block} (hb : b.Nested)
    (hends : EndsExpression e.tokens)
    (he : (c.after e.tokens).Rests blocks brackets (headers + 1 - e.strays true))
    (hlevel : AtLevel blocks brackets) :
    (c.after (e.tokens ++ .keyword .doKw :: b.tokens ++ [.keyword .endKw])).Rests blocks brackets
      (headers - (e.strays true + b.strays true)) := by
  have hdo := he.stands.opened_do hlevel (begins_of_ends he (hends.before_after c))
  have hbody := nested_body hb hdo
  have hcount : headers + 1 - e.strays true - 1 - b.strays true =
      headers - (e.strays true + b.strays true) := by omega
  rw [List.append_assoc, List.cons_append, after_append, after_cons, ← hcount]
  exact hbody

/-- The layout around every tree. -/
theorem nested {kind : Kind} (t : Tree kind) : t.Nested := by
  induction t with
  | literal t => exact fun c _ _ _ h => h.flat (Token.of_isLiteral t.2).1
  | plain p ih | read p ih | result p ih | one p ih | target p ih | lastField p ih => exact ih
  | item p ih => exact fun c blocks brackets headers h => (ih c blocks brackets headers h).stands
  | table fs ih | tableArg fs ih => exact fun c _ _ _ h => h.group rfl rfl fun c h => ih c _ _ _ h
  | paren e ih | someArgs e ih =>
    exact fun c _ _ _ h => h.group rfl rfl fun c h => (ih c _ _ _ h).stands
  | binary l op r ih ih' =>
    intro c blocks brackets headers h
    have hop := (ih c blocks brackets headers h).stands.flat (Token.of_isBinary op.2).1
    have hr := ih' _ _ _ _ hop.stands
    simpa [tokens, strays, Nat.sub_sub] using hr
  | more l r ih ih' | targets l r ih ih' | span l r ih ih' =>
    intro c blocks brackets headers h
    have hcomma := (ih c blocks brackets headers h).stands.flat (t := .symbol .comma) rfl
    have hr := ih' _ _ _ _ hcomma.stands
    simpa [tokens, strays, Nat.sub_sub] using hr
  | unary op e ih => exact fun c _ _ _ h => ih _ _ _ _ (h.flat (Token.of_isUnary op.2).1).stands
  | function ps b ih =>
    intro c blocks brackets headers h
    have hbody := nested_body ih (h.parameters [] (by simp) ps)
    simpa [tokens, strays] using hbody
  | name n | stringArg text => exact fun c _ _ _ h => h.flat rfl
  | index p e ih ih' =>
    intro c blocks brackets headers h
    have hp := (ih c blocks brackets headers h).stands
    have hgroup := hp.group (o := .symbol .bracketOpen) (e := .symbol .bracketClose) rfl rfl
      fun c h => (ih' c _ _ _ h).stands
    simpa [tokens, strays, Nat.sub_sub] using hgroup
  | member p n ih =>
    intro c blocks brackets headers h
    have hdot := (ih c blocks brackets headers h).stands.flat (t := .symbol .dot) rfl
    have hname := hdot.stands.flat (t := .name n) rfl
    simpa [tokens, strays] using hname
  | apply p a ih ih' =>
    intro c blocks brackets headers h
    have hargs := ih' _ _ _ _ (ih c blocks brackets headers h).stands
    simpa [tokens, strays, Nat.sub_sub] using hargs
  | invoke p n a ih ih' =>
    intro c blocks brackets headers h
    have hcolon := (ih c blocks brackets headers h).stands.flat (t := .symbol .colon) rfl
    have hargs := ih' _ _ _ _ (hcolon.stands.flat (t := .name n) rfl).stands
    simpa [tokens, strays, Nat.sub_sub] using hargs
  | noArgs => exact fun c _ _ _ h => (h.opened rfl).stands.closed rfl
  | stride first limit step ih ih' ih'' =>
    intro c blocks brackets headers h
    have hcomma := (ih c blocks brackets headers h).stands.flat (t := .symbol .comma) rfl
    have hcomma' := (ih' _ _ _ _ hcomma.stands).stands.flat (t := .symbol .comma) rfl
    have hstep := ih'' _ _ _ _ hcomma'.stands
    simpa [tokens, strays, Nat.sub_sub] using hstep
  | named n e ih =>
    exact fun c _ _ _ h => (ih _ _ _ _ ((h.flat rfl).stands.flat rfl).stands).stands
  | keyed k e ih ih' =>
    intro c blocks brackets headers h
    have hgroup := h.group (o := .symbol .bracketOpen) (e := .symbol .bracketClose) rfl rfl
      fun c h => (ih c _ _ _ h).stands
    have he := ih' _ _ _ _ (hgroup.stands.flat (t := .symbol .assign) rfl).stands
    simpa [tokens, strays, Nat.sub_sub] using he.stands
  | noField => exact fun c _ _ _ h => h
  | fieldThen f sep fs ih ih' =>
    intro c blocks brackets headers h
    have hsep := (ih c blocks brackets headers h).flat (Token.isFlat_of_isSeparator sep.2)
    have hfs := ih' _ _ _ _ hsep.stands
    simpa [tokens, strays, Nat.sub_sub] using hfs
  | semicolon | breakLoop => exact fun c _ _ _ _ h _ _ => h.flat rfl
  | gotoLabel n => exact fun c _ _ _ _ h _ _ => (h.flat rfl).stands.flat rfl
  | label n => exact fun c _ _ _ _ h _ _ => ((h.flat rfl).stands.flat rfl).stands.flat rfl
  | locals l ls => exact fun c _ _ _ _ h _ _ => (h.flat rfl).flats (localTokens_flat l ls)
  | localsInit l ls es ih =>
    intro c blocks brackets headers fresh h _ _
    have hlocals := (h.flat (t := .keyword .localKw) rfl).flats (localTokens_flat l ls)
    have hes := ih _ _ _ _ (hlocals.stands.flat (t := .symbol .assign) rfl).stands
    simpa [tokens, strays] using hes
  | assign vs es ih ih' =>
    intro c blocks brackets headers fresh h _ _
    have hassign := (ih c blocks brackets headers h).stands.flat (t := .symbol .assign) rfl
    have hes := ih' _ _ _ _ hassign.stands
    simpa [tokens, strays, Nat.sub_sub] using hes
  | callOnly call ih => exact fun c _ _ _ _ h _ _ => ih c _ _ _ h
  | doEnd b ih =>
    intro c blocks brackets headers fresh h hlevel hb
    have hbody := nested_body ih (h.opened_do hlevel hb)
    rw [Nat.sub_sub] at hbody
    exact hbody
  | whileDo e b ih ih' =>
    intro c blocks brackets headers fresh h hlevel _
    have he := ih _ _ _ _ (h.opened_header (t := .keyword .whileKw) rfl).stands
    exact nested_loop ih' e.ended he hlevel
  | repeatUntil b e ih ih' =>
    intro c blocks brackets headers fresh h _ _
    have hopen := h.opened_block (t := .keyword .repeatKw) rfl
    have hbody := ih _ _ _ _ true hopen.stands rfl hopen.begins
    have he := ih' _ _ _ _ (hbody.left (t := .keyword .untilKw) rfl).stands
    simpa [tokens, strays, Nat.sub_sub] using he
  | ifThen e b f ih ih' ih'' =>
    intro c blocks brackets headers fresh h _ _
    exact nested_branch ih ih' ih'' (h.flat (t := .keyword .ifKw) rfl).stands
  | forRange n r b ih ih' =>
    intro c blocks brackets headers fresh h hlevel _
    have hflat : ∀ t ∈ [Token.name n, .symbol .assign], t.isFlat = true := by simp [Token.isFlat]
    have hnames := (h.opened_header (t := .keyword .forKw) rfl).flats hflat
    exact nested_loop ih' r.ended (ih _ _ _ _ hnames.stands) hlevel
  | forIn n ns es b ih ih' =>
    intro c blocks brackets headers fresh h hlevel _
    have hnames := (h.opened_header (t := .keyword .forKw) rfl).flats (nameTokens_flat (n :: ns))
    have hin := ih _ _ _ _ (hnames.stands.flat (t := .keyword .inKw) rfl).stands
    have hloop := nested_loop ih' es.ended hin hlevel
    simpa [tokens, strays] using hloop
  | localFunction n ps b ih =>
    intro c blocks brackets headers fresh h _ _
    have hparams := (h.flat (t := .keyword .localKw) rfl).stands.parameters [.name n]
      (by simp [Token.isFlat]) ps
    have hbody := nested_body ih hparams
    simpa [tokens, strays] using hbody
  | functionNamed f ps b ih =>
    intro c blocks brackets headers fresh h _ _
    have hbody := nested_body ih (h.parameters _ f.tokens_flat ps)
    simpa [tokens, strays] using hbody
  | endIf => exact fun c _ _ _ _ h => h.left rfl
  | elseEnd b ih => exact fun c _ _ _ _ h => nested_body ih h.passed_else
  | elseIf e b f ih ih' ih'' =>
    intro c level blocks brackets headers h
    exact nested_branch ih ih' ih'' (h.left (t := .keyword .elseifKw) rfl).stands
  | nothing => exact fun c _ _ _ _ h _ _ => h
  | ret closed =>
    intro c blocks brackets headers fresh h _ _
    have hret := (h.flat (t := .keyword .returnKw) rfl).stands
    cases closed with
    | false => exact hret
    | true => exact (hret.flat rfl).stands
  | retValues es closed ih =>
    intro c blocks brackets headers fresh h _ _
    have hes := (ih _ _ _ _ (h.flat (t := .keyword .returnKw) rfl).stands).stands
    cases closed with
    | false => simpa [tokens, strays] using hes
    | true => simpa [tokens, strays] using (hes.flat (t := .symbol .semicolon) rfl).stands
  | cons s b ih ih' =>
    intro c blocks brackets headers fresh h hlevel hb
    have hs := ih c blocks brackets headers fresh h hlevel hb
    have hb' := ih' _ _ _ _ s.isSemicolon hs.stands hlevel
      (begins_of_concludes hs (s.ended.before_after c))
    simpa [tokens, strays, Nat.sub_sub] using hb'

end

end Tree

end LuaBundle.Lua
