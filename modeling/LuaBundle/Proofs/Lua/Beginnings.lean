import LuaBundle.Proofs.Lua.ExpressionViews
import LuaBundle.Proofs.Lua.Misreading

/-!
# Where statements begin

Which tokens of a tree begin a statement or close a block, and which of two tokens next to one another
the layout marks.
-/
namespace LuaBundle.Lua

/-- Nothing begins here. -/
def unmarked (ts : List Token) : List Bool := ts.map fun _ => false

namespace Tree

/-- Which tokens begin a statement or close a block, where the first token of the tree is one of
these or not. The semicolon that may end a `return` belongs to it. -/
def begins : {kind : Kind} → Tree kind → (first : Bool) → List Bool
  | _, .literal _, x | _, .name _, x | _, .stringArg _, x => [x]
  | _, .plain p, x => p.begins x
  | _, .table fs, x | _, .tableArg fs, x => x :: fs.begins false ++ [false]
  | _, .binary l _ r, x => l.begins x ++ false :: r.begins false
  | _, .unary _ e, x => x :: e.begins false
  | _, .function ps b, x => x :: unmarked ps.tokens ++ b.begins true ++ [true]
  | _, .read v, x | _, .target v, x => v.begins x
  | _, .result c, x | _, .callOnly c, x => c.begins x
  | _, .paren e, x => x :: e.begins false ++ [false]
  | _, .index p e, x => p.begins x ++ false :: e.begins false ++ [false]
  | _, .member p _, x => p.begins x ++ [false, false]
  | _, .apply p a, x => p.begins x ++ a.begins false
  | _, .invoke p _ a, x => p.begins x ++ false :: false :: a.begins false
  | _, .noArgs, x => [x, false]
  | _, .someArgs es, x => x :: es.begins false ++ [false]
  | _, .one e, x | _, .item e, x => e.begins x
  | _, .more e es, x => e.begins x ++ false :: es.begins false
  | _, .targets v vs, x => v.begins x ++ false :: vs.begins false
  | _, .span first limit, x => first.begins x ++ false :: limit.begins false
  | _, .stride first limit step, x =>
    first.begins x ++ false :: limit.begins false ++ false :: step.begins false
  | _, .named _ e, x => x :: false :: e.begins false
  | _, .keyed k e, x => x :: k.begins false ++ false :: false :: e.begins false
  | _, .noField, _ => []
  | _, .lastField f, x => f.begins x
  | _, .fieldThen f _ fs, x => f.begins x ++ false :: fs.begins false
  | _, .semicolon, x | _, .breakLoop, x => [x]
  | _, .locals l ls, x => x :: unmarked (localTokens l ls)
  | _, .localsInit l ls es, x => x :: unmarked (localTokens l ls) ++ false :: es.begins false
  | _, .assign vs es, x => vs.begins x ++ false :: es.begins false
  | _, .doEnd b, x => x :: b.begins true ++ [true]
  | _, .whileDo e b, x => x :: e.begins false ++ false :: b.begins true ++ [true]
  | _, .repeatUntil b e, x => x :: b.begins true ++ true :: e.begins false
  | _, .ifThen e b f, x | _, .elseIf e b f, x =>
    x :: e.begins false ++ false :: b.begins true ++ f.begins true
  | _, .forRange _ r b, x =>
    x :: false :: false :: r.begins false ++ false :: b.begins true ++ [true]
  | _, .forIn n ns es b, x =>
    x :: unmarked (nameTokens (n :: ns)) ++ false :: es.begins false ++ false :: b.begins true ++
      [true]
  | _, .localFunction _ ps b, x =>
    x :: false :: false :: unmarked ps.tokens ++ b.begins true ++ [true]
  | _, .functionNamed f ps b, x =>
    x :: unmarked f.tokens ++ unmarked ps.tokens ++ b.begins true ++ [true]
  | _, .gotoLabel _, x => [x, false]
  | _, .label _, x => [x, false, false]
  | _, .endIf, x => [x]
  | _, .elseEnd b, x => x :: b.begins true ++ [true]
  | _, .nothing, _ => []
  | _, .ret closed, x => x :: if closed then [false] else []
  | _, .retValues es closed, x => x :: es.begins false ++ if closed then [false] else []
  | _, .cons s b, x => s.begins x ++ b.begins true

def isNothing : {kind : Kind} → Tree kind → Bool
  | _, .nothing => true
  | _, _ => false

/-- A statement whose last token closes an attribute. -/
def endsInAttribute : {kind : Kind} → Tree kind → Bool
  | _, .locals l ls => (ls.getLastD l).attrib.isSome
  | _, _ => false

/-- No statement here is taken for a part of the one before it, and no part for a statement: there
are no labels, and no semicolon ends a `return` with values; a statement that begins with a
parenthesis is the first of its block or follows a semicolon; and nothing follows an attribute. -/
def apart : {kind : Kind} → Tree kind → Bool
  | _, .label _ => false
  | _, .retValues _ closed => !closed
  | _, .cons s b => (s.isSemicolon || !b.beginsParen) && (b.isNothing || !s.endsInAttribute)
  | _, _ => true

/-- Statements come apart, and every loop begins with the `do` that seems to be its own. -/
def legible {kind : Kind} (t : Tree kind) : Bool := t.all fun t => t.heads && t.apart

end Tree

theorem unmarked_length (ts : List Token) : (unmarked ts).length = ts.length := List.length_map _

theorem Tree.begins_length {kind : Kind} (t : Tree kind) (x : Bool) :
    (t.begins x).length = t.tokens.length := by
  induction t generalizing x with
  | ret closed | retValues es closed => cases closed <;> simp [begins, tokens, *]
  | _ => simp [begins, tokens, unmarked_length, *]

theorem Token.isFlat_eq_false_of_opens {t : Token} (h : t.opensBracket = true) :
    t.isFlat = false := by
  cases t with
  | symbol s => cases s <;> first | rfl | cases h
  | keyword _ | name _ | number _ | string _ | comment _ => cases h

/-! ### Marks -/

namespace Cursor

variable {c : Cursor} {p q t b e : Token} {ts us : List Token} {bs bs' : List Bool} {x : Bool}
  {blocks : List Nat} {brackets : List Bool} {headers headers' : Nat}

/-- Which of these tokens are marked as starts. -/
def starts (c : Cursor) (ts : List Token) : List Bool := (c.sites ts).map (·.mark.start)

/-- The mark of the first of these tokens. -/
def Heads (c : Cursor) (ts : List Token) (x : Bool) : Prop :=
  ∀ t ∈ ts.head?, c.nesting.starts c.before t = x

theorem starts_append_iff (h : bs.length = ts.length) :
    c.starts (ts ++ us) = bs ++ bs' ↔ c.starts ts = bs ∧ (c.after ts).starts us = bs' := by
  have hstarts : c.starts (ts ++ us) = c.starts ts ++ (c.after ts).starts us := by
    rw [starts, sites_append, List.map_append]
    rfl
  have hlength : (c.starts ts).length = bs.length := by
    rw [starts, List.length_map, sites_length, h]
  rw [hstarts]
  exact ⟨fun h => List.append_inj h hlength, fun ⟨h, h'⟩ => by rw [h, h']⟩

theorem starts_cons_iff : c.starts (t :: ts) = x :: bs ↔
    c.nesting.starts c.before t = x ∧ (c.next t).starts ts = bs := by
  show _ :: _ = _ ↔ _
  rw [List.cons_eq_cons]
  rfl

theorem starts_cons_of (h : c.nesting.starts c.before t = x) :
    c.starts (t :: ts) = x :: bs ↔ (c.next t).starts ts = bs :=
  starts_cons_iff.trans (and_iff_right h)

theorem starts_singleton_iff : c.starts [t] = [x] ↔ c.nesting.starts c.before t = x := by
  exact starts_cons_iff.trans (and_iff_left rfl)

theorem Heads.append (h : c.Heads (ts ++ us) x) : c.Heads ts x := by
  intro t ht
  refine h t ?_
  rw [List.head?_append, ht]
  rfl

theorem Heads.cons (h : c.nesting.starts c.before t = x) : c.Heads (t :: ts) x := fun _ ht =>
  Option.some.inj ht ▸ h

theorem heads_of_starts (h : c.starts ts = x :: bs) : c.Heads ts x := by
  cases ts with
  | nil => cases h
  | cons t ts => exact .cons (starts_cons_iff.mp h).1

theorem starts_of_quiet (h : Quiet c ts) : c.starts ts = unmarked ts := by
  induction ts generalizing c with
  | nil => rfl
  | cons t ts ih =>
    obtain ⟨ht, hts⟩ := List.forall_mem_cons.mp h
    exact starts_cons_iff.mpr ⟨ht, ih hts⟩

/-- Flat tokens that go on with what stands before them, wherever that is. -/
theorem starts_of_joined (h : Joined p ts q) (hts : ∀ t ∈ ts, t.isFlat = true)
    (hb : c.before = some p) (ho : c.nesting.openedBlock = false) :
    c.starts ts = unmarked ts ∧ (c.after ts).nesting.openedBlock = false := by
  induction h generalizing c with
  | nil => exact ⟨rfl, ho⟩
  | flat hj ht _ ih =>
    obtain ⟨hmarks, hopened⟩ := ih (c := c.next _) (List.forall_mem_cons.mp hts).2 rfl
      (by rw [next_flat ht]; rfl)
    refine ⟨starts_cons_iff.mpr ⟨?_, hmarks⟩, hopened⟩
    rw [hb]
    exact Nesting.starts_of_joins ho hj
  | group _ ho' =>
    have hflat := (List.forall_mem_cons.mp hts).1
    rw [Token.isFlat_eq_false_of_opens ho'] at hflat
    cases hflat

theorem Behind.goes_on (h : c.Behind) (ht : t.continuesExpression = true) :
    c.nesting.starts c.before t = false := by
  obtain ⟨ho, p, hp, hends⟩ := h
  rw [hp]
  exact Nesting.starts_of_joins ho
    (Token.joins_of_continues (Token.ne_semicolon_of_ends hends) ht)

theorem Behind.heads_args (h : c.Behind) (a : Tree .args) : c.Heads a.tokens false := by
  obtain ⟨t, ts, hargs, hcontinues, -⟩ := a.starting
  rw [hargs]
  exact .cons (h.goes_on hcontinues)

/-- A keyword that goes on with the statement. -/
theorem Behind.goes_on_word (h : c.Behind) (ht : c.nesting.goesOn t = true) :
    c.nesting.starts c.before t = false := by
  obtain ⟨ho, p, hp, hends⟩ := h
  have hclose : t.closesBlock = false := by
    cases t with
    | keyword w => cases w <;> first | rfl | cases ht
    | symbol _ | name _ | number _ | string _ | comment _ => cases ht
  simp [hp, Nesting.starts, ho, hclose, ht, Token.ne_semicolon_of_ends hends]

theorem Behind.starts (h : c.Behind) (hs : c.Stands blocks brackets headers)
    (hlevel : AtLevel blocks brackets) (ht : t.continuesExpression = false)
    (hgoes : c.nesting.goesOn t = false) : c.nesting.starts c.before t = true := by
  obtain ⟨ho, p, hp, hends⟩ := h
  simp [hp, Nesting.starts, hs.atStatementLevel hlevel, hends, ht, hgoes]

/-- Where a statement is looked for. -/
theorem starts_of_place {fresh : Bool} (h : c.Stands blocks brackets headers)
    (hlevel : AtLevel blocks brackets) (hb : c.Begins fresh) (hplace : fresh = true ∨ c.Behind)
    (ht : t.continuesExpression = false) (hgoes : c.nesting.goesOn t = false) :
    c.nesting.starts c.before t = true := by
  rcases hplace with rfl | hbehind
  · exact starts_of_begins h hlevel hb t
  · exact hbehind.starts h hlevel ht hgoes

theorem Stands.starts_closer (h : c.Stands (brackets.length :: blocks) brackets headers)
    (ht : t.closesBlock = true) : c.nesting.starts c.before t = true := by
  unfold Nesting.starts
  split
  · rfl
  · rw [h.atStatementLevel rfl, ht]
    rfl

theorem Stands.starts_deep (h : c.Stands blocks brackets headers)
    (hdeep : blocks.head?.getD 0 < brackets.length) (hb : c.before = some p) :
    c.nesting.starts c.before t = false := by
  have hblocks : c.nesting.blocks = blocks := congrArg Nesting.blocks h
  have hbrackets : c.nesting.brackets = brackets := congrArg Nesting.brackets h
  rw [hb]
  exact Nesting.starts_of_deep (by rwa [Nesting.Deep, hblocks, hbrackets])

/-- After a token that ends no expression. -/
theorem Rests.goes_on (h : (c.next p).Rests blocks brackets headers)
    (hends : p.endsExpression = false) (hsemi : p ≠ .symbol .semicolon) (ht : t.closesBlock = false) :
    (c.next p).nesting.starts (c.next p).before t = false :=
  Nesting.starts_of_joins (by rw [h]) (Token.joins_of_operand hends hsemi ht)

theorem Rests.behind (h : (c.next p).Rests blocks brackets headers) (hp : p.endsExpression = true) :
    (c.next p).Behind := ⟨by rw [h], p, rfl, hp⟩

theorem Rests.heads (h : (c.next p).Rests blocks brackets headers)
    (hends : p.endsExpression = false) (hsemi : p ≠ .symbol .semicolon) (hts : ∃ t us, ts = t :: us ∧ t.closesBlock = false) :
    (c.next p).Heads ts false := by
  obtain ⟨t, us, rfl, ht⟩ := hts
  exact .cons (h.goes_on hends hsemi ht)

theorem Stands.heads_deep (h : c.Stands blocks brackets headers)
    (hdeep : blocks.head?.getD 0 < brackets.length) (hb : c.before = some p) : c.Heads ts false :=
  fun _ _ => h.starts_deep hdeep hb

/-- What is in brackets, with the brackets. -/
theorem starts_group (hlevel : blocks.head?.getD 0 ≤ brackets.length)
    (hhead : c.nesting.starts c.before b = x)
    (hin : ((c.next b).after ts).Stands blocks (false :: brackets) headers')
    (hlength : bs.length = ts.length) :
    c.starts (b :: ts ++ [e]) = x :: bs ++ [false] ↔ (c.next b).starts ts = bs := by
  obtain ⟨p, hp⟩ := exists_before_after (c := c.next b) rfl ts
  have hclose := hin.starts_deep (t := e) (Nat.lt_succ_of_le hlevel) hp
  rw [List.cons_append, List.cons_append, starts_cons_iff, starts_append_iff hlength,
    starts_singleton_iff, and_iff_right hhead, and_iff_left hclose]

/-- The names of a `local` statement, and the equals sign that may follow them. -/
theorem Stands.starts_locals (h : c.Stands blocks brackets headers) (l : Local) (ls : List Local) :
    (c.next (.keyword .localKw)).starts (localTokens l ls) = unmarked (localTokens l ls) ∧
      ((c.next (.keyword .localKw)).after (localTokens l ls)).nesting.starts
        ((c.next (.keyword .localKw)).after (localTokens l ls)).before (.symbol .assign) = false := by
  obtain ⟨q, hq, -, hjoined⟩ := Joined.locals (p := .keyword .localKw) l ls rfl (by decide)
  have hlocal := h.flat (t := .keyword .localKw) rfl
  obtain ⟨hmarks, hopened⟩ := starts_of_joined (c := c.next (.keyword .localKw)) hjoined
    (localTokens_flat l ls) rfl (by rw [hlocal])
  refine ⟨hmarks, ?_⟩
  rw [before_of_joined hjoined rfl]
  exact Nesting.starts_of_joins hopened (Token.joins_of_continues hq rfl)

/-- The names and parameters of a function. -/
theorem Stands.starts_header (h : c.Stands blocks brackets headers) (ps : Params)
    (hlevel : blocks.head?.getD 0 ≤ brackets.length) (hts : ∀ t ∈ ts, t.isFlat = true)
    (hq : q ≠ .symbol .semicolon) (hjoined : Joined (.keyword .functionKw) ts q) :
    (c.next (.keyword .functionKw)).starts (ts ++ ps.tokens) =
      unmarked ts ++ unmarked ps.tokens := by
  obtain ⟨inner, hparams, hinner⟩ := ps.inner_flat
  let c₁ := (c.next (.keyword .functionKw)).after ts
  obtain ⟨hmarks, hopened⟩ := starts_of_joined (c := c.next (.keyword .functionKw)) hjoined hts rfl
    (by rw [nesting_next, h]; rfl)
  have hparen : c₁.nesting.starts c₁.before (.symbol .parenOpen) = false := by
    rw [before_of_joined hjoined rfl]
    exact Nesting.starts_of_joins hopened (Token.joins_of_continues hq rfl)
  have hopen := h.opened_params hts
  have hquiet : Quiet (c₁.next (.symbol .parenOpen)) inner :=
    quiet_flats hinner (by rw [hopen]; exact Nat.lt_succ_of_le hlevel) rfl
  have hin : ((c₁.next (.symbol .parenOpen)).after inner).nesting.calm =
      ⟨blocks, true :: brackets, false, headers, false⟩ := by
    rw [calm_after_flat hinner, hopen]
    rfl
  obtain ⟨p, hp⟩ := exists_before_after (c := c₁.next (.symbol .parenOpen)) rfl inner
  have hclose := Stands.starts_deep (t := .symbol .parenClose) hin (Nat.lt_succ_of_le hlevel) hp
  have hunmarked : unmarked ps.tokens = false :: unmarked inner ++ [false] := by
    simp [hparams, unmarked]
  rw [starts_append_iff (unmarked_length ts), hunmarked, hparams, List.cons_append,
    List.cons_append, starts_cons_iff, starts_append_iff (unmarked_length inner), starts_singleton_iff]
  exact ⟨hmarks, hparen, starts_of_quiet hquiet, hclose⟩

end Cursor

namespace Token

def opensStatement : Token → Bool
  | name _ | symbol .parenOpen | symbol .semicolon | symbol .doubleColon => true
  | keyword .localKw | keyword .doKw | keyword .whileKw | keyword .repeatKw | keyword .ifKw => true
  | keyword .forKw | keyword .functionKw | keyword .breakKw | keyword .gotoKw => true
  | _ => false

theorem of_opensStatement {t : Token} (h : t.opensStatement = true) :
    t.closesBlock = false ∧ t ≠ .keyword .thenKw ∧ t ≠ .keyword .inKw ∧
      (t.continuesExpression = true → t = .symbol .parenOpen) := by
  cases t with
  | name n => simp [closesBlock, continuesExpression]
  | keyword k => cases k <;> first | decide | cases h
  | symbol s => cases s <;> first | decide | cases h
  | number _ | string _ | comment _ => cases h

end Token

namespace Tree

open Cursor

variable {kind : Kind}

/-! ### Names -/

theorem joined_names {p : Token} (n : Name) (ns : List Name) (hp : p.endsExpression = false)
    (hs : p ≠ .symbol .semicolon) :
    ∃ q, q.endsExpression = true ∧ Joined p (nameTokens (n :: ns)) q := by
  induction ns generalizing n p with
  | nil => exact ⟨.name n, rfl, .flat (Token.joins_of_operand hp hs rfl) rfl .nil⟩
  | cons m ns ih =>
    obtain ⟨q, hq, hrest⟩ := ih m (p := .symbol .comma) rfl (by decide)
    exact ⟨q, hq, .flat (Token.joins_of_operand hp hs rfl) rfl (.flat rfl rfl hrest)⟩

theorem joined_selected {p s : Token} (ns : List Name) (hflat : s.isFlat = true)
    (hends : s.endsExpression = false) (hcontinues : s.continuesExpression = true)
    (hsemi : s ≠ .symbol .semicolon) (hp : p ≠ .symbol .semicolon) :
    ∃ q, q ≠ .symbol .semicolon ∧ Joined p (ns.flatMap fun n => [s, .name n]) q := by
  induction ns generalizing p with
  | nil => exact ⟨p, hp, .nil⟩
  | cons n ns ih =>
    obtain ⟨q, hq, hrest⟩ := ih (p := .name n) (Token.ne_semicolon_of_ends rfl)
    exact ⟨q, hq, .flat (Token.joins_of_continues hp hcontinues) hflat
      (.flat (Token.joins_of_operand hends hsemi rfl) rfl hrest)⟩

theorem joined_function (f : FunctionName) :
    ∃ q, q ≠ .symbol .semicolon ∧ Joined (.keyword .functionKw) f.tokens q := by
  obtain ⟨p, hp, hfields⟩ := joined_selected (p := .name f.base) (s := .symbol .dot) f.fields rfl rfl
    rfl (by decide) (Token.ne_semicolon_of_ends rfl)
  obtain ⟨q, hq, hmethod⟩ := joined_selected (s := .symbol .colon) f.method.toList rfl rfl rfl
    (by decide) hp
  exact ⟨q, hq, .append (.flat rfl rfl hfields) hmethod⟩

/-! ### First tokens -/

/-- How names and calls, and so statements, begin. -/
def Leads : {kind : Kind} → Tree kind → Prop
  | .operand, t | .var, t | .call, t | .vars, t =>
    ∃ p ts, t.tokens = p :: ts ∧ (p = .symbol .parenOpen ∨ ∃ n, p = .name n)
  | .stmt, t => ∃ p ts, t.tokens = p :: ts ∧ p.opensStatement = true ∧
      (p = .keyword .doKw → 0 < t.strays false)
  | .expr, _ | .args, _ | .exprs, _ | .range, _ | .field, _ | .fields, _ | .tail, _ | .block, _ =>
    True

theorem leads (t : Tree kind) : t.Leads := by
  have happend : ∀ {ts : List Token} (us : List Token),
      (∃ p ps, ts = p :: ps ∧ (p = .symbol .parenOpen ∨ ∃ n, p = .name n)) →
        ∃ p ps, ts ++ us = p :: ps ∧ (p = .symbol .parenOpen ∨ ∃ n, p = .name n) := by
    rintro ts us ⟨p, ps, rfl, hp⟩
    exact ⟨p, ps ++ us, rfl, hp⟩
  have hstatement : ∀ {ts : List Token} {n : Nat},
      (∃ p ps, ts = p :: ps ∧ (p = .symbol .parenOpen ∨ ∃ n, p = .name n)) →
        ∃ p ps, ts = p :: ps ∧ p.opensStatement = true ∧ (p = .keyword .doKw → 0 < n) := by
    rintro ts n ⟨p, ps, rfl, rfl | ⟨m, rfl⟩⟩
    · exact ⟨_, ps, rfl, rfl, by rintro ⟨⟩⟩
    · exact ⟨_, ps, rfl, rfl, by rintro ⟨⟩⟩
  induction t with
  | read v ih | result c ih | target v ih => exact ih
  | paren e => exact ⟨_, _, rfl, .inl rfl⟩
  | name n => exact ⟨_, _, rfl, .inr ⟨n, rfl⟩⟩
  | index p e ih => exact happend _ (happend _ ih)
  | member p n ih | apply p a ih | invoke p n a ih | targets v vs ih => exact happend _ ih
  | assign vs es ih => exact hstatement (happend _ ih)
  | callOnly c ih => exact hstatement ih
  | doEnd b => exact ⟨_, _, rfl, rfl, fun _ => by simp [strays]⟩
  | semicolon | locals l ls | localsInit l ls es | whileDo e b | repeatUntil b e | ifThen e b f
  | forRange n r b | forIn n ns es b | localFunction n ps b | functionNamed f ps b | breakLoop
  | gotoLabel n | label n => exact ⟨_, _, rfl, rfl, by rintro ⟨⟩⟩
  | _ => trivial

/-- The first mark is the one that is asked for. -/
def Fronts : {kind : Kind} → Tree kind → Prop
  | .fields, _ | .block, _ => True
  | .expr, t | .operand, t | .var, t | .call, t | .args, t | .exprs, t | .vars, t | .range, t
  | .field, t | .stmt, t | .tail, t => ∀ x, ∃ bs, t.begins x = x :: bs

theorem fronts (t : Tree kind) : t.Fronts := by
  have happend : ∀ {ts : List Bool} {x : Bool} (us : List Bool), (∃ bs, ts = x :: bs) →
      ∃ bs, ts ++ us = x :: bs := by
    rintro ts x us ⟨bs, rfl⟩
    exact ⟨bs ++ us, rfl⟩
  induction t with
  | plain p ih | read p ih | result p ih | one p ih | target p ih | item p ih | callOnly p ih =>
    exact ih
  | binary l op r ih | more l r ih | targets l r ih | span l r ih | assign l r ih
  | member p n ih | apply p a ih | invoke p n a ih => exact fun x => happend _ (ih x)
  | index p e ih | stride p e r ih => exact fun x => happend _ (happend _ (ih x))
  | lastField f | fieldThen f sep fs | noField | nothing | ret closed | retValues es closed
  | cons s b => trivial
  | _ => exact fun x => ⟨_, rfl⟩

/-! ### Last tokens -/

theorem ended_plain (l : Local) (ls : List Local) (h : (ls.getLastD l).attrib.isSome = false) :
    EndsExpression (localTokens l ls) := by
  induction ls generalizing l with
  | nil =>
    obtain ⟨n, attrib⟩ := l
    cases attrib with
    | none => exact .single rfl
    | some a => cases h
  | cons m ls ih =>
    rw [List.getLastD_cons] at h
    exact .append (.cons (ih m h))

theorem ended_attribute (l : Local) (ls : List Local) (h : (ls.getLastD l).attrib.isSome = true) :
    EndsWith (· = .symbol .greater) (localTokens l ls) := by
  induction ls generalizing l with
  | nil =>
    obtain ⟨n, attrib⟩ := l
    cases attrib with
    | none => cases h
    | some a => exact .cons (.cons (.cons (.single rfl)))
  | cons m ls ih =>
    rw [List.getLastD_cons] at h
    exact .append (.cons (ih m h))

/-- The ways in which a statement ends. -/
theorem finishes (s : Tree .stmt) :
    (∃ n, s = .label n) ∨ s.isSemicolon = true ∧ s.endsInAttribute = false ∨
      s.isSemicolon = false ∧ s.endsInAttribute = false ∧ EndsExpression s.tokens ∨
      s.isSemicolon = false ∧ s.endsInAttribute = true ∧
        EndsWith (· = .symbol .greater) s.tokens := by
  cases s with
  | label n => exact .inl ⟨n, rfl⟩
  | semicolon => exact .inr (.inl ⟨rfl, rfl⟩)
  | locals l ls =>
    cases hattrib : (ls.getLastD l).attrib.isSome with
    | false => exact .inr (.inr (.inl ⟨rfl, hattrib, .cons (ended_plain l ls hattrib)⟩))
    | true => exact .inr (.inr (.inr ⟨rfl, hattrib, .cons (ended_attribute l ls hattrib)⟩))
  | localsInit l ls es => exact .inr (.inr (.inl ⟨rfl, rfl, .append (.cons es.ended)⟩))
  | assign vs es => exact .inr (.inr (.inl ⟨rfl, rfl, .append (.cons es.ended)⟩))
  | callOnly call => exact .inr (.inr (.inl ⟨rfl, rfl, call.ended⟩))
  | repeatUntil b e => exact .inr (.inr (.inl ⟨rfl, rfl, .append (.cons e.ended)⟩))
  | ifThen e b f => exact .inr (.inr (.inl ⟨rfl, rfl, .append f.ended⟩))
  | doEnd b | whileDo e b | forRange n r b | forIn n ns es b | localFunction n ps b
  | functionNamed f ps b => exact .inr (.inr (.inl ⟨rfl, rfl, .snoc rfl⟩))
  | breakLoop => exact .inr (.inr (.inl ⟨rfl, rfl, .single rfl⟩))
  | gotoLabel n => exact .inr (.inr (.inl ⟨rfl, rfl, .cons (.single rfl)⟩))

/-- A block that is not empty begins with a statement. -/
theorem opens (b : Tree .block) (h : b.isNothing = false) :
    ∃ p ts bs, b.tokens = p :: ts ∧ p.closesBlock = false ∧ b.begins true = true :: bs := by
  cases b with
  | nothing => cases h
  | ret closed => exact ⟨_, _, _, rfl, rfl, rfl⟩
  | retValues es closed => exact ⟨_, _, _, rfl, rfl, rfl⟩
  | cons s b =>
    obtain ⟨p, ts, htokens, hp, -⟩ := s.leads
    obtain ⟨bs, hbegins⟩ := s.fronts true
    refine ⟨p, ts ++ b.tokens, bs ++ b.begins true, ?_, (Token.of_opensStatement hp).1, ?_⟩
    · rw [tokens, htokens, List.cons_append]
    · rw [begins, hbegins, List.cons_append]

end Tree

end LuaBundle.Lua
