import LuaBundle.Proofs.Lua.Bodies

/-!
# Block depth

Every token of a chunk is as deep as the number of blocks around it, whatever the chunk. A token
that closes a block stands outside of it, so it is as deep as the token that begins the construct.
-/
namespace LuaBundle.Lua

namespace Tree

open Cursor

/-- The depths of the tokens of a tree; of the rest of an `if`, behind the token that closes the
block before it. -/
def Levels : {kind : Kind} → Tree kind → Prop
  | .stmt, t | .block, t =>
    ∀ (c : Cursor) (blocks : List Nat) (brackets : List Bool) (i opener : Nat) (o : Option Nat),
      c.Lies blocks brackets → AtLevel blocks brackets →
        Leveled o (t.bodies i opener) i blocks.length c t.tokens
  | .tail, t =>
    ∀ (c : Cursor) (level : Nat) (blocks : List Nat) (brackets : List Bool) (i opener : Nat),
      c.Lies (level :: blocks) brackets → ∃ e ts, t.tokens = e :: ts ∧ e.closesBlock = true ∧
        Leveled (some opener) (t.bodies i opener) (i + 1) blocks.length (c.next e) ts
  | .expr, t | .operand, t | .var, t | .call, t | .args, t | .exprs, t | .vars, t | .range, t
  | .field, t | .fields, t =>
    ∀ (c : Cursor) (blocks : List Nat) (brackets : List Bool) (i opener : Nat) (o : Option Nat),
      c.Lies blocks brackets → Leveled o (t.bodies i opener) i blocks.length c t.tokens

section

variable {c : Cursor} {blocks : List Nat} {brackets : List Bool} {b : Tree .block}

/-- A block up to the token that closes it. -/
theorem leveled_body {e : Token} (hb : b.Levels) (he : e.closesBlock = true)
    (h : c.Lies (brackets.length :: blocks) brackets) (i j opener : Nat) :
    Leveled (some opener) (⟨opener, i, i + b.tokens.length⟩ :: b.bodies i j) i blocks.length c
      (b.tokens ++ [e]) :=
  .block (b.stays c _ _ h rfl) (hb c _ _ i j none h rfl) he

/-- A function from its keyword on. -/
theorem leveled_function (hb : b.Levels) (ts : List Token) (hts : ∀ t ∈ ts, t.isFlat = true)
    (ps : Params) (h : c.Lies blocks brackets) (i j opener first : Nat)
    (hfirst : first = i + 1 + ts.length + ps.tokens.length) :
    Leveled (some opener) (⟨opener, first, first + b.tokens.length⟩ :: b.bodies first j) i
      blocks.length c (.keyword .functionKw :: ts ++ ps.tokens ++ b.tokens ++ [.keyword .endKw]) := by
  have hbody := leveled_body hb rfl (e := .keyword .endKw) (h.parameters hts ps) first j opener
  rw [List.append_assoc _ b.tokens]
  refine (Leveled.parameters h.depth hts ps).append hbody ?_
  rw [List.length_append, List.length_cons]
  omega

/-- From the condition of an `if` to its end. -/
theorem leveled_branch {e : Tree .expr} {f : Tree .tail} (he : e.Levels) (hb : b.Levels)
    (hf : f.Levels) (h : c.Lies blocks brackets) (i j opener first : Nat)
    (hfirst : first = i + e.tokens.length + 1) :
    Leveled (some opener) (e.bodies i j ++ ⟨opener, first, first + b.tokens.length⟩ ::
        b.bodies first j ++ f.bodies (first + b.tokens.length) opener) i blocks.length
      c (e.tokens ++ .keyword .thenKw :: b.tokens ++ f.tokens) := by
  subst hfirst
  have hcond := e.stays c _ _ h
  have hthen := hcond.opened_block (t := .keyword .thenKw) rfl
  have hafter := b.stays _ _ _ hthen rfl
  obtain ⟨x, ts, htokens, hx, htail⟩ :=
    hf _ _ _ _ (i + e.tokens.length + 1 + b.tokens.length) opener hafter
  have hbody := leveled_body hb hx hthen (i + e.tokens.length + 1) j opener
  have hfront := (he c _ _ i j _ h).append (.cons hcond.depth rfl hbody) rfl
  have hregroup : e.tokens ++ .keyword .thenKw :: b.tokens ++ f.tokens =
      e.tokens ++ .keyword .thenKw :: (b.tokens ++ [x]) ++ ts := by simp [htokens]
  rw [hregroup]
  refine hfront.append (j := i + e.tokens.length + 1 + b.tokens.length + 1) ?_ ?_
  · rw [after_append, after_cons, after_append]
    exact htail
  · simp only [List.length_append, List.length_cons, List.length_nil]
    omega

/-- From the condition or the range of a loop to its end. -/
theorem leveled_loop {gs : List Body} {ts : List Token} {i opener : Nat} (hb : b.Levels)
    (h : Leveled (some opener) gs i blocks.length c ts) (hafter : (c.after ts).Lies blocks brackets)
    (hlevel : AtLevel blocks brackets) (j first : Nat) (hfirst : first = i + ts.length + 1) :
    Leveled (some opener) (gs ++ ⟨opener, first, first + b.tokens.length⟩ :: b.bodies first j) i
      blocks.length c (ts ++ .keyword .doKw :: b.tokens ++ [.keyword .endKw]) := by
  subst hfirst
  have hbody := leveled_body hb rfl (e := .keyword .endKw) (hafter.opened_do hlevel)
    (i + ts.length + 1) j opener
  rw [List.append_assoc, List.cons_append]
  exact h.append (.cons hafter.depth rfl hbody) rfl

end

theorem levels {kind : Kind} (t : Tree kind) : t.Levels := by
  induction t with
  | literal t => exact fun c _ _ i j o h => .one h.depth (Token.of_isLiteral t.2).2.2
  | name n | stringArg text => exact fun c _ _ i j o h => .one h.depth rfl
  | plain p ih | read p ih | result p ih | one p ih | target p ih | lastField p ih | item p ih =>
    exact ih
  | table fs ih | tableArg fs ih | paren fs ih | someArgs fs ih =>
    exact fun c _ _ i j o h => .group h rfl rfl fun c h => ⟨ih c _ _ _ j o h, fs.stays c _ _ h⟩
  | noArgs =>
    intro c blocks brackets i j o h
    have hgroup : Leveled o [] i _ c (.symbol .parenOpen :: [] ++ [.symbol .parenClose]) :=
      .group h rfl rfl fun c h => ⟨.nil, h⟩
    exact hgroup
  | binary l op r ih ih' =>
    intro c blocks brackets i j o h
    exact (ih c _ _ i j o h).connect (l.stays c _ _ h) (Token.of_isBinary op.2).1 rfl
      fun c h => ih' c _ _ _ j o h
  | more l r ih ih' | targets l r ih ih' | span l r ih ih' =>
    intro c blocks brackets i j o h
    exact (ih c _ _ i j o h).connect (l.stays c _ _ h) rfl rfl fun c h => ih' c _ _ _ j o h
  | fieldThen l sep r ih ih' =>
    intro c blocks brackets i j o h
    exact (ih c _ _ i j o h).connect (l.stays c _ _ h) (Token.isFlat_of_isSeparator sep.2) rfl
      fun c h => ih' c _ _ _ j o h
  | assign l r ih ih' =>
    intro c blocks brackets i j o h _
    exact (ih c _ _ i j o h).connect (l.stays c _ _ h) rfl rfl fun c h => ih' c _ _ _ j o h
  | unary op e ih =>
    intro c blocks brackets i j o h
    have hop := (Token.of_isUnary op.2).1
    exact .cons h.depth (Token.closesBlock_of_flat hop) (ih _ _ _ _ j o (h.flat hop))
  | function ps b ih =>
    intro c blocks brackets i j o h
    exact .construct h.depth rfl (leveled_function ih [] (by simp) ps h i j i _ rfl)
  | index p e ih ih' =>
    intro c blocks brackets i j o h
    have hp := p.stays c _ _ h
    have hgroup := Leveled.group (o := o) (i := i + p.tokens.length) (b := .symbol .bracketOpen)
      (e := .symbol .bracketClose) hp rfl rfl fun c h => ⟨ih' c _ _ _ j o h, e.stays c _ _ h⟩
    show Leveled o _ i _ c (p.tokens ++ .symbol .bracketOpen :: e.tokens ++ [.symbol .bracketClose])
    rw [List.append_assoc]
    exact (ih c _ _ i j o h).append hgroup rfl
  | member p n ih =>
    intro c blocks brackets i j o h
    have hp := p.stays c _ _ h
    have hname := Leveled.one (o := o) (i := i + p.tokens.length + 1) (t := .name n)
      (hp.flat (t := .symbol .dot) rfl).depth rfl
    have := (ih c _ _ i j o h).append (.cons hp.depth rfl hname) rfl
    rwa [List.append_nil] at this
  | apply p a ih ih' =>
    intro c blocks brackets i j o h
    exact (ih c _ _ i j o h).append (ih' _ _ _ _ j o (p.stays c _ _ h)) rfl
  | invoke p n a ih ih' =>
    intro c blocks brackets i j o h
    have hp := p.stays c _ _ h
    have hcolon := hp.flat (t := .symbol .colon) rfl
    exact (ih c _ _ i j o h).append (.cons hp.depth rfl (.cons hcolon.depth rfl
      (ih' _ _ _ _ j o (hcolon.flat rfl)))) rfl
  | stride first limit step ih ih' ih'' =>
    intro c blocks brackets i j o h
    have hspan := (ih c _ _ i j o h).connect (t := .symbol .comma) (first.stays c _ _ h) rfl rfl
      fun c h => ih' c _ _ _ j o h
    refine hspan.connect ((Tree.span first limit).stays c _ _ h) rfl ?_ fun c h => ih'' c _ _ _ j o h
    rw [List.length_append, List.length_cons]
    omega
  | named n e ih =>
    intro c blocks brackets i j o h
    have hname := h.flat (t := .name n) rfl
    exact .cons h.depth rfl (.cons hname.depth rfl (ih _ _ _ _ j o (hname.flat rfl)))
  | keyed k e ih ih' =>
    intro c blocks brackets i j o h
    have hgroup := Leveled.group (o := o) (i := i) (b := .symbol .bracketOpen)
      (e := .symbol .bracketClose) h rfl rfl fun c h => ⟨ih c _ _ _ j o h, k.stays c _ _ h⟩
    have hkey := h.group (b := .symbol .bracketOpen) (e := .symbol .bracketClose) rfl rfl
      fun c h => k.stays c _ _ h
    have := hgroup.connect (t := .symbol .assign) (j := i + 1 + k.tokens.length + 2) hkey rfl
      (by simp; omega) fun c h => ih' c _ _ _ j o h
    rwa [List.append_assoc] at this
  | noField => exact fun c _ _ i j o h => .nil
  | nothing => exact fun c _ _ i j o h _ => .nil
  | semicolon | breakLoop => exact fun c _ _ i j o h _ => .one h.depth rfl
  | gotoLabel n => exact fun c _ _ i j o h _ => .cons h.depth rfl (.one (h.flat rfl).depth rfl)
  | label n =>
    exact fun c _ _ i j o h _ => .cons h.depth rfl (.cons (h.flat rfl).depth rfl
      (.one ((h.flat rfl).flat rfl).depth rfl))
  | locals l ls =>
    intro c blocks brackets i j o h _
    exact .cons h.depth rfl (Leveled.flats (h.flat rfl) (localTokens_flat l ls))
  | localsInit l ls es ih =>
    intro c blocks brackets i j o h _
    have hlocal := h.flat (t := .keyword .localKw) rfl
    have hlocals := hlocal.flats (localTokens_flat l ls)
    exact .cons h.depth rfl ((Leveled.flats hlocal (localTokens_flat l ls)).connect hlocals rfl rfl
      fun c h => ih c _ _ _ j o h)
  | callOnly call ih => exact fun c _ _ i j o h _ => ih c _ _ i j o h
  | doEnd b ih =>
    intro c blocks brackets i j o h hlevel
    exact .construct h.depth rfl (.cons h.depth rfl
      (leveled_body ih rfl (h.opened_do hlevel) (i + 1) j i))
  | whileDo e b ih ih' =>
    intro c blocks brackets i j o h hlevel
    have hwhile := h.opened_header (t := .keyword .whileKw) rfl
    exact .construct h.depth rfl (.cons h.depth rfl
      (leveled_loop ih' (ih _ _ _ _ j _ hwhile) (e.stays _ _ _ hwhile) hlevel j _ rfl))
  | forRange n r b ih ih' =>
    intro c blocks brackets i j o h hlevel
    have hfor := h.opened_header (t := .keyword .forKw) rfl
    have hname := hfor.flat (t := .name n) rfl
    have hassign := hname.flat (t := .symbol .assign) rfl
    have hrange := Leveled.cons hfor.depth rfl
      (.cons hname.depth rfl (ih _ _ _ (i + 3) j (some i) hassign))
    exact .construct h.depth rfl (.cons h.depth rfl
      (leveled_loop ih' hrange (r.stays _ _ _ hassign) hlevel j _ (by simp; omega)))
  | forIn n ns es b ih ih' =>
    intro c blocks brackets i j o h hlevel
    have hfor := h.opened_header (t := .keyword .forKw) rfl
    have hnames := hfor.flats (nameTokens_flat (n :: ns))
    have hin := hnames.flat (t := .keyword .inKw) rfl
    have hvalues := (Leveled.flats (i := i + 1) hfor (nameTokens_flat (n :: ns))).connect
      (t := .keyword .inKw) hnames rfl rfl fun c h => ih c _ _ _ j (some i) h
    have := leveled_loop ih' hvalues (by rw [after_append]; exact es.stays _ _ _ hin) hlevel j
      (i + 1 + (nameTokens (n :: ns)).length + 1 + es.tokens.length + 1) (by simp; omega)
    exact .construct h.depth rfl (.cons h.depth rfl this)
  | localFunction n ps b ih =>
    intro c blocks brackets i j o h _
    have hlocal := h.flat (t := .keyword .localKw) rfl
    have hfunction := leveled_function ih [.name n] (by simp [Token.isFlat]) ps hlocal
      (i + 1) j i (i + 3 + ps.tokens.length) rfl
    exact .construct h.depth rfl (.cons h.depth rfl hfunction)
  | functionNamed f ps b ih =>
    intro c blocks brackets i j o h _
    exact .construct h.depth rfl (leveled_function ih f.tokens f.tokens_flat ps h i j i _ rfl)
  | repeatUntil b e ih ih' =>
    intro c blocks brackets i j o h hlevel
    have hrepeat := h.opened_block (t := .keyword .repeatKw) rfl
    have huntil := (b.stays _ _ _ hrepeat rfl).left (t := .keyword .untilKw) rfl
    have hbody := leveled_body ih (e := .keyword .untilKw) rfl hrepeat (i + 1) j i
    have hcond := ih' _ _ _ (i + 1 + b.tokens.length + 1) j (some i) huntil
    have hboth := hbody.append (by rw [after_append]; exact hcond) (by simp; omega)
    rw [List.append_assoc] at hboth
    exact .construct h.depth rfl (.cons h.depth rfl hboth)
  | ifThen e b f ih ih' ih'' =>
    intro c blocks brackets i j o h hlevel
    have hif := h.flat (t := .keyword .ifKw) rfl
    exact .construct h.depth rfl (.cons h.depth rfl
      (leveled_branch ih ih' ih'' hif (i + 1) j i _ rfl))
  | endIf => exact fun c _ _ _ i j h => ⟨_, [], rfl, rfl, .nil⟩
  | elseEnd b ih =>
    intro c level blocks brackets i j h
    exact ⟨_, _, rfl, rfl, leveled_body ih rfl h.passed_else (i + 1) j j⟩
  | elseIf e b f ih ih' ih'' =>
    intro c level blocks brackets i j h
    exact ⟨_, _, rfl, rfl, leveled_branch ih ih' ih'' (h.left rfl) (i + 1) j j _ rfl⟩
  | ret closed =>
    intro c blocks brackets i j o h _
    have hreturn := h.flat (t := .keyword .returnKw) rfl
    cases closed with
    | false => exact .one h.depth rfl
    | true => exact .cons h.depth rfl (.one hreturn.depth rfl)
  | retValues es closed ih =>
    intro c blocks brackets i j o h _
    have hreturn := h.flat (t := .keyword .returnKw) rfl
    have hes := es.stays _ _ _ hreturn
    have hvalues := Leveled.cons h.depth rfl (ih _ _ _ (i + 1) j o hreturn)
    cases closed with
    | false =>
      show Leveled o (es.bodies (i + 1) j) i _ c (.keyword .returnKw :: es.tokens ++ [])
      rwa [List.append_nil]
    | true =>
      have := hvalues.append (.one (t := .symbol .semicolon) hes.depth rfl) rfl
      rwa [List.append_nil] at this
  | cons s b ih ih' =>
    intro c blocks brackets i j o h hlevel
    exact (ih c _ _ i j o h hlevel).append (ih' _ _ _ _ j o (s.stays c _ _ h hlevel) hlevel) rfl

end Tree

/-- How deep a token of a text is. -/
def depthAt (ts : List Token) (i : Nat) : Option Nat := ((layout ts)[i]?).map (·.depth)

theorem depthAt_eq (ts : List Token) (i : Nat) : depthAt ts i = (Cursor.start.depths ts)[i]? := by
  rw [depthAt, Cursor.layout_eq, Cursor.depths, List.getElem?_map, List.getElem?_map,
    Option.map_map]
  rfl

/-- The depths of a text are those of these blocks. -/
structure ExactDepths (ts : List Token) (gs : List Body) : Prop where
  depth : ∀ i < ts.length, depthAt ts i = some (enclosing gs i)
  /-- Every token that closes a block closes one of these, -/
  closer : ∀ i t, ts[i]? = some t → t.closesBlock = true → ∃ g ∈ gs, g.stop = i
  /-- and each of these is closed, by a token as deep as the one that begins the construct. -/
  closes : ∀ g ∈ gs, ∃ t, ts[g.stop]? = some t ∧ t.closesBlock = true ∧
    depthAt ts g.stop = depthAt ts g.opener

/-- The depth of every token of a chunk is the number of blocks around it, a token that closes a
block is as deep as the one that begins the construct, and what follows the chunk has the depth
zero. -/
theorem layout_depths (b : Tree .block) :
    ExactDepths b.tokens (b.bodies 0 0) ∧
      ∀ t, depthAt (b.tokens ++ [t]) b.tokens.length = some 0 := by
  have hstart : Cursor.start.Lies [] [] := ⟨0, rfl⟩
  have h := b.levels _ _ _ 0 0 none hstart rfl
  refine ⟨⟨fun i hi => ?_, fun i t ht hclose => ?_, fun g hg => ?_⟩, fun t => ?_⟩
  · obtain ⟨n, hn⟩ : ∃ n, (Cursor.start.depths b.tokens)[i]? = some n :=
      ⟨_, List.getElem?_eq_getElem (by rwa [Cursor.depths_length])⟩
    rw [depthAt_eq, hn, h.depth i n hn]
    simp
  · simpa using h.closer i t ht hclose
  · obtain ⟨m, t, n, hstop, ht, hclose, hn, hopen⟩ := h.closes g hg
    obtain ⟨hnone, -⟩ | ⟨p, hp, hdepth⟩ := hopen
    · cases hnone
    rw [Nat.zero_add] at hstop hp
    subst hstop hp
    exact ⟨t, ht, hclose, by rw [depthAt_eq, depthAt_eq, hn, hdepth]⟩
  · have hend := (b.stays _ _ _ hstart rfl).depth
    rw [depthAt_eq, Cursor.depths_append, List.getElem?_append_right (by simp),
      Cursor.depths_length, Nat.sub_self]
    show some ((Cursor.start.after b.tokens).nesting.depthOf t) = _
    rw [Nesting.depthOf, hend]
    split <;> rfl

/-- Both blocks of `if x then break else break end` belong to the `if`. -/
example : (Tree.cons (.ifThen (.plain (.read (.name ['x']))) (.cons .breakLoop .nothing)
    (.elseEnd (.cons .breakLoop .nothing))) .nothing).bodies 0 0 = [⟨0, 3, 4⟩, ⟨0, 5, 6⟩] := rfl

end LuaBundle.Lua
