import LuaBundle.Proofs.Lua.Parts
import LuaBundle.Proofs.Lua.StatementViews

/-!
# What the tokens of a chunk are taken for

The names of a chunk that are declared are the ones that the grammar declares. No attribute, field
or label is taken for a variable; the key of a table may be.
-/
namespace LuaBundle.Lua

def Local.parts (l : Local) : List Part :=
  .localName :: l.attrib.toList.flatMap fun _ => [.other, .other, .other]

def localParts : Local → List Local → List Part
  | l, [] => l.parts
  | l, m :: ms => l.parts ++ .other :: localParts m ms

def Params.parts (ps : Params) : List Part :=
  .other :: (ps.names.map (fun _ => Part.parameter) ++
    if ps.variadic then [Part.other] else []).intersperse .other ++ [.other]

namespace FunctionName

/-- Nothing is selected. -/
def isPlain (f : FunctionName) : Bool := f.fields.isEmpty && f.method.isNone

/-- The names behind dots and the colon, with these. -/
def path (f : FunctionName) : List Token :=
  f.fields.flatMap (fun n => [.symbol .dot, .name n]) ++
    f.method.toList.flatMap fun n => [.symbol .colon, .name n]

def parts (f : FunctionName) : List Part :=
  .callee f.isPlain :: List.replicate f.path.length .other

theorem tokens_eq (f : FunctionName) : f.tokens = .name f.base :: f.path := rfl

end FunctionName

/-- What every token of a tree is taken for. -/
def Tree.parts : {kind : Kind} → Tree kind → List Part
  | _, .literal _ => [.other]
  | _, .plain p => p.parts
  | _, .table fs => .other :: fs.parts ++ [.other]
  | _, .binary l _ r => l.parts ++ .other :: r.parts
  | _, .unary _ e => .other :: e.parts
  | _, .function ps b => .other :: ps.parts ++ b.parts ++ [.other]
  | _, .read v => v.parts
  | _, .result c => c.parts
  | _, .paren e => .other :: e.parts ++ [.other]
  | _, .name _ => [.use]
  | _, .index p e => p.parts ++ .other :: e.parts ++ [.other]
  | _, .member p _ => p.parts ++ [.other, .other]
  | _, .apply p a => p.parts ++ a.parts
  | _, .invoke p _ a => p.parts ++ .other :: .other :: a.parts
  | _, .noArgs => [.other, .other]
  | _, .someArgs es => .other :: es.parts ++ [.other]
  | _, .tableArg fs => .other :: fs.parts ++ [.other]
  | _, .stringArg _ => [.other]
  | _, .one e => e.parts
  | _, .more e es => e.parts ++ .other :: es.parts
  | _, .target v => v.parts
  | _, .targets v vs => v.parts ++ .other :: vs.parts
  | _, .span first limit => first.parts ++ .other :: limit.parts
  | _, .stride first limit step => first.parts ++ .other :: limit.parts ++ .other :: step.parts
  | _, .item e => e.parts
  -- the key of a field may be looked up, as far as the token before it tells
  | _, .named _ e => .use :: .other :: e.parts
  | _, .keyed k e => .other :: k.parts ++ .other :: .other :: e.parts
  | _, .noField => []
  | _, .lastField f => f.parts
  | _, .fieldThen f _ fs => f.parts ++ .other :: fs.parts
  | _, .semicolon | _, .breakLoop => [.other]
  | _, .locals l ls => .other :: localParts l ls
  | _, .localsInit l ls es => .other :: localParts l ls ++ .other :: es.parts
  | _, .assign vs es => vs.parts ++ .other :: es.parts
  | _, .callOnly c => c.parts
  | _, .doEnd b => .other :: b.parts ++ [.other]
  | _, .whileDo e b => .other :: e.parts ++ .other :: b.parts ++ [.other]
  | _, .repeatUntil b e => .other :: b.parts ++ .other :: e.parts
  | _, .ifThen e b t => .other :: e.parts ++ .other :: b.parts ++ t.parts
  | _, .forRange _ r b => .other :: .localName :: .other :: r.parts ++ .other :: b.parts ++ [.other]
  | _, .forIn n ns es b =>
    .other :: localParts ⟨n, none⟩ (ns.map (⟨·, none⟩)) ++ .other :: es.parts ++
      .other :: b.parts ++ [.other]
  | _, .localFunction _ ps b =>
    .other :: .other :: .localName :: ps.parts ++ b.parts ++ [.other]
  | _, .functionNamed f ps b => .other :: f.parts ++ ps.parts ++ b.parts ++ [.other]
  | _, .gotoLabel _ => [.other, .other]
  | _, .label _ => [.other, .other, .other]
  | _, .endIf => [.other]
  | _, .elseEnd b => .other :: b.parts ++ [.other]
  | _, .elseIf e b t => .other :: e.parts ++ .other :: b.parts ++ t.parts
  | _, .nothing => []
  | _, .ret closed => .other :: if closed then [.other] else []
  | _, .retValues es closed => .other :: es.parts ++ if closed then [.other] else []
  | _, .cons s b => s.parts ++ b.parts

/-- A step that begins with the token passes it alone, as no name. -/
def Token.isPassive : Token → Bool
  | name _ | symbol .doubleColon => false
  | keyword .localKw | keyword .functionKw | keyword .forKw | keyword .gotoKw => false
  | _ => true

namespace Token

variable {t : Token}

theorem isPassive_of_isInert (h : t.isInert = true) : t.isPassive = true := by
  cases t with
  | keyword k => cases k <;> first | rfl | cases h
  | symbol s => cases s <;> first | rfl | cases h
  | number _ | string _ | comment _ => rfl
  | name _ => cases h

theorem stepParts_of_isPassive {site : Site} {rest : List Site} (h : site.token.isPassive = true) :
    stepParts site rest = [.other] := by
  have hparts := stepParts.eq_def site rest
  cases htoken : site.token with
  | keyword k =>
    rw [hparts, htoken]
    rw [htoken] at h
    cases k <;> first | rfl | cases h
  | symbol s =>
    rw [hparts, htoken]
    rw [htoken] at h
    cases s <;> first | rfl | cases h
  | number _ | string _ | comment _ => rw [hparts, htoken]
  | name _ =>
    rw [htoken] at h
    cases h

end Token

/-- In front of `us`, the tokens `ts` are taken for these parts. -/
structure TakenAs (us : List Token) (c : Cursor) (ts : List Token) (ps : List Part) : Prop where
  length : ps.length = ts.length
  parts : parts (c.sites (ts ++ us)) = ps ++ parts ((c.after ts).sites us)

theorem EndsWith.not_selecting {ts : List Token} (h : EndsWith (·.selects = false) ts)
    (c : Cursor) : ¬ (c.after ts).Selecting := by
  obtain ⟨q, hq, hends⟩ := h.before_after c
  rintro ⟨r, hr, hsel⟩
  rw [hq] at hr
  rw [← Option.some.inj hr, hends] at hsel
  cases hsel

theorem Cursor.isSelected_site {c : Cursor} {t : Token} :
    (c.site t).isSelected = true ↔ c.Selecting := by
  rw [Site.isSelected, Cursor.site_before, Option.any_eq_true]
  exact exists_congr fun _ => Iff.rfl

namespace TakenAs

variable {us ts ts' : List Token} {c : Cursor} {ps ps' : List Part} {t m o e : Token} {n : Name}

theorem nil : TakenAs us c [] [] := ⟨rfl, rfl⟩

theorem append (h : TakenAs (ts' ++ us) c ts ps) (h' : TakenAs us (c.after ts) ts' ps') :
    TakenAs us c (ts ++ ts') (ps ++ ps') where
  length := by rw [List.length_append, List.length_append, h.length, h'.length]
  parts := by rw [List.append_assoc, h.parts, h'.parts, List.append_assoc, Cursor.after_append]

/-- One step, which may pass several tokens. -/
theorem of_step (h : stepParts (c.site t) ((c.next t).sites (ts ++ us)) = ps)
    (hl : ps.length = ts.length + 1) : TakenAs us c (t :: ts) ps where
  length := hl
  parts := by
    rw [List.cons_append, Cursor.sites, parts_cons, h, hl, Nat.add_sub_cancel, Cursor.drop_sites]
    rfl

theorem passive (ht : t.isPassive = true) : TakenAs us c [t] [.other] :=
  .of_step (Token.stepParts_of_isPassive ht) rfl

theorem cons (ht : t.isPassive = true) (h : TakenAs us (c.next t) ts ps) :
    TakenAs us c (t :: ts) (.other :: ps) :=
  (passive ht).append h

theorem snoc (ht : t.isPassive = true) (h : TakenAs (t :: us) c ts ps) :
    TakenAs us c (ts ++ [t]) (ps ++ [.other]) :=
  h.append (passive ht)

theorem connect (hm : m.isPassive = true) (h : TakenAs (m :: ts' ++ us) c ts ps)
    (h' : TakenAs us ((c.after ts).next m) ts' ps') :
    TakenAs us c (ts ++ m :: ts') (ps ++ .other :: ps') :=
  h.append (.cons hm h')

theorem group (ho : o.isPassive = true) (he : e.isPassive = true)
    (h : TakenAs (e :: us) (c.next o) ts ps) :
    TakenAs us c (o :: ts ++ [e]) (.other :: ps ++ [.other]) :=
  .snoc he (.cons ho h)

theorem use (h : ¬ c.Selecting) : TakenAs us c [.name n] [.use] :=
  .of_step (if_neg fun hsel => h (Cursor.isSelected_site.mp hsel)) rfl

theorem selected (h : t.selects = true) (ht : t.isPassive = true) :
    TakenAs us c [t, .name n] [.other, .other] :=
  .cons ht (.of_step (if_pos (Cursor.isSelected_site.mpr ⟨t, rfl, h⟩)) rfl)

end TakenAs

/-! ### Declarations -/

section Lists

variable {us : List Token} {c : Cursor} {attribs : Bool}

theorem nameParts_local {l : Local} (hattrib : attribs = true ∨ l.attrib = none)
    (hless : us.head? ≠ some (.symbol .less)) :
    nameParts attribs (c.sites (l.tokens ++ us)) =
      moreParts attribs l.parts ((c.after l.tokens).sites us) := by
  obtain ⟨n, attrib⟩ := l
  cases attrib with
  | none =>
    have hskip : ¬ (attribs = true ∧ startsWith .less ((c.next (.name n)).sites us) = true) := by
      rintro ⟨-, h⟩
      rw [startsWith_sites, beq_iff_eq] at h
      exact hless h
    exact nameParts_name rfl (if_neg hskip)
  | some a =>
    obtain rfl : attribs = true := hattrib.resolve_right (by simp)
    exact nameParts_name rfl (if_pos ⟨rfl, (startsWith_sites .less (c.next (.name n)) _).trans rfl⟩)

theorem nameParts_locals (l : Local) (ls : List Local)
    (hattrib : attribs = true ∨ ∀ m ∈ l :: ls, m.attrib = none)
    (hless : us.head? ≠ some (.symbol .less)) (hcomma : us.head? ≠ some (.symbol .comma)) :
    nameParts attribs (c.sites (localTokens l ls ++ us)) = localParts l ls := by
  have hfirst : attribs = true ∨ l.attrib = none :=
    hattrib.imp_right fun h => h l List.mem_cons_self
  induction ls generalizing l c with
  | nil =>
    rw [localTokens, nameParts_local hfirst hless]
    cases us with
    | nil => rfl
    | cons t us => exact if_neg fun h => hcomma (congrArg some h)
  | cons m ls ih =>
    have hrest : attribs = true ∨ ∀ m' ∈ m :: ls, m'.attrib = none :=
      hattrib.imp_right fun h m' hm' => h m' (List.mem_cons_of_mem _ hm')
    rw [localTokens_cons_append, nameParts_local hfirst (by simp), Cursor.sites, moreParts]
    rw [Cursor.site_token, if_pos rfl, ih m hrest (hrest.imp_right fun h => h m List.mem_cons_self)]
    rfl

theorem Local.parts_length (l : Local) : l.parts.length = l.tokens.length := by
  obtain ⟨n, attrib⟩ := l
  cases attrib <;> rfl

theorem localParts_length (l : Local) (ls : List Local) :
    (localParts l ls).length = (localTokens l ls).length := by
  induction ls generalizing l with
  | nil => exact l.parts_length
  | cons m ls ih => simp [localParts, localTokens, ih, l.parts_length]

theorem listParts_names (ns : List Name) (variadic : Bool) :
    listParts (c.sites ((ns.map Token.name ++
        if variadic then [Token.symbol .ellipsis] else []).intersperse (.symbol .comma) ++
          .symbol .parenClose :: us)) =
      (ns.map (fun _ => Part.parameter) ++
        if variadic then [Part.other] else []).intersperse .other ++ [.other] := by
  induction ns generalizing c with
  | nil => cases variadic <;> rfl
  | cons n ns ih =>
    cases ns with
    | nil => cases variadic <;> rfl
    | cons m ns => exact congrArg (fun ps => Part.parameter :: .other :: ps) ih

theorem openParts_params (ps : Params) : openParts (c.sites (ps.tokens ++ us)) = ps.parts := by
  rw [Params.tokens, List.append_assoc]
  exact congrArg (Part.other :: ·) (listParts_names ps.names ps.variadic)

theorem Params.parts_length (ps : Params) : ps.parts.length = ps.tokens.length := by
  obtain ⟨ns, variadic⟩ := ps
  have hlist : (ns.map (fun _ => Part.parameter) ++ if variadic then [Part.other] else []).length =
      (ns.map Token.name ++ if variadic then [Token.symbol .ellipsis] else []).length := by
    cases variadic <;> simp
  rw [Params.parts, Params.tokens, List.length_append, List.length_append, List.length_cons,
    List.length_cons, length_intersperse_eq _ _ hlist]
  rfl

theorem pathParts_params {sites : List Site} {count : Nat} {method : Bool} {ps : Params}
    (h : namePath false sites = (count, method, c.sites (ps.tokens ++ us))) :
    pathParts sites = List.replicate count .other ++ ps.parts := by
  rw [pathParts, h, openParts_params]

theorem headerParts_named (f : FunctionName) (ps : Params) :
    headerParts false (c.sites (f.tokens ++ (ps.tokens ++ us))) = f.parts ++ ps.parts := by
  let rest := (c.next (.name f.base)).sites (f.path ++ (ps.tokens ++ us))
  have hlength : f.path.length = 2 * f.fields.length + 2 * f.method.toList.length := by
    simp [FunctionName.path, Nat.mul_comm]
  have hplain : (!(startsWith .dot rest || startsWith .colon rest)) = f.isPlain := by
    obtain ⟨base, fields, method⟩ := f
    cases fields <;> cases method <;> rfl
  have hpath : pathParts rest = List.replicate f.path.length .other ++ ps.parts := by
    rw [hlength]
    exact pathParts_params (namePath_fields f.fields f.method rfl)
  have hheader : headerParts false (c.site (.name f.base) :: rest) =
      .callee (!(startsWith .dot rest || startsWith .colon rest)) :: pathParts rest := rfl
  rw [hplain, hpath] at hheader
  exact hheader

theorem headerParts_local (n : Name) (ps : Params) :
    headerParts true (c.sites (.name n :: (ps.tokens ++ us))) = .localName :: ps.parts := by
  have hpath : pathParts ((c.next (.name n)).sites (ps.tokens ++ us)) =
      List.replicate 0 .other ++ ps.parts := pathParts_params (namePath_open rfl)
  exact congrArg (Part.localName :: ·) hpath

theorem headerParts_unnamed (ps : Params) :
    headerParts false (c.sites (ps.tokens ++ us)) = ps.parts := openParts_params ps

end Lists

namespace TakenAs

variable {us : List Token} {c : Cursor}

theorem locals (l : Local) (ls : List Local) (hless : us.head? ≠ some (.symbol .less))
    (hcomma : us.head? ≠ some (.symbol .comma)) :
    TakenAs us c (.keyword .localKw :: localTokens l ls) (.other :: localParts l ls) := by
  refine .of_step ?_ (congrArg (· + 1) (localParts_length l ls))
  have hnames : nameParts true ((c.next (.keyword .localKw)).sites (localTokens l ls ++ us)) =
      localParts l ls := nameParts_locals l ls (.inl rfl) hless hcomma
  obtain ⟨ts, hts⟩ : ∃ ts, localTokens l ls = .name l.name :: ts := by
    cases ls <;> exact ⟨_, rfl⟩
  rw [hts] at hnames ⊢
  exact congrArg (Part.other :: ·) hnames

theorem loop (n : Name) (ns : List Name) (hless : us.head? ≠ some (.symbol .less))
    (hcomma : us.head? ≠ some (.symbol .comma)) :
    TakenAs us c (.keyword .forKw :: nameTokens (n :: ns))
      (.other :: localParts ⟨n, none⟩ (ns.map (⟨·, none⟩))) := by
  rw [nameTokens_eq]
  refine .of_step (congrArg (Part.other :: ·) (nameParts_locals _ _ (.inr ?_) hless hcomma))
    (congrArg (· + 1) (localParts_length _ _))
  simp

theorem function (ps : Params) :
    TakenAs us c (.keyword .functionKw :: ps.tokens) (.other :: ps.parts) :=
  .of_step (congrArg (Part.other :: ·) (headerParts_unnamed ps)) (congrArg (· + 1) ps.parts_length)

theorem named (f : FunctionName) (ps : Params) :
    TakenAs us c (.keyword .functionKw :: f.tokens ++ ps.tokens)
      (.other :: f.parts ++ ps.parts) := by
  refine .of_step ?_ (by simp [FunctionName.parts, FunctionName.tokens_eq, ps.parts_length])
  rw [List.append_eq, List.append_assoc]
  exact congrArg (Part.other :: ·) (headerParts_named f ps)

theorem localFunction (n : Name) (ps : Params) :
    TakenAs us c (.keyword .localKw :: .keyword .functionKw :: .name n :: ps.tokens)
      (.other :: .other :: .localName :: ps.parts) :=
  .of_step (congrArg (fun ps => Part.other :: .other :: ps) (headerParts_local n ps))
    (congrArg (· + 3) ps.parts_length)

end TakenAs

namespace Tree

/-- The tokens of every tree are taken for its parts, where none is selected; those of a statement
where no list goes on. -/
def Taken : {kind : Kind} → Tree kind → Prop
  | .stmt, t | .block, t => ∀ us c, ¬ c.Selecting → Succeeds us → TakenAs us c t.tokens t.parts
  | .tail, t => ∀ us c, TakenAs us c t.tokens t.parts
  | .expr, t | .operand, t | .var, t | .call, t | .args, t | .exprs, t | .vars, t | .range, t
  | .field, t | .fields, t => ∀ us c, ¬ c.Selecting → TakenAs us c t.tokens t.parts

section

variable {us : List Token} {c : Cursor} {e : Token} {b : Tree .block}

/-- A block up to the keyword that closes it. -/
theorem taken_body (hb : b.Taken) (he : e.closesBlock = true) (h : ¬ c.Selecting) :
    TakenAs us c (b.tokens ++ [e]) (b.parts ++ [.other]) := by
  have hpassive : e.isPassive = true := by
    cases e with
    | keyword k => cases k <;> first | rfl | cases he
    | symbol _ | name _ | number _ | string _ | comment _ => cases he
  refine .snoc hpassive (hb _ c h (succeeds_of_head us (.inr ?_)))
  simp [Token.mayFollow, he]

theorem taken_branch {e : Tree .expr} {f : Tree .tail} (he : e.Taken) (hb : b.Taken) (hf : f.Taken)
    (h : ¬ c.Selecting) :
    TakenAs us c (e.tokens ++ .keyword .thenKw :: b.tokens ++ f.tokens)
      (e.parts ++ .other :: b.parts ++ f.parts) := by
  obtain ⟨p, ts, htokens, hp⟩ := f.head_tail
  have hrest : Succeeds (f.tokens ++ us) := by
    rw [htokens]
    exact succeeds_of_head _ (.inr (by simp [Token.mayFollow, hp]))
  have hbody := hb (f.tokens ++ us) ((c.after e.tokens).next (.keyword .thenKw))
    (Cursor.not_selecting_next rfl _) hrest
  exact .append (.connect rfl (he _ c h) hbody) (hf us _)

theorem taken_loop {kind : Kind} {e : Tree kind} (he : ∀ us, TakenAs us c e.tokens e.parts)
    (hb : b.Taken) :
    TakenAs us c (e.tokens ++ .keyword .doKw :: b.tokens ++ [.keyword .endKw])
      (e.parts ++ .other :: b.parts ++ [.other]) := by
  rw [List.append_assoc, List.append_assoc]
  exact .connect rfl (he _) (taken_body hb rfl (Cursor.not_selecting_next rfl _))

/-- The parameters and the body of a function. -/
theorem taken_function {ps : Params} {ts : List Token} {front : List Part} (hb : b.Taken)
    (hheader : ∀ us, TakenAs us c (ts ++ ps.tokens) (front ++ ps.parts)) :
    TakenAs us c (ts ++ ps.tokens ++ b.tokens ++ [.keyword .endKw])
      (front ++ ps.parts ++ b.parts ++ [.other]) := by
  rw [List.append_assoc _ b.tokens, List.append_assoc _ b.parts]
  refine (hheader _).append (taken_body hb rfl ?_)
  rw [Params.tokens, ← List.append_assoc, Cursor.after_append]
  exact Cursor.not_selecting_next rfl _

end

theorem not_selecting {kind : Kind} {t : Tree kind} (h : EndsExpression t.tokens) (c : Cursor) :
    ¬ (c.after t.tokens).Selecting :=
  (h.mono fun _ => Token.selects_of_ends).not_selecting c

theorem taken {kind : Kind} (t : Tree kind) : t.Taken := by
  have next : ∀ {m : Token} {c : Cursor}, m.selects = false → ¬ (c.next m).Selecting :=
    fun h => Cursor.not_selecting_next h _
  induction t with
  | literal t =>
    exact fun _ _ _ => .passive (Token.isPassive_of_isInert (Token.isInert_of_isLiteral t.2))
  | plain p ih | read p ih | result p ih | one p ih | target p ih | item p ih | lastField p ih =>
    exact ih
  | table fs ih | tableArg fs ih | paren fs ih | someArgs fs ih =>
    exact fun us c _ => .group rfl rfl (ih _ _ (next rfl))
  | binary l op r ih ih' =>
    obtain ⟨hinert, hsel, -⟩ := Token.isInert_of_isBinary op.2
    exact fun us c h =>
      .connect (Token.isPassive_of_isInert hinert) (ih _ c h) (ih' us _ (next hsel))
  | more l r ih ih' | targets l r ih ih' | span l r ih ih' =>
    exact fun us c h => .connect rfl (ih _ c h) (ih' us _ (next rfl))
  | assign l r ih ih' => exact fun us c h _ => .connect rfl (ih _ c h) (ih' us _ (next rfl))
  | unary op e ih =>
    obtain ⟨hinert, hsel⟩ := Token.isInert_of_isUnary op.2
    exact fun us c _ => .cons (Token.isPassive_of_isInert hinert) (ih us _ (next hsel))
  | function ps b ih =>
    intro us c _
    have hheader : ∀ us, TakenAs us c ([.keyword .functionKw] ++ ps.tokens)
        ([.other] ++ ps.parts) := fun _ => .function ps
    exact taken_function ih hheader
  | name n => exact fun _ _ h => .use h
  | index p e ih ih' =>
    intro us c h
    show TakenAs us c (p.tokens ++ .symbol .bracketOpen :: e.tokens ++ [.symbol .bracketClose]) _
    exact .snoc rfl (.connect rfl (ih _ c h) (ih' _ _ (next rfl)))
  | member p n ih => exact fun us c h => (ih _ c h).append (.selected rfl rfl)
  | apply p a ih ih' => exact fun us c h => (ih _ c h).append (ih' us _ (not_selecting p.ended c))
  | invoke p n a ih ih' =>
    intro us c h
    have hname : TakenAs (a.tokens ++ us) (c.after p.tokens) [.symbol .colon, .name n]
        [.other, .other] := .selected rfl rfl
    exact (ih _ c h).append (hname.append (ih' us _ (next rfl)))
  | noArgs => exact fun _ _ _ => .cons rfl (.passive rfl)
  | stringArg text => exact fun _ _ _ => .passive rfl
  | stride first limit step ih ih' ih'' =>
    intro us c h
    have hspan : TakenAs (.symbol .comma :: step.tokens ++ us) c
        (first.tokens ++ .symbol .comma :: limit.tokens) (first.parts ++ .other :: limit.parts) :=
      .connect rfl (ih _ c h) (ih' _ _ (next rfl))
    exact .connect rfl hspan (ih'' us _ (next rfl))
  | named n e ih =>
    exact fun us c h => (TakenAs.use h).append (.cons rfl (ih us _ (next rfl)))
  | keyed k e ih ih' =>
    intro us c h
    have hvalue : ∀ c : Cursor, TakenAs us c (.symbol .bracketClose :: .symbol .assign :: e.tokens)
        (.other :: .other :: e.parts) := fun c => .cons rfl (.cons rfl (ih' us _ (next rfl)))
    exact .cons rfl ((ih _ _ (next rfl)).append (hvalue _))
  | noField => exact fun _ _ _ => .nil
  | fieldThen f s fs ih ih' =>
    obtain ⟨hinert, hsel, -⟩ := Token.isInert_of_isSeparator s.2
    exact fun us c h =>
      .connect (Token.isPassive_of_isInert hinert) (ih _ c h) (ih' us _ (next hsel))
  | semicolon | breakLoop => exact fun _ _ _ _ => .passive rfl
  | locals l ls =>
    intro us c _ hus
    exact .locals l ls (fun hhead => (hus _ hhead).1 rfl) (fun hhead => (hus _ hhead).2.1 rfl)
  | localsInit l ls es ih =>
    intro us c _ _
    exact .connect rfl (.locals l ls (by simp) (by simp)) (ih us _ (next rfl))
  | callOnly call ih => exact fun us c h _ => ih us c h
  | doEnd b ih => exact fun us c _ _ => .cons rfl (taken_body ih rfl (next rfl))
  | whileDo e b ih ih' =>
    exact fun us c _ _ => .cons rfl (taken_loop (fun _ => ih _ _ (next rfl)) ih')
  | repeatUntil b e ih ih' =>
    intro us c _ _
    refine .cons rfl (.connect rfl (ih _ _ (next rfl) ?_) (ih' us _ (next rfl)))
    exact succeeds_of_head (p := .keyword .untilKw) _ (.inr rfl)
  | ifThen e b t ih ih' ih'' =>
    exact fun us c _ _ => .cons rfl (taken_branch ih ih' ih'' (next rfl))
  | forRange n r b ih ih' =>
    intro us c _ _
    have hname : ∀ us, TakenAs (.symbol .assign :: us) c [.keyword .forKw, .name n]
        [.other, .localName] := fun us => .loop n [] (by simp) (by simp)
    have hloop : ∀ c : Cursor, TakenAs us c (.symbol .assign ::
        (r.tokens ++ .keyword .doKw :: b.tokens ++ [.keyword .endKw]))
        (.other :: (r.parts ++ .other :: b.parts ++ [.other])) :=
      fun c => .cons rfl (taken_loop (fun _ => ih _ _ (next rfl)) ih')
    have hall := (hname _).append (hloop _)
    exact hall
  | forIn n ns es b ih ih' =>
    intro us c _ _
    have hloop : TakenAs us ((c.next (.keyword .forKw)).after (nameTokens (n :: ns)))
        (.keyword .inKw :: (es.tokens ++ .keyword .doKw :: b.tokens ++ [.keyword .endKw])) _ :=
      .cons rfl (taken_loop (fun _ => ih _ _ (next rfl)) ih')
    have hnames := (TakenAs.loop n ns (by simp) (by simp)).append hloop
    simpa [tokens, parts] using hnames
  | localFunction n ps b ih =>
    intro us c _ _
    have hheader : ∀ us, TakenAs us c
        ([.keyword .localKw, .keyword .functionKw, .name n] ++ ps.tokens)
        ([.other, .other, .localName] ++ ps.parts) := fun _ => .localFunction n ps
    exact taken_function ih hheader
  | functionNamed f ps b ih => exact fun us c _ _ => taken_function ih fun _ => .named f ps
  | gotoLabel n => exact fun us c _ _ => .of_step rfl rfl
  | label n => exact fun us c _ _ => .of_step rfl rfl
  | endIf => exact fun _ _ => .passive rfl
  | elseEnd b ih => exact fun us c => .cons rfl (taken_body ih rfl (next rfl))
  | elseIf e b t ih ih' ih'' =>
    exact fun us c => .cons rfl (taken_branch ih ih' ih'' (next rfl))
  | nothing => exact fun _ _ _ _ => .nil
  | ret closed =>
    intro us c _ _
    cases closed with
    | false => exact .passive rfl
    | true => exact .cons rfl (.passive rfl)
  | retValues es closed ih =>
    intro us c _ _
    cases closed with
    | false => simpa [tokens, parts] using TakenAs.cons rfl (ih us _ (next rfl))
    | true => exact .snoc rfl (.cons rfl (ih _ _ (next rfl)))
  | cons s b ih ih' =>
    intro us c h hus
    refine (ih _ c h (b.succeeds hus)).append (ih' us _ ?_ hus)
    exact EndsWith.not_selecting (EndsWith.mono s.ended fun _ hends => hends.2.1) c

theorem start_not_selecting : ¬ Cursor.start.Selecting := by
  rintro ⟨p, hp, -⟩
  cases hp

theorem parts_length {kind : Kind} (t : Tree kind) : t.parts.length = t.tokens.length := by
  have hnone : Succeeds [] := nofun
  cases kind with
  | stmt | block => exact (t.taken [] _ start_not_selecting hnone).length
  | tail => exact (t.taken [] Cursor.start).length
  | _ => exact (t.taken [] _ start_not_selecting).length

end Tree

theorem parts_sites (b : Tree .block) : parts (sites b.tokens) = b.parts := by
  have hparts := (b.taken [] Cursor.start Tree.start_not_selecting nofun).parts
  rw [List.append_nil, ← Cursor.sites_start, Cursor.sites, parts, List.append_nil] at hparts
  exact hparts

end LuaBundle.Lua
