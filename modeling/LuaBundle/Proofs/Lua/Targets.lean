import LuaBundle.Proofs.Lua.Beginnings
import LuaBundle.Proofs.Lua.Parts

/-!
# Looking ahead for targets

From a name at the beginning of a statement, the walk looks ahead for plain names that are assigned.
It finds those of the list of targets that it runs through, unless there is a keyword in the list.
-/
namespace LuaBundle.Lua

namespace Token

def isWord : Token → Bool
  | keyword _ => true
  | _ => false

theorem isFlat_eq_false_of_closes {t : Token} (h : t.closesBracket = true) : t.isFlat = false := by
  cases t with
  | symbol s => cases s <;> first | rfl | cases h
  | keyword _ | name _ | number _ | string _ | comment _ => cases h

end Token

/-- Nothing is found that lies behind this token. -/
def Site.halts (site : Site) : Bool := site.mark.start || site.token.isWord

/-- Up to a keyword, brackets match; if the tokens are bare, no comma or equals sign stands outside
of brackets. -/
inductive Enclosed : (bare : Bool) → List Token → Prop where
  | nil {bare : Bool} : Enclosed bare []
  | word {bare : Bool} {t : Token} {ts : List Token} (ht : t.isWord = true) :
      Enclosed bare (t :: ts)
  | cons {bare : Bool} {t : Token} {ts : List Token} (hopen : t.opensBracket = false)
      (hclose : t.closesBracket = false)
      (hbare : bare = true → t ≠ .symbol .comma ∧ t ≠ .symbol .assign) (hts : Enclosed bare ts) :
      Enclosed bare (t :: ts)
  | group {bare : Bool} {o e : Token} {ts us : List Token} (ho : o.opensBracket = true)
      (he : e.closesBracket = true) (hts : Enclosed false ts) (hus : Enclosed bare us) :
      Enclosed bare (o :: (ts ++ e :: us))

section Scan

variable {site o e : Site} {rest ss : List Site} {depth : Nat} {found : List Nat} {bare : Bool}
  {ts : List Token}

theorem targetsAhead_of_halts (h : site.halts = true) :
    targetsAhead depth found (site :: rest) = [] := by
  rw [targetsAhead.eq_def]
  dsimp only
  split
  · rfl
  · rename_i hstart
    rw [Site.halts, Bool.eq_false_of_not_eq_true hstart, Bool.false_or] at h
    cases htoken : site.token with
    | keyword k => rfl
    | _ =>
      rw [htoken] at h
      cases h

theorem targetsAhead_open (h : site.halts = false) (ho : site.token.opensBracket = true) :
    targetsAhead depth found (site :: rest) = targetsAhead (depth + 1) found rest := by
  rw [Site.halts, Bool.or_eq_false_iff] at h
  rw [targetsAhead.eq_def]
  dsimp only
  rw [if_neg (by simp [h.1])]
  cases htoken : site.token with
  | symbol m =>
    rw [htoken] at ho
    cases m <;> first | rfl | cases ho
  | _ =>
    rw [htoken] at ho
    cases ho

theorem targetsAhead_close (h : site.halts = false) (he : site.token.closesBracket = true) :
    targetsAhead depth found (site :: rest) = targetsAhead (depth - 1) found rest := by
  rw [Site.halts, Bool.or_eq_false_iff] at h
  rw [targetsAhead.eq_def]
  dsimp only
  rw [if_neg (by simp [h.1])]
  cases htoken : site.token with
  | symbol m =>
    rw [htoken] at he
    cases m <;> first | rfl | cases he
  | _ =>
    rw [htoken] at he
    cases he

/-- A token that is no target's end. -/
theorem targetsAhead_pass (h : site.halts = false) (ho : site.token.opensBracket = false)
    (he : site.token.closesBracket = false)
    (hplace : 0 < depth ∨ site.token ≠ .symbol .comma ∧ site.token ≠ .symbol .assign) :
    targetsAhead depth found (site :: rest) = targetsAhead depth found rest := by
  rw [Site.halts, Bool.or_eq_false_iff] at h
  rw [targetsAhead.eq_def]
  dsimp only
  rw [if_neg (by simp [h.1])]
  cases htoken : site.token with
  | symbol m =>
    rw [htoken] at ho he hplace
    have hpos : m = .comma ∨ m = .assign → depth ≠ 0 := by
      rintro hm rfl
      rcases hplace with hpos | ⟨hcomma, hassign⟩
      · exact absurd hpos (Nat.lt_irrefl 0)
      · rcases hm with rfl | rfl <;> simp at hcomma hassign
    cases m with
    | comma =>
      cases rest with
      | nil => rfl
      | cons n rest => exact if_neg fun hn => hpos (.inl rfl) hn.1
    | assign => exact if_neg (hpos (.inr rfl))
    | parenOpen | bracketOpen | braceOpen => cases ho
    | parenClose | bracketClose | braceClose => cases he
    | _ => rfl
  | keyword k =>
    rw [htoken] at h
    cases h.2
  | name _ | number _ | string _ | comment _ => rfl

theorem targetsAhead_enclosed (h : Enclosed bare ts) (hss : ss.map (·.token) = ts)
    (hplace : bare = true ∨ 0 < depth) :
    targetsAhead depth found (ss ++ rest) =
      if ss.any Site.halts then [] else targetsAhead depth found rest := by
  induction h generalizing ss depth rest with
  | nil =>
    rw [List.map_eq_nil_iff.mp hss]
    rfl
  | word ht =>
    obtain ⟨site, ss, rfl, rfl, -⟩ := List.map_eq_cons_iff.mp hss
    have hhalts : site.halts = true := by rw [Site.halts, ht, Bool.or_true]
    rw [List.cons_append, targetsAhead_of_halts hhalts, List.any_cons, hhalts]
    rfl
  | @cons bare t ts hopen hclose hbare hts ih =>
    obtain ⟨site, ss, rfl, rfl, htail⟩ := List.map_eq_cons_iff.mp hss
    rw [List.cons_append, List.any_cons]
    cases hhalts : site.halts with
    | true => exact targetsAhead_of_halts hhalts
    | false =>
      rw [targetsAhead_pass hhalts hopen hclose (hplace.symm.imp_right hbare), ih htail hplace]
      rfl
  | @group bare o e ts us ho he hts hus ih ih' =>
    obtain ⟨site, ss, rfl, rfl, htail⟩ := List.map_eq_cons_iff.mp hss
    obtain ⟨ss, ss', rfl, hinner, htail⟩ := List.map_eq_append_iff.mp htail
    obtain ⟨site', ss', rfl, rfl, houter⟩ := List.map_eq_cons_iff.mp htail
    rw [List.cons_append, List.append_assoc, List.cons_append, List.any_cons, List.any_append,
      List.any_cons]
    cases hhalts : site.halts with
    | true => exact targetsAhead_of_halts hhalts
    | false =>
      rw [targetsAhead_open hhalts ho, ih hinner (.inr (Nat.succ_pos depth))]
      cases hin : ss.any Site.halts with
      | true => rfl
      | false =>
        cases hhalts' : site'.halts with
        | true => exact targetsAhead_of_halts hhalts'
        | false =>
          exact (targetsAhead_close hhalts' he).trans (ih' houter hplace)

end Scan

namespace Enclosed

variable {bare bare' : Bool} {t o e : Token} {ts us : List Token} {n : Name}

theorem append (h : Enclosed bare ts) (h' : Enclosed bare us) : Enclosed bare (ts ++ us) := by
  induction h with
  | nil => exact h'
  | word ht => exact .word ht
  | cons ho he hbare _ ih => exact .cons ho he hbare (ih h')
  | group ho he hts _ _ ih =>
    rw [List.cons_append, List.append_assoc, List.cons_append]
    exact .group ho he hts (ih h')

theorem relax (h : Enclosed true ts) : Enclosed bare ts := by
  generalize htrue : true = bare' at h
  induction h with
  | nil => exact .nil
  | word ht => exact .word ht
  | cons ho he hbare _ ih => exact .cons ho he (fun _ => hbare htrue.symm) (ih htrue)
  | group ho he hts _ _ ih => exact .group ho he hts (ih htrue)

theorem name (h : Enclosed bare ts) : Enclosed bare (.name n :: ts) :=
  .cons rfl rfl (fun _ => ⟨nofun, nofun⟩) h

theorem brackets (ho : o.opensBracket = true) (he : e.closesBracket = true)
    (h : Enclosed false ts) : Enclosed bare (o :: ts ++ [e]) := .group ho he h .nil

theorem flat (ht : t.isFlat = true) (h : Enclosed false ts) : Enclosed false (t :: ts) := by
  refine .cons ?_ ?_ nofun h
  · exact Bool.eq_false_of_not_eq_true fun ho => by simp [Token.isFlat_eq_false_of_opens ho] at ht
  · exact Bool.eq_false_of_not_eq_true fun he => by simp [Token.isFlat_eq_false_of_closes he] at ht

end Enclosed

namespace Tree

/-- How the tokens of a tree are enclosed; nothing is said of statements, which stand behind a
keyword. -/
def Encloses : {kind : Kind} → Tree kind → Prop
  | .operand, t | .var, t | .call, t | .args, t => Enclosed true t.tokens
  | .expr, t | .exprs, t | .vars, t | .range, t | .field, t | .fields, t => Enclosed false t.tokens
  | .stmt, _ | .tail, _ | .block, _ => True

theorem encloses {kind : Kind} (t : Tree kind) : t.Encloses := by
  induction t with
  | literal t => exact Enclosed.flat (Token.of_isLiteral t.2).1 .nil
  | plain p ih | target p ih => exact Enclosed.relax ih
  | read p ih | result p ih | one p ih | item p ih | lastField p ih => exact ih
  | table fs ih => exact Enclosed.brackets rfl rfl ih
  | binary l op r ih ih' => exact Enclosed.append ih (.flat (Token.of_isBinary op.2).1 ih')
  | unary op e ih => exact Enclosed.flat (Token.of_isUnary op.2).1 ih
  | function ps b => exact Enclosed.word rfl
  | paren e ih => exact Enclosed.brackets rfl rfl ih
  | name n => exact Enclosed.name .nil
  | index p e ih ih' =>
    show Enclosed true (p.tokens ++ .symbol .bracketOpen :: e.tokens ++ [.symbol .bracketClose])
    rw [List.append_assoc]
    exact Enclosed.append ih (.brackets rfl rfl ih')
  | member p n ih =>
    exact Enclosed.append ih (.cons rfl rfl (fun _ => ⟨by decide, by decide⟩) (.name .nil))
  | apply p a ih ih' => exact Enclosed.append ih ih'
  | invoke p n a ih ih' =>
    exact Enclosed.append ih (.cons rfl rfl (fun _ => ⟨by decide, by decide⟩) (.name ih'))
  | noArgs => exact Enclosed.brackets rfl rfl .nil
  | someArgs es ih | tableArg es ih => exact Enclosed.brackets rfl rfl ih
  | stringArg text => exact Enclosed.cons rfl rfl (fun _ => ⟨nofun, nofun⟩) .nil
  | more l r ih ih' | span l r ih ih' => exact Enclosed.append ih (.flat rfl ih')
  | targets l r ih ih' => exact Enclosed.append (Enclosed.relax ih) (.flat rfl ih')
  | stride first limit step ih ih' ih'' =>
    exact Enclosed.append (Enclosed.append ih (.flat rfl ih')) (.flat rfl ih'')
  | named n e ih => exact Enclosed.name (.flat rfl ih)
  | keyed k e ih ih' => exact Enclosed.group rfl rfl ih (.flat rfl ih')
  | noField => exact Enclosed.nil
  | fieldThen f s fs ih ih' =>
    exact Enclosed.append ih (.flat (Token.isFlat_of_isSeparator s.2) ih')
  | _ => trivial

/-- No keyword stands in the tree, and so no function. -/
def wordless {kind : Kind} (t : Tree kind) : Bool := t.tokens.all (!·.isWord)

/-- A scan comes to these tokens from a name that is marked before them, if they begin with a
parenthesis, or from the name that they begin with. -/
def reached (ts : List Token) (marked carried : Bool) : Bool :=
  if ts.head? = some (.symbol .parenOpen) then carried else marked

/-- A scan that has come to the statement goes on behind it. -/
def carries : Tree .stmt → (marked carried : Bool) → Bool
  | .callOnly c, marked, carried => c.wordless && reached c.tokens marked carried
  | _, _, _ => false

/-- A name behind the statement is marked. -/
def marksNext : Tree .stmt → Bool
  | .label _ => false
  | s => !s.endsInAttribute

/-- Which tokens are plain names in lists of targets, in all lists or in those that a scan runs
through. Of a list it is asked with `marked` whether it is one of these; of a statement with
`marked` whether a name that begins it is marked, and with `carried` whether a scan comes to it. -/
def targeted (every : Bool) : {kind : Kind} → Tree kind → (marked carried : Bool) → List Bool
  | _, .literal _, _, _ | _, .stringArg _, _, _ => [false]
  | _, .plain p, _, _ => p.targeted every false false
  | _, .table fs, _, _ | _, .tableArg fs, _, _ => false :: fs.targeted every false false ++ [false]
  | _, .binary l _ r, _, _ =>
    l.targeted every false false ++ false :: r.targeted every false false
  | _, .unary _ e, _, _ => false :: e.targeted every false false
  | _, .function ps b, _, _ =>
    false :: unmarked ps.tokens ++ b.targeted every true false ++ [false]
  | _, .read v, _, _ => v.targeted every false false
  | _, .result c, _, _ | _, .callOnly c, _, _ => c.targeted every false false
  | _, .paren e, _, _ => false :: e.targeted every false false ++ [false]
  | _, .name _, marked, _ => [marked]
  | _, .index p e, _, _ =>
    p.targeted every false false ++ false :: e.targeted every false false ++ [false]
  | _, .member p _, _, _ => p.targeted every false false ++ [false, false]
  | _, .apply p a, _, _ => p.targeted every false false ++ a.targeted every false false
  | _, .invoke p _ a, _, _ =>
    p.targeted every false false ++ false :: false :: a.targeted every false false
  | _, .noArgs, _, _ => [false, false]
  | _, .someArgs es, _, _ => false :: es.targeted every false false ++ [false]
  | _, .one e, _, _ | _, .item e, _, _ => e.targeted every false false
  | _, .more e es, _, _ => e.targeted every false false ++ false :: es.targeted every false false
  | _, .target v, marked, _ => v.targeted every marked false
  | _, .targets v vs, marked, _ =>
    v.targeted every marked false ++ false :: vs.targeted every marked false
  | _, .span first limit, _, _ =>
    first.targeted every false false ++ false :: limit.targeted every false false
  | _, .stride first limit step, _, _ =>
    first.targeted every false false ++ false :: limit.targeted every false false ++
      false :: step.targeted every false false
  | _, .named _ e, _, _ => false :: false :: e.targeted every false false
  | _, .keyed k e, _, _ =>
    false :: k.targeted every false false ++ false :: false :: e.targeted every false false
  | _, .noField, _, _ => []
  | _, .lastField f, _, _ => f.targeted every false false
  | _, .fieldThen f _ fs, _, _ =>
    f.targeted every false false ++ false :: fs.targeted every false false
  | _, .semicolon, _, _ | _, .breakLoop, _, _ => [false]
  | _, .locals l ls, _, _ => false :: unmarked (localTokens l ls)
  | _, .localsInit l ls es, _, _ =>
    false :: unmarked (localTokens l ls) ++ false :: es.targeted every false false
  | _, .assign vs es, marked, carried =>
    vs.targeted every (every || vs.wordless && reached vs.tokens marked carried) false ++
      false :: es.targeted every false false
  | _, .doEnd b, _, _ => false :: b.targeted every true false ++ [false]
  | _, .whileDo e b, _, _ =>
    false :: e.targeted every false false ++ false :: b.targeted every true false ++ [false]
  | _, .repeatUntil b e, _, _ =>
    false :: b.targeted every true false ++ false :: e.targeted every false false
  | _, .ifThen e b t, _, _ | _, .elseIf e b t, _, _ =>
    false :: e.targeted every false false ++ false :: b.targeted every true false ++
      t.targeted every false false
  | _, .forRange _ r b, _, _ =>
    false :: false :: false :: r.targeted every false false ++
      false :: b.targeted every true false ++ [false]
  | _, .forIn n ns es b, _, _ =>
    false :: unmarked (nameTokens (n :: ns)) ++ false :: es.targeted every false false ++
      false :: b.targeted every true false ++ [false]
  | _, .localFunction _ ps b, _, _ =>
    false :: false :: false :: unmarked ps.tokens ++ b.targeted every true false ++ [false]
  | _, .functionNamed f ps b, _, _ =>
    false :: unmarked f.tokens ++ unmarked ps.tokens ++ b.targeted every true false ++ [false]
  | _, .gotoLabel _, _, _ => [false, false]
  | _, .label _, _, _ => [false, false, false]
  | _, .endIf, _, _ => [false]
  | _, .elseEnd b, _, _ => false :: b.targeted every true false ++ [false]
  | _, .nothing, _, _ => []
  | _, .ret closed, _, _ => false :: if closed then [false] else []
  | _, .retValues es closed, _, _ =>
    false :: es.targeted every false false ++ if closed then [false] else []
  | _, .cons s b, marked, carried =>
    s.targeted every marked carried ++
      b.targeted every s.marksNext (s.carries marked carried)

theorem targeted_length {kind : Kind} (t : Tree kind) (every marked carried : Bool) :
    (t.targeted every marked carried).length = t.tokens.length := by
  induction t generalizing marked carried with
  | ret closed | retValues es closed => cases closed <;> simp [targeted, tokens, *]
  | _ => simp [targeted, tokens, unmarked_length, *]

/-- If no keyword stands in the tree, there is no statement in it, and so no target. -/
def PlainTokens {kind : Kind} (t : Tree kind) : Prop :=
  t.wordless = true → t.plainly = true ∧
    ∀ every carried, t.targeted every false carried = unmarked t.tokens

def Plain : {kind : Kind} → Tree kind → Prop
  | .stmt, _ | .tail, _ | .block, _ => True
  | .expr, t | .operand, t | .var, t | .call, t | .args, t | .exprs, t | .vars, t | .range, t
  | .field, t | .fields, t => t.PlainTokens

section Plain

variable {kind kind₁ kind₂ : Kind} {t : Tree kind} {l : Tree kind₁} {r : Tree kind₂}

theorem plain_one (ps us : List Token) (hl : l.PlainTokens)
    (htokens : t.tokens = ps ++ (l.tokens ++ us)) (hplainly : t.plainly = l.plainly)
    (htargeted : ∀ every carried, t.targeted every false carried =
      unmarked ps ++ (l.targeted every false false ++ unmarked us)) : t.PlainTokens := by
  intro h
  rw [wordless, htokens, List.all_append, List.all_append, Bool.and_eq_true, Bool.and_eq_true] at h
  obtain ⟨hplain, htargets⟩ := hl h.2.1
  refine ⟨hplainly.trans hplain, fun every carried => ?_⟩
  rw [htargeted, htokens, htargets, unmarked, unmarked, unmarked, unmarked, List.map_append,
    List.map_append]

theorem plain_two (ps ms us : List Token) (hl : l.PlainTokens) (hr : r.PlainTokens)
    (htokens : t.tokens = ps ++ (l.tokens ++ (ms ++ (r.tokens ++ us))))
    (hplainly : t.plainly = (l.plainly && r.plainly))
    (htargeted : ∀ every carried, t.targeted every false carried =
      unmarked ps ++ (l.targeted every false false ++
        (unmarked ms ++ (r.targeted every false false ++ unmarked us)))) : t.PlainTokens := by
  intro h
  simp only [wordless, htokens, List.all_append, Bool.and_eq_true] at h
  obtain ⟨hplain, htargets⟩ := hl h.2.1
  obtain ⟨hplain', htargets'⟩ := hr h.2.2.2.1
  refine ⟨by rw [hplainly, hplain, hplain']; rfl, fun every carried => ?_⟩
  rw [htargeted, htokens, htargets, htargets']
  simp only [unmarked, List.map_append]

theorem plain_pair {m : Token} (hl : l.PlainTokens) (hr : r.PlainTokens)
    (htokens : t.tokens = l.tokens ++ m :: r.tokens)
    (hplainly : t.plainly = (l.plainly && r.plainly))
    (htargeted : ∀ every carried, t.targeted every false carried =
      l.targeted every false false ++ false :: r.targeted every false false) : t.PlainTokens := by
  refine plain_two [] [m] [] hl hr ?_ hplainly fun every carried => ?_
  · simp [htokens]
  · simp [htargeted, unmarked]

end Plain

theorem plain_of_wordless {kind : Kind} (t : Tree kind) : t.Plain := by
  induction t with
  | literal t | name n | stringArg text | noArgs | noField => exact fun _ => ⟨rfl, fun _ _ => rfl⟩
  | plain p ih | read p ih | result p ih | one p ih | target p ih | item p ih | lastField p ih =>
    exact fun h => ⟨(ih h).1, fun every _ => (ih h).2 every false⟩
  | function ps b => exact fun h => by simp [wordless, tokens, Token.isWord] at h
  | table fs ih | tableArg fs ih =>
    exact plain_one [.symbol .braceOpen] [.symbol .braceClose] ih rfl rfl fun _ _ => rfl
  | paren e ih | someArgs e ih =>
    exact plain_one [.symbol .parenOpen] [.symbol .parenClose] ih rfl rfl fun _ _ => rfl
  | unary op e ih =>
    exact plain_one [op.1] [] ih (by simp [tokens]) rfl (by simp [targeted, unmarked])
  | named n e ih =>
    exact plain_one [.name n, .symbol .assign] [] ih (by simp [tokens]) rfl
      (by simp [targeted, unmarked])
  | member p n ih =>
    exact plain_one [] [.symbol .dot, .name n] ih rfl rfl fun _ _ => rfl
  | binary l op r ih ih' | more l r ih ih' | targets l r ih ih' | span l r ih ih'
  | fieldThen l sep r ih ih' => exact plain_pair ih ih' rfl rfl fun _ _ => rfl
  | stride first limit step ih ih' ih'' =>
    have hspan : (Tree.span first limit).PlainTokens := plain_pair ih ih' rfl rfl fun _ _ => rfl
    exact plain_pair hspan ih'' rfl rfl fun _ _ => rfl
  | index p e ih ih' =>
    exact plain_two [] [.symbol .bracketOpen] [.symbol .bracketClose] ih ih' (by simp [tokens]) rfl
      (by simp [targeted, unmarked])
  | apply p a ih ih' =>
    exact plain_two [] [] [] ih ih' (by simp [tokens]) rfl (by simp [targeted, unmarked])
  | invoke p n a ih ih' =>
    exact plain_two [] [.symbol .colon, .name n] [] ih ih' (by simp [tokens]) rfl
      (by simp [targeted, unmarked])
  | keyed k e ih ih' =>
    exact plain_two [.symbol .bracketOpen] [.symbol .bracketClose, .symbol .assign] [] ih ih'
      (by simp [tokens]) rfl (by simp [targeted, unmarked])
  | _ => trivial

end Tree

/-- The indices of the flagged sites. -/
def picked : List Bool → List Site → List Nat
  | f :: fs, site :: rest => (if f then [site.index] else []) ++ picked fs rest
  | _, _ => []

/-- The index of a plain name that a target list begins with. -/
def leading : List Site → List Nat
  | site :: rest => if site.token.isName ∧ isTargetBefore rest then [site.index] else []
  | [] => []

section Vars

variable {site e : Site} {rest ss ss' : List Site} {found : List Nat} {fs fs' : List Bool}
  {every : Bool} {n : Name} {t : Token} {ts : List Token}

theorem picked_append (h : fs.length = ss.length) :
    picked (fs ++ fs') (ss ++ ss') = picked fs ss ++ picked fs' ss' := by
  induction fs generalizing ss with
  | nil =>
    rw [List.length_eq_zero_iff.mp h.symm]
    rfl
  | cons f fs ih =>
    obtain ⟨site, ss, rfl⟩ := List.exists_cons_of_length_eq_add_one h.symm
    rw [List.cons_append, List.cons_append, picked, picked, ih (Nat.succ.inj h), List.append_assoc]

theorem picked_unmarked (ts : List Token) (ss : List Site) : picked (unmarked ts) ss = [] := by
  induction ts generalizing ss with
  | nil => rfl
  | cons t ts ih =>
    cases ss with
    | nil => rfl
    | cons site ss => exact ih ss

theorem targetsAhead_comma (h : site.halts = false) (ht : site.token = .symbol .comma) :
    targetsAhead 0 found (site :: rest) = targetsAhead 0 (found ++ leading rest) rest := by
  rw [Site.halts, Bool.or_eq_false_iff] at h
  rw [targetsAhead.eq_def]
  dsimp only
  rw [if_neg (by simp [h.1]), ht]
  cases rest with
  | nil => rfl
  | cons n rest =>
    simp only [leading, true_and]
    split
    · rfl
    · rw [List.append_nil]

theorem targetsAhead_assign (h : site.halts = false) (ht : site.token = .symbol .assign) :
    targetsAhead 0 found (site :: rest) = found := by
  rw [Site.halts, Bool.or_eq_false_iff] at h
  rw [targetsAhead.eq_def]
  dsimp only
  rw [if_neg (by simp [h.1]), ht]
  rfl

theorem Enclosed.head_ne (h : Enclosed true (t :: ts)) :
    t ≠ .symbol .comma ∧ t ≠ .symbol .assign := by
  generalize hbare : true = bare, hts : t :: ts = us at h
  cases h with
  | nil => cases hts
  | word ht =>
    cases hts
    constructor <;> rintro rfl <;> cases ht
  | cons _ _ hne _ =>
    cases hts
    exact hne hbare.symm
  | group ho =>
    obtain ⟨rfl, -⟩ := List.cons.inj hts
    constructor <;> rintro rfl <;> cases ho

theorem Enclosed.tail (h : Enclosed true (.name n :: ts)) : Enclosed true ts := by
  generalize hts : Token.name n :: ts = us at h
  cases h with
  | nil => cases hts
  | word ht =>
    cases hts
    cases ht
  | cons _ _ _ hrest =>
    cases hts
    exact hrest
  | group ho =>
    obtain ⟨rfl, -⟩ := List.cons.inj hts
    cases ho

/-- What is more than a name does not begin with a plain one. -/
theorem leading_eq_nil (h : Enclosed true ts) (hlength : 2 ≤ ts.length)
    (hss : ss.map (·.token) = ts) : leading (ss ++ rest) = [] := by
  match ss, hss with
  | [], rfl => simp at hlength
  | [site], rfl => simp at hlength
  | site :: site' :: ss, rfl =>
    refine if_neg ?_
    rintro ⟨hname, htarget⟩
    obtain ⟨n, hn⟩ : ∃ n, site.token = .name n := by
      cases htoken : site.token with
      | name n => exact ⟨n, rfl⟩
      | _ =>
        rw [htoken] at hname
        cases hname
    rw [List.map_cons, hn] at h
    obtain ⟨hcomma, hassign⟩ := h.tail.head_ne
    simp [isTargetBefore, startsWith, hcomma, hassign] at htarget

namespace Tree

/-- A variable is a name, or a field with what it is selected from. -/
theorem two_le_of_var (v : Tree .var) : (∃ n, v = .name n) ∨ 2 ≤ v.tokens.length := by
  cases v with
  | name n => exact .inl ⟨n, rfl⟩
  | index p e =>
    obtain ⟨t, ts, htokens, -⟩ := p.leads
    refine .inr ?_
    simp only [tokens, htokens, List.length_append, List.length_cons, List.length_nil]
    omega
  | member p n =>
    obtain ⟨t, ts, htokens, -⟩ := p.leads
    refine .inr ?_
    simp only [tokens, htokens, List.length_append, List.length_cons, List.length_nil]
    omega

theorem two_le_of_call (call : Tree .call) : 2 ≤ call.tokens.length := by
  cases call with
  | apply p a =>
    obtain ⟨t, ts, htokens, -⟩ := p.leads
    obtain ⟨u, us, hargs, -⟩ := a.starting
    simp only [tokens, htokens, hargs, List.length_append, List.length_cons]
    omega
  | invoke p n a =>
    simp only [tokens, List.length_append, List.length_cons]
    omega

theorem wordless_of_sites {kind : Kind} {t : Tree kind} (hss : ss.map (·.token) = t.tokens)
    (hquiet : ss.any Site.halts = false) : t.wordless = true := by
  rw [wordless, ← hss, List.all_map, List.all_eq_true]
  rw [List.any_eq_false] at hquiet
  intro site hsite
  have hhalts := hquiet site hsite
  rw [Site.halts, Bool.or_eq_true, not_or] at hhalts
  simpa using hhalts.2

end Tree

/-- Where no keyword stands, nothing is flagged. -/
theorem Tree.PlainTokens.picked {kind : Kind} {t : Tree kind} (h : t.PlainTokens)
    (hwords : t.wordless = true) (carried : Bool) (ss : List Site) :
    picked (t.targeted every false carried) ss = [] := by
  rw [(h hwords).2 every carried, picked_unmarked]

theorem leading_var (v : Tree .var) (hss : ss.map (·.token) = v.tokens)
    (he : e.token = .symbol .comma ∨ e.token = .symbol .assign)
    (hquiet : ss.any Site.halts = false) :
    leading (ss ++ e :: rest) = picked (v.targeted every true false) ss := by
  rcases v.two_le_of_var with ⟨n, rfl⟩ | hlength
  · obtain ⟨site, ss, rfl, hn, hrest⟩ := List.map_eq_cons_iff.mp hss
    rw [List.map_eq_nil_iff.mp hrest]
    refine if_pos ⟨by rw [hn]; rfl, ?_⟩
    rcases he with he | he <;> simp [isTargetBefore, startsWith, he]
  · rw [leading_eq_nil v.encloses hlength hss]
    have htargeted : v.targeted every true false = v.targeted every false false := by
      cases v with
      | name n => simp [Tree.tokens] at hlength
      | index p e | member p n => rfl
    rw [htargeted, v.plain_of_wordless.picked (Tree.wordless_of_sites hss hquiet)]

/-- A scan through a list of targets finds its plain names, unless something halts it. -/
theorem targetsAhead_vars (every : Bool) (rest : List Site) (he : e.token = .symbol .assign)
    (hstart : e.halts = false) :
    (vs : Tree .vars) → (found : List Nat) → (ss : List Site) → ss.map (·.token) = vs.tokens →
      targetsAhead 0 (found ++ leading (ss ++ e :: rest)) (ss ++ e :: rest) =
        if ss.any Site.halts then [] else found ++ picked (vs.targeted every true false) ss
  | .target v, found, ss, hss => by
    rw [targetsAhead_enclosed v.encloses hss (.inl rfl), targetsAhead_assign hstart he]
    cases hquiet : ss.any Site.halts with
    | true => rfl
    | false => rw [leading_var v hss (.inr he) hquiet]; rfl
  | .targets v vs, found, ss, hss => by
    obtain ⟨ss, ss', rfl, hleft, htail⟩ := List.map_eq_append_iff.mp hss
    obtain ⟨c, ss', rfl, hc, hright⟩ := List.map_eq_cons_iff.mp htail
    rw [List.append_assoc, List.cons_append, List.any_append, List.any_cons,
      targetsAhead_enclosed v.encloses hleft (.inl rfl)]
    cases hquiet : ss.any Site.halts with
    | true => rfl
    | false =>
      cases hhalts : c.halts with
      | true => exact targetsAhead_of_halts hhalts
      | false =>
        have hlength : (v.targeted every true false).length = ss.length := by
          rw [v.targeted_length, ← hleft, List.length_map]
        have hpicked : picked ((Tree.targets v vs).targeted every true false) (ss ++ c :: ss') =
            picked (v.targeted every true false) ss ++ picked (vs.targeted every true false) ss' :=
          picked_append hlength
        rw [hpicked, leading_var v hleft (.inl hc) hquiet, ← List.append_assoc]
        exact (targetsAhead_comma hhalts hc).trans
          (targetsAhead_vars every rest he hstart vs _ ss' hright)

end Vars

end LuaBundle.Lua
