import LuaBundle.Proofs.Lua.Grounds

/-!
# The blocks of a chunk

Where every block of a tree begins and ends, and what single tokens, brackets and blocks contribute
to the depths that the layout gives.
-/
namespace LuaBundle.Lua

/-- A block in a text. -/
structure Body where
  /-- The token that begins the construct of which this is a block. -/
  opener : Nat
  first : Nat
  /-- The token that closes the block. -/
  stop : Nat
  deriving DecidableEq, Repr

def Body.Encloses (g : Body) (i : Nat) : Prop := g.first ≤ i ∧ i < g.stop

instance (g : Body) (i : Nat) : Decidable (g.Encloses i) := inferInstanceAs (Decidable (_ ∧ _))

/-- The number of blocks around a token. -/
def enclosing (gs : List Body) (i : Nat) : Nat := gs.countP (·.Encloses i)

namespace Tree

/-- The blocks inside a tree whose first token has the index `i`; what follows the first block of an
`if` belongs to the construct that begins with the token `opener`. -/
def bodies : {kind : Kind} → Tree kind → (i opener : Nat) → List Body
  | _, .literal _, _, _ | _, .name _, _, _ | _, .noArgs, _, _ | _, .stringArg _, _, _
  | _, .noField, _, _ => []
  | _, .plain p, i, o => p.bodies i o
  | _, .table fs, i, o | _, .tableArg fs, i, o => fs.bodies (i + 1) o
  | _, .binary l _ r, i, o => l.bodies i o ++ r.bodies (i + l.tokens.length + 1) o
  | _, .unary _ e, i, o | _, .paren e, i, o => e.bodies (i + 1) o
  | _, .one e, i, o | _, .item e, i, o => e.bodies i o
  | _, .named _ e, i, o => e.bodies (i + 2) o
  | _, .function ps b, i, o =>
    let first := i + 1 + ps.tokens.length
    ⟨i, first, first + b.tokens.length⟩ :: b.bodies first o
  | _, .read v, i, o | _, .target v, i, o => v.bodies i o
  | _, .result c, i, o | _, .callOnly c, i, o => c.bodies i o
  | _, .index p e, i, o => p.bodies i o ++ e.bodies (i + p.tokens.length + 1) o
  | _, .member p _, i, o => p.bodies i o
  | _, .apply p a, i, o => p.bodies i o ++ a.bodies (i + p.tokens.length) o
  | _, .invoke p _ a, i, o => p.bodies i o ++ a.bodies (i + p.tokens.length + 2) o
  | _, .someArgs es, i, o => es.bodies (i + 1) o
  | _, .more e es, i, o => e.bodies i o ++ es.bodies (i + e.tokens.length + 1) o
  | _, .targets v vs, i, o => v.bodies i o ++ vs.bodies (i + v.tokens.length + 1) o
  | _, .span first limit, i, o => first.bodies i o ++ limit.bodies (i + first.tokens.length + 1) o
  | _, .stride first limit step, i, o =>
    first.bodies i o ++ limit.bodies (i + first.tokens.length + 1) o ++
      step.bodies (i + first.tokens.length + 1 + limit.tokens.length + 1) o
  | _, .keyed k e, i, o => k.bodies (i + 1) o ++ e.bodies (i + 1 + k.tokens.length + 2) o
  | _, .lastField f, i, o => f.bodies i o
  | _, .fieldThen f _ fs, i, o => f.bodies i o ++ fs.bodies (i + f.tokens.length + 1) o
  | _, .semicolon, _, _ | _, .breakLoop, _, _ | _, .gotoLabel _, _, _ | _, .label _, _, _ => []
  | _, .locals _ _, _, _ => []
  | _, .localsInit l ls es, i, o => es.bodies (i + 1 + (localTokens l ls).length + 1) o
  | _, .assign vs es, i, o => vs.bodies i o ++ es.bodies (i + vs.tokens.length + 1) o
  | _, .doEnd b, i, o => ⟨i, i + 1, i + 1 + b.tokens.length⟩ :: b.bodies (i + 1) o
  | _, .whileDo e b, i, o =>
    let first := i + 1 + e.tokens.length + 1
    e.bodies (i + 1) o ++ ⟨i, first, first + b.tokens.length⟩ :: b.bodies first o
  | _, .repeatUntil b e, i, o =>
    ⟨i, i + 1, i + 1 + b.tokens.length⟩ :: b.bodies (i + 1) o ++
      e.bodies (i + 1 + b.tokens.length + 1) o
  | _, .ifThen e b f, i, o =>
    let first := i + 1 + e.tokens.length + 1
    e.bodies (i + 1) o ++ ⟨i, first, first + b.tokens.length⟩ :: b.bodies first o ++
      f.bodies (first + b.tokens.length) i
  | _, .elseIf e b f, i, o =>
    let first := i + 1 + e.tokens.length + 1
    e.bodies (i + 1) o ++ ⟨o, first, first + b.tokens.length⟩ :: b.bodies first o ++
      f.bodies (first + b.tokens.length) o
  | _, .elseEnd b, i, o => ⟨o, i + 1, i + 1 + b.tokens.length⟩ :: b.bodies (i + 1) o
  | _, .forRange _ r b, i, o =>
    let first := i + 3 + r.tokens.length + 1
    r.bodies (i + 3) o ++ ⟨i, first, first + b.tokens.length⟩ :: b.bodies first o
  | _, .forIn n ns es b, i, o =>
    let values := i + 1 + (nameTokens (n :: ns)).length + 1
    let first := values + es.tokens.length + 1
    es.bodies values o ++ ⟨i, first, first + b.tokens.length⟩ :: b.bodies first o
  | _, .localFunction _ ps b, i, o =>
    let first := i + 3 + ps.tokens.length
    ⟨i, first, first + b.tokens.length⟩ :: b.bodies first o
  | _, .functionNamed f ps b, i, o =>
    let first := i + 1 + f.tokens.length + ps.tokens.length
    ⟨i, first, first + b.tokens.length⟩ :: b.bodies first o
  | _, .endIf, _, _ | _, .nothing, _, _ | _, .ret _, _, _ => []
  | _, .retValues es _, i, o => es.bodies (i + 1) o
  | _, .cons s b, i, o => s.bodies i o ++ b.bodies (i + s.tokens.length) o

end Tree

/-! ### Where a tree leaves blocks and brackets -/

namespace Cursor

variable {c : Cursor} {t : Token} {ts : List Token} {level : Nat} {blocks : List Nat}
  {brackets : List Bool}

/-- These blocks and brackets are open, and some headers of loops. -/
def Lies (blocks : List Nat) (brackets : List Bool) (c : Cursor) : Prop :=
  ∃ headers, c.Stands blocks brackets headers

theorem exists_begins (c : Cursor) : ∃ fresh, c.Begins fresh := by
  by_cases h : c.Begins true
  · exact ⟨true, h⟩
  · refine ⟨false, ?_⟩
    simp only [Begins, if_true, not_or] at h
    obtain ⟨hopened, hsemi, hnone⟩ := h
    obtain ⟨p, hp⟩ := Option.ne_none_iff_exists'.mp hnone
    exact ⟨by simpa using hopened, p, hp, fun heq => hsemi (by rw [hp, heq])⟩

namespace Lies

theorem depth (h : c.Lies blocks brackets) : c.nesting.blocks.length = blocks.length := by
  obtain ⟨headers, h⟩ := h
  exact congrArg (fun n => n.blocks.length) h

theorem flat (h : c.Lies blocks brackets) (ht : t.isFlat = true) :
    (c.next t).Lies blocks brackets := by
  obtain ⟨headers, h⟩ := h
  exact ⟨headers, (h.flat ht).stands⟩

theorem flats (h : c.Lies blocks brackets) (hts : ∀ t ∈ ts, t.isFlat = true) :
    (c.after ts).Lies blocks brackets := by
  obtain ⟨headers, h⟩ := h
  exact ⟨headers, h.flats hts⟩

theorem group {b e : Token} (h : c.Lies blocks brackets) (hb : b.opensBracket = true)
    (he : e.closesBracket = true)
    (hin : ∀ c : Cursor, c.Lies blocks (false :: brackets) →
      (c.after ts).Lies blocks (false :: brackets)) :
    (c.after (b :: ts ++ [e])).Lies blocks brackets := by
  obtain ⟨headers, h⟩ := h
  obtain ⟨headers', hts⟩ := hin _ ⟨headers, (h.opened hb).stands⟩
  rw [after_append, after_cons]
  exact ⟨headers', (hts.closed he).stands⟩

theorem opened (h : c.Lies blocks brackets) (ht : t.opensBracket = true) :
    (c.next t).Lies blocks (false :: brackets) := by
  obtain ⟨headers, h⟩ := h
  exact ⟨headers, (h.opened ht).stands⟩

theorem opened_block (h : c.Lies blocks brackets) (ht : t.opensBlock = true) :
    (c.next t).Lies (brackets.length :: blocks) brackets := by
  obtain ⟨headers, h⟩ := h
  exact ⟨headers, (h.opened_block ht).stands⟩

theorem opened_do (h : c.Lies blocks brackets) (hlevel : AtLevel blocks brackets) :
    (c.next (.keyword .doKw)).Lies (brackets.length :: blocks) brackets := by
  obtain ⟨headers, h⟩ := h
  obtain ⟨fresh, hb⟩ := c.exists_begins
  exact ⟨_, (h.opened_do hlevel hb).stands⟩

theorem opened_header (h : c.Lies blocks brackets) (ht : t.opensLoop = true) :
    (c.next t).Lies blocks brackets := by
  obtain ⟨headers, h⟩ := h
  exact ⟨headers + 1, (h.opened_header ht).stands⟩

theorem left (h : c.Lies (level :: blocks) brackets) (ht : t.leavesBlock = true) :
    (c.next t).Lies blocks brackets := by
  obtain ⟨headers, h⟩ := h
  exact ⟨headers, (h.left ht).stands⟩

theorem passed_else (h : c.Lies (level :: blocks) brackets) :
    (c.next (.keyword .elseKw)).Lies (brackets.length :: blocks) brackets := by
  obtain ⟨headers, h⟩ := h
  exact ⟨headers, h.passed_else.stands⟩

theorem parameters (h : c.Lies blocks brackets) (hts : ∀ t ∈ ts, t.isFlat = true) (ps : Params) :
    (c.after (.keyword .functionKw :: ts ++ ps.tokens)).Lies (brackets.length :: blocks)
      brackets := by
  obtain ⟨headers, h⟩ := h
  exact ⟨headers, (h.parameters ts hts ps).stands⟩

end Lies

end Cursor

namespace Tree

open Cursor

def Stays : {kind : Kind} → Tree kind → Prop
  | .stmt, t | .block, t => ∀ (c : Cursor) (blocks : List Nat) (brackets : List Bool),
      c.Lies blocks brackets → AtLevel blocks brackets → (c.after t.tokens).Lies blocks brackets
  | .tail, t => ∀ (c : Cursor) (level : Nat) (blocks : List Nat) (brackets : List Bool),
      c.Lies (level :: blocks) brackets → (c.after t.tokens).Lies blocks brackets
  | .expr, t | .operand, t | .var, t | .call, t | .args, t | .exprs, t | .vars, t | .range, t
  | .field, t | .fields, t => ∀ (c : Cursor) (blocks : List Nat) (brackets : List Bool),
      c.Lies blocks brackets → (c.after t.tokens).Lies blocks brackets

theorem stays {kind : Kind} (t : Tree kind) : t.Stays := by
  have hnested := t.nested
  cases kind with
  | stmt =>
    rintro c blocks brackets ⟨headers, h⟩ hlevel
    obtain ⟨fresh, hb⟩ := c.exists_begins
    exact ⟨_, (hnested c blocks brackets headers fresh h hlevel hb).stands⟩
  | block =>
    rintro c blocks brackets ⟨headers, h⟩ hlevel
    obtain ⟨fresh, hb⟩ := c.exists_begins
    exact ⟨_, hnested c blocks brackets headers fresh h hlevel hb⟩
  | tail =>
    rintro c level blocks brackets ⟨headers, h⟩
    exact ⟨_, (hnested c level blocks brackets headers h).stands⟩
  | field | fields =>
    rintro c blocks brackets ⟨headers, h⟩
    exact ⟨_, hnested c blocks brackets headers h⟩
  | _ =>
    rintro c blocks brackets ⟨headers, h⟩
    exact ⟨_, (hnested c blocks brackets headers h).stands⟩

end Tree

/-! ### Depths -/

def Cursor.depths (c : Cursor) (ts : List Token) : List Nat := (c.sites ts).map (·.mark.depth)

@[simp] theorem Cursor.depths_length (c : Cursor) (ts : List Token) :
    (c.depths ts).length = ts.length := by
  rw [depths, List.length_map, sites_length]

theorem Cursor.depths_append (c : Cursor) (ts us : List Token) :
    c.depths (ts ++ us) = c.depths ts ++ (c.after ts).depths us := by
  rw [depths, sites_append, List.map_append]
  rfl

/-- One of the tokens from the index `i` on closes the block, as deep as its construct begins; that
may be before them, with a token `o` of the depth `d`. -/
def Body.Closed (o : Option Nat) (i d : Nat) (c : Cursor) (ts : List Token) (g : Body) : Prop :=
  ∃ m t n, g.stop = i + m ∧ ts[m]? = some t ∧ t.closesBlock = true ∧ (c.depths ts)[m]? = some n ∧
    (o = some g.opener ∧ n = d ∨ ∃ p, g.opener = i + p ∧ (c.depths ts)[p]? = some n)

/-- The tokens from the index `i` on, which have the blocks `gs` inside and `d` blocks around them:
the depth of each is the number of blocks around it, and each block ends as deep as its construct
begins. -/
structure Leveled (o : Option Nat) (gs : List Body) (i d : Nat) (c : Cursor) (ts : List Token) :
    Prop where
  within : ∀ g ∈ gs, i ≤ g.first ∧ g.stop < i + ts.length
  depth : ∀ m n, (c.depths ts)[m]? = some n → n = d + enclosing gs (i + m)
  closer : ∀ m t, ts[m]? = some t → t.closesBlock = true → ∃ g ∈ gs, g.stop = i + m
  closes : ∀ g ∈ gs, g.Closed o i d c ts

section Enclosing

variable {gs gs' : List Body} {i : Nat}

theorem enclosing_append : enclosing (gs ++ gs') i = enclosing gs i + enclosing gs' i :=
  List.countP_append

theorem enclosing_cons {g : Body} (h : g.Encloses i) : enclosing (g :: gs) i = enclosing gs i + 1 :=
  List.countP_cons_of_pos (by simpa using h)

theorem enclosing_eq_zero (h : ∀ g ∈ gs, ¬ g.Encloses i) : enclosing gs i = 0 :=
  List.countP_eq_zero.mpr (by simpa using h)

end Enclosing

/-- Tokens that open and close no block, wherever they stand. -/
def Token.isSteady (t : Token) : Bool :=
  t.isFlat || t.opensBracket || t == .keyword .functionKw

theorem Token.isSteady_of_flat {t : Token} (h : t.isFlat = true) : t.isSteady = true := by
  rw [isSteady, h]
  rfl

theorem Token.of_isSteady {t : Token} (h : t.isSteady = true) :
    t.closesBlock = false ∧ ∀ c : Cursor, (c.next t).nesting.blocks = c.nesting.blocks := by
  cases t with
  | keyword k => cases k <;> first | exact ⟨rfl, fun _ => rfl⟩ | cases h
  | symbol s => cases s <;> first | exact ⟨rfl, fun _ => rfl⟩ | cases h
  | name _ | number _ | string _ | comment _ => exact ⟨rfl, fun _ => rfl⟩

namespace Leveled

open Cursor

variable {o : Option Nat} {gs gs' : List Body} {i j d : Nat} {c : Cursor} {t e : Token}
  {ts us : List Token} {level : Nat} {blocks : List Nat} {brackets : List Bool}

theorem depths_left {m : Nat} (hm : m < ts.length) :
    (c.depths (ts ++ us))[m]? = (c.depths ts)[m]? := by
  rw [depths_append, List.getElem?_append_left (by rwa [depths_length])]

theorem depths_right (m : Nat) :
    (c.depths (ts ++ us))[ts.length + m]? = ((c.after ts).depths us)[m]? := by
  rw [depths_append, List.getElem?_append_right (by simp), depths_length, Nat.add_sub_cancel_left]

theorem depths_of_some {m n : Nat} (h : (c.depths ts)[m]? = some n) :
    (c.depths (ts ++ us))[m]? = some n := by
  have hm := (List.getElem?_eq_some_iff.mp h).1
  rw [depths_left (by rwa [depths_length] at hm), h]

/-- More tokens may follow. -/
theorem closed_left {g : Body} (h : g.Closed o i d c ts) : g.Closed o i d c (ts ++ us) := by
  obtain ⟨m, t, n, hstop, ht, hclose, hn, hopen⟩ := h
  refine ⟨m, t, n, hstop, ?_, hclose, depths_of_some hn,
    hopen.imp_right fun ⟨p, hp, hdepth⟩ => ⟨p, hp, depths_of_some hdepth⟩⟩
  rw [List.getElem?_append_left (List.getElem?_eq_some_iff.mp ht).1, ht]

/-- More tokens may stand before. -/
theorem closed_right {g : Body} (h : g.Closed o (i + ts.length) d (c.after ts) us) :
    g.Closed o i d c (ts ++ us) := by
  obtain ⟨m, t, n, hstop, ht, hclose, hn, hopen⟩ := h
  refine ⟨ts.length + m, t, n, by omega, ?_, hclose, by rw [depths_right, hn],
    hopen.imp_right fun ⟨p, hp, hdepth⟩ => ⟨ts.length + p, by omega, by rw [depths_right, hdepth]⟩⟩
  rw [List.getElem?_append_right (by omega), Nat.add_sub_cancel_left, ht]

theorem nil : Leveled o [] i d c [] := ⟨by simp, by simp [depths], by simp, by simp⟩

theorem append (h : Leveled o gs i d c ts) (h' : Leveled o gs' j d (c.after ts) us)
    (hj : j = i + ts.length) : Leveled o (gs ++ gs') i d c (ts ++ us) := by
  subst hj
  refine ⟨?_, ?_, ?_, ?_⟩
  · intro g hg
    rw [List.length_append]
    rcases List.mem_append.mp hg with hg | hg
    · have := h.within g hg
      omega
    · have := h'.within g hg
      omega
  · intro m n hn
    rw [enclosing_append]
    by_cases hm : m < ts.length
    · have hright : enclosing gs' (i + m) = 0 := enclosing_eq_zero fun g hg hin => by
        have := (h'.within g hg).1
        have := hin.1
        omega
      rw [hright, Nat.add_zero]
      exact h.depth m n (by rwa [depths_left hm] at hn)
    · obtain ⟨k, rfl⟩ := Nat.exists_eq_add_of_le (Nat.le_of_not_lt hm)
      have hleft : enclosing gs (i + (ts.length + k)) = 0 := enclosing_eq_zero fun g hg hin => by
        have := (h.within g hg).2
        have := hin.2
        omega
      rw [hleft, Nat.zero_add, ← Nat.add_assoc]
      exact h'.depth k n (by rwa [depths_right] at hn)
  · intro m t ht hclose
    by_cases hm : m < ts.length
    · rw [List.getElem?_append_left hm] at ht
      obtain ⟨g, hg, hstop⟩ := h.closer m t ht hclose
      exact ⟨g, List.mem_append_left _ hg, hstop⟩
    · rw [List.getElem?_append_right (by omega)] at ht
      obtain ⟨g, hg, hstop⟩ := h'.closer _ t ht hclose
      exact ⟨g, List.mem_append_right _ hg, by omega⟩
  · intro g hg
    rcases List.mem_append.mp hg with hg | hg
    · exact closed_left (h.closes g hg)
    · exact closed_right (h'.closes g hg)

theorem depths_singleton (hd : c.nesting.blocks.length = d) (ht : t.closesBlock = false) :
    c.depths [t] = [d] := by
  show [c.nesting.depthOf t] = _
  rw [Nesting.depthOf, ht, if_neg (by decide), hd]

theorem one (hd : c.nesting.blocks.length = d) (ht : t.closesBlock = false) :
    Leveled o [] i d c [t] := by
  refine ⟨by simp, fun m n hn => ?_, fun m u hu hclose => ?_, by simp⟩
  · rw [depths_singleton hd ht] at hn
    rw [← List.mem_singleton.mp (List.mem_of_getElem? hn)]
    rfl
  · rw [List.mem_singleton.mp (List.mem_of_getElem? hu), ht] at hclose
    cases hclose

theorem cons (hd : c.nesting.blocks.length = d) (ht : t.closesBlock = false)
    (hts : Leveled o gs (i + 1) d (c.next t) ts) : Leveled o gs i d c (t :: ts) :=
  (one hd ht).append hts rfl

/-- A construct, from its first token on. -/
theorem construct (hd : c.nesting.blocks.length = d) (ht : t.closesBlock = false)
    (h : Leveled (some i) gs i d c (t :: ts)) : Leveled o gs i d c (t :: ts) := by
  refine ⟨h.within, h.depth, h.closer, fun g hg => ?_⟩
  obtain ⟨m, u, n, hstop, hu, hclose, hn, hopen⟩ := h.closes g hg
  refine ⟨m, u, n, hstop, hu, hclose, hn, .inr ?_⟩
  rcases hopen with ⟨hopener, rfl⟩ | hopen
  · refine ⟨0, (Option.some.inj hopener).symm, ?_⟩
    have hhead := c.depths_append [t] ts
    rw [depths_singleton hd ht] at hhead
    show (c.depths ([t] ++ ts))[0]? = _
    rw [hhead]
    rfl
  · exact hopen

/-- A block and the token that closes it. -/
theorem block {opener : Nat} (hafter : (c.after ts).Lies (level :: blocks) brackets)
    (h : Leveled none gs i (blocks.length + 1) c ts) (ht : t.closesBlock = true) :
    Leveled (some opener) (⟨opener, i, i + ts.length⟩ :: gs) i blocks.length c (ts ++ [t]) := by
  have hlast : (ts ++ [t])[ts.length]? = some t := by simp
  have hlevel : (c.depths (ts ++ [t]))[ts.length]? = some blocks.length := by
    have hdepth : (c.after ts).depths [t] = [blocks.length] := by
      show [(c.after ts).nesting.depthOf t] = _
      rw [Nesting.depthOf, if_pos ht, hafter.depth, List.length_cons, Nat.add_sub_cancel]
    have hright : (c.depths (ts ++ [t]))[ts.length + 0]? = _ := depths_right 0
    rwa [hdepth] at hright
  have hcases : ∀ {m : Nat}, m < (ts ++ [t]).length → m < ts.length ∨ m = ts.length := fun hm => by
    rw [List.length_append, List.length_singleton] at hm
    omega
  refine ⟨?_, ?_, ?_, ?_⟩
  · rw [List.length_append, List.length_singleton]
    intro g hg
    rcases List.mem_cons.mp hg with rfl | hg
    · exact ⟨Nat.le_refl i, Nat.lt_succ_self _⟩
    · have := h.within g hg
      omega
  · intro m n hn
    have hlt := (List.getElem?_eq_some_iff.mp hn).1
    rw [depths_length] at hlt
    rcases hcases hlt with hm | rfl
    · have hin : Body.Encloses ⟨opener, i, i + ts.length⟩ (i + m) :=
        ⟨Nat.le_add_right i m, Nat.add_lt_add_left hm i⟩
      rw [h.depth m n (by rwa [depths_left hm] at hn), enclosing_cons hin]
      omega
    · have hout : enclosing (⟨opener, i, i + ts.length⟩ :: gs) (i + ts.length) = 0 := by
        refine enclosing_eq_zero fun g hg hin => ?_
        rcases List.mem_cons.mp hg with rfl | hg
        · exact Nat.lt_irrefl _ hin.2
        · exact Nat.lt_asymm (h.within g hg).2 hin.2
      rw [hlevel] at hn
      rw [hout, Nat.add_zero, Option.some.inj hn]
  · intro m u hu hclose
    rcases hcases (List.getElem?_eq_some_iff.mp hu).1 with hm | rfl
    · rw [List.getElem?_append_left hm] at hu
      obtain ⟨g, hg, hstop⟩ := h.closer m u hu hclose
      exact ⟨g, .tail _ hg, hstop⟩
    · exact ⟨_, List.mem_cons_self, rfl⟩
  · intro g hg
    rcases List.mem_cons.mp hg with rfl | hg
    · exact ⟨ts.length, t, blocks.length, rfl, hlast, ht, hlevel, .inl ⟨rfl, rfl⟩⟩
    · have hclosed : g.Closed none i _ c (ts ++ [t]) := closed_left (h.closes g hg)
      obtain ⟨m, u, n, hstop, hu, hclose, hn, hopen⟩ := hclosed
      exact ⟨m, u, n, hstop, hu, hclose, hn, .inr (hopen.resolve_left (by simp))⟩

/-- What is in brackets, with the brackets. -/
theorem group {b : Token} (h : c.Lies blocks brackets) (hb : b.opensBracket = true)
    (he : e.closesBracket = true)
    (hin : ∀ c : Cursor, c.Lies blocks (false :: brackets) →
      Leveled o gs (i + 1) blocks.length c ts ∧ (c.after ts).Lies blocks (false :: brackets)) :
    Leveled o gs i blocks.length c (b :: ts ++ [e]) := by
  obtain ⟨hts, hafter⟩ := hin (c.next b) (h.opened hb)
  have hopen := cons h.depth (Token.closesBlock_of_opens hb) hts
  have := hopen.append (one (o := o) hafter.depth (Token.closesBlock_of_closes he)) rfl
  rwa [List.append_nil] at this

/-- A flat token and what goes on behind it. -/
theorem connect (hts : Leveled o gs i blocks.length c ts) (h : (c.after ts).Lies blocks brackets)
    (ht : t.isFlat = true) (hj : j = i + ts.length + 1)
    (hus : ∀ c : Cursor, c.Lies blocks brackets → Leveled o gs' j blocks.length c us) :
    Leveled o (gs ++ gs') i blocks.length c (ts ++ t :: us) := by
  subst hj
  exact hts.append (cons h.depth (Token.closesBlock_of_flat ht) (hus _ (h.flat ht))) rfl

/-- Tokens up to the parameters of a function open and close no block. -/
theorem steady (hd : c.nesting.blocks.length = d) (hts : ∀ t ∈ ts, t.isSteady = true) :
    Leveled o [] i d c ts ∧ (c.after ts).nesting.blocks.length = d := by
  induction ts generalizing c i with
  | nil => exact ⟨nil, hd⟩
  | cons t ts ih =>
    obtain ⟨ht, hts⟩ := List.forall_mem_cons.mp hts
    obtain ⟨hclose, hblocks⟩ := Token.of_isSteady ht
    obtain ⟨h, hafter⟩ := ih (c := c.next t) (i := i + 1) (by rw [hblocks, hd]) hts
    exact ⟨cons hd hclose h, hafter⟩

theorem flats (h : c.Lies blocks brackets) (hts : ∀ t ∈ ts, t.isFlat = true) :
    Leveled o [] i blocks.length c ts :=
  (steady h.depth fun t ht => Token.isSteady_of_flat (hts t ht)).1

theorem parameters (hd : c.nesting.blocks.length = d) (hts : ∀ t ∈ ts, t.isFlat = true)
    (ps : Params) : Leveled o [] i d c (.keyword .functionKw :: ts ++ ps.tokens) := by
  obtain ⟨inner, hparams, hinner⟩ := ps.inner_flat
  have hsteady : ∀ t ∈ (.keyword .functionKw :: ts) ++ .symbol .parenOpen :: inner,
      t.isSteady = true := by
    intro t ht
    rcases List.mem_append.mp ht with ht | ht
    · rcases List.mem_cons.mp ht with rfl | ht
      · rfl
      · exact Token.isSteady_of_flat (hts t ht)
    · rcases List.mem_cons.mp ht with rfl | ht
      · rfl
      · exact Token.isSteady_of_flat (hinner t ht)
  obtain ⟨h, hafter⟩ := steady (o := o) (i := i) hd hsteady
  have := h.append (one (o := o) (t := .symbol .parenClose) hafter rfl) rfl
  rwa [List.append_nil, List.append_assoc, List.cons_append, ← List.cons_append, ← hparams] at this

end Leveled

end LuaBundle.Lua
