import LuaBundle.Proofs.Lua.Targets
import LuaBundle.Proofs.Lua.TreeParts

/-!
# What is found in a chunk

The scans from the names of a chunk find the plain names of those lists of targets in which no
keyword stands and to which a scan comes.
-/
namespace LuaBundle.Lua

open Cursor

theorem Token.isWord_of_closesBlock {t : Token} (h : t.closesBlock = true) : t.isWord = true := by
  cases t with
  | keyword k => rfl
  | symbol _ | name _ | number _ | string _ | comment _ => cases h

theorem Local.use_not_mem (l : Local) : Part.use ∉ l.parts := by
  obtain ⟨n, attrib⟩ := l
  cases attrib <;> simp [Local.parts]

theorem use_not_mem_localParts (l : Local) (ls : List Local) : Part.use ∉ localParts l ls := by
  induction ls generalizing l with
  | nil => exact l.use_not_mem
  | cons m ls ih => simp [localParts, l.use_not_mem, ih]

theorem Params.use_not_mem (ps : Params) : Part.use ∉ ps.parts := by
  have hlist : ∀ p ∈ (ps.names.map (fun _ => Part.parameter) ++
      if ps.variadic then [Part.other] else []).intersperse .other, Part.use ≠ p := by
    refine forall_mem_intersperse nofun fun p hp => ?_
    rcases List.mem_append.mp hp with hp | hp
    · obtain ⟨n, -, rfl⟩ := List.mem_map.mp hp
      exact nofun
    · split at hp
      · rw [List.mem_singleton.mp hp]
        exact nofun
      · cases hp
  rw [Params.parts, List.mem_append, List.mem_cons]
  rintro ((h | h) | h)
  · cases h
  · exact hlist _ h rfl
  · cases List.mem_singleton.mp h

theorem FunctionName.use_not_mem (f : FunctionName) : Part.use ∉ f.parts := by
  simp [FunctionName.parts]

/-- The targets found from the name that the tokens begin with, if it is marked. -/
def Cursor.ahead (c : Cursor) : List Token → List Nat
  | .name n :: ts =>
    if c.nesting.starts c.before (.name n) then
      assignmentTargets (c.site (.name n)) ((c.next (.name n)).sites ts)
    else []
  | _ => []

/-- The scans from the names in `ts` find `first` and the flagged tokens. -/
structure Finds (us : List Token) (c : Cursor) (ts : List Token) (ps : List Part) (fs : List Bool)
    (first : List Nat) : Prop where
  parts : ps.length = ts.length
  flags : fs.length = ts.length
  scans : scans ps (c.sites (ts ++ us)) = first ++ picked fs (c.sites ts)

namespace Finds

variable {us ts ts' : List Token} {c : Cursor} {ps ps' : List Part} {fs fs' : List Bool}
  {first : List Nat} {t m o e : Token} {n : Name}

theorem append (h : Finds (ts' ++ us) c ts ps fs first)
    (h' : Finds us (c.after ts) ts' ps' fs' []) :
    Finds us c (ts ++ ts') (ps ++ ps') (fs ++ fs') first where
  parts := by rw [List.length_append, List.length_append, h.parts, h'.parts]
  flags := by rw [List.length_append, List.length_append, h.flags, h'.flags]
  scans := by
    have hlength : fs.length = (c.sites ts).length := by rw [h.flags, Cursor.sites_length]
    rw [List.append_assoc, scans_append, h.scans, h.parts, drop_sites, h'.scans, List.nil_append,
      sites_append, picked_append hlength, List.append_assoc]

/-- Tokens from which nothing is looked for. -/
theorem passed (ts : List Token) (hps : Part.use ∉ ps) (hlength : ps.length = ts.length) :
    Finds us c ts ps (unmarked ts) [] where
  parts := hlength
  flags := unmarked_length ts
  scans := by rw [scans_eq_nil hps, picked_unmarked, List.append_nil]

theorem nil : Finds us c [] [] [] [] := passed [] List.not_mem_nil rfl

theorem other : Finds us c [t] [.other] [false] [] := passed [t] (by simp) rfl

theorem cons (h : Finds us (c.next t) ts ps fs []) :
    Finds us c (t :: ts) (.other :: ps) (false :: fs) [] := append other h

theorem snoc (h : Finds (t :: us) c ts ps fs first) :
    Finds us c (ts ++ [t]) (ps ++ [.other]) (fs ++ [false]) first := append h other

theorem connect (h : Finds (m :: ts' ++ us) c ts ps fs first)
    (h' : Finds us ((c.after ts).next m) ts' ps' fs' []) :
    Finds us c (ts ++ m :: ts') (ps ++ .other :: ps') (fs ++ false :: fs') first :=
  append h (.cons h')

theorem group (h : Finds (e :: us) (c.next o) ts ps fs []) :
    Finds us c (o :: ts ++ [e]) (.other :: ps ++ [.other]) (false :: fs ++ [false]) [] :=
  snoc (.cons h)

theorem use : Finds us c [.name n] [.use] [false] (c.ahead (.name n :: us)) where
  parts := rfl
  flags := rfl
  scans := by
    show (if Part.use = .use ∧ (c.site (.name n)).mark.start = true then _ else []) ++ [] = _ ++ []
    rw [List.append_nil, List.append_nil, ahead]
    simp only [true_and]
    rfl

end Finds

theorem ahead_of_isInert {c : Cursor} {t : Token} {ts : List Token} (h : t.isInert = true) :
    c.ahead (t :: ts) = [] := by
  cases t with
  | name n => cases h
  | _ => rfl

theorem ahead_eq_nil {c : Cursor} {ts : List Token} (us : List Token) (hts : ts ≠ [])
    (h : c.Heads ts false) : c.ahead (ts ++ us) = [] := by
  cases ts with
  | nil => exact absurd rfl hts
  | cons t ts =>
    cases t with
    | name n => exact if_neg (by simp [h (.name n) rfl])
    | _ => rfl

namespace Tree

variable {kind kind₁ kind₂ : Kind}

/-- From the names in an expression nothing is found but from the first. -/
def FindsTokens (t : Tree kind) : Prop :=
  ∀ us (c : Cursor) (blocks : List Nat) (brackets : List Bool) (headers : Nat),
    c.Stands blocks brackets headers → blocks.head?.getD 0 ≤ brackets.length →
      Finds us c t.tokens t.parts (t.targeted false false false) (c.ahead (t.tokens ++ us))

section

variable {us : List Token} {c : Cursor} {blocks : List Nat} {brackets : List Bool} {headers : Nat}
  {t : Tree kind} {l : Tree kind₁} {r : Tree kind₂} {m : Token}

theorem FindsTokens.quiet (ht : t.FindsTokens) (h : c.Stands blocks brackets headers)
    (hlevel : blocks.head?.getD 0 ≤ brackets.length) (hne : t.tokens ≠ [])
    (hhead : c.Heads t.tokens false) :
    Finds us c t.tokens t.parts (t.targeted false false false) [] := by
  have hfinds := ht us c _ _ _ h hlevel
  rwa [ahead_eq_nil us hne hhead] at hfinds

/-- In front of tokens from which nothing is found. -/
theorem FindsTokens.append {ts : List Token} {ps : List Part} {fs : List Bool} (ht : t.FindsTokens)
    (h : c.Stands blocks brackets headers) (hlevel : blocks.head?.getD 0 ≤ brackets.length)
    (hrest : Finds us (c.after t.tokens) ts ps fs []) :
    Finds us c (t.tokens ++ ts) (t.parts ++ ps) (t.targeted false false false ++ fs)
      (c.ahead (t.tokens ++ ts ++ us)) := by
  rw [List.append_assoc]
  exact .append (ht (ts ++ us) c _ _ _ h hlevel) hrest

/-- Behind a token that awaits an operand. -/
theorem FindsTokens.operand (ht : t.FindsTokens) {p : Token}
    (h : (c.next p).Rests blocks brackets headers) (hlevel : blocks.head?.getD 0 ≤ brackets.length)
    (hends : p.endsExpression = false) (hsemi : p ≠ .symbol .semicolon)
    (hstart : ∃ q ts, t.tokens = q :: ts ∧ q.closesBlock = false) :
    Finds us (c.next p) t.tokens t.parts (t.targeted false false false) [] := by
  refine ht.quiet h.stands hlevel ?_ (h.heads hends hsemi hstart)
  obtain ⟨q, ts, htokens, -⟩ := hstart
  rw [htokens]
  exact List.cons_ne_nil q ts

/-- In brackets that are open in its block. -/
theorem FindsTokens.deep (ht : t.FindsTokens) {p : Token} (h : c.Stands blocks brackets headers)
    (hdeep : blocks.head?.getD 0 < brackets.length) (hbefore : c.before = some p)
    (hstart : ∃ q ts, t.tokens = q :: ts ∧ q.closesBlock = false) :
    Finds us c t.tokens t.parts (t.targeted false false false) [] := by
  refine ht.quiet h (Nat.le_of_lt hdeep) ?_ (h.heads_deep hdeep hbefore)
  obtain ⟨q, ts, htokens, -⟩ := hstart
  rw [htokens]
  exact List.cons_ne_nil q ts

theorem finds_pair (hl : l.FindsTokens) (hr : r.FindsTokens)
    (hrest : (c.after l.tokens).Rests blocks brackets (headers - l.strays true))
    (hstart : ∃ p ts, r.tokens = p :: ts ∧ p.closesBlock = false)
    (hflat : m.isFlat = true) (hmends : m.endsExpression = false) (hsemi : m ≠ .symbol .semicolon)
    (h : c.Stands blocks brackets headers) (hlevel : blocks.head?.getD 0 ≤ brackets.length) :
    Finds us c (l.tokens ++ m :: r.tokens) (l.parts ++ .other :: r.parts)
      (l.targeted false false false ++ false :: r.targeted false false false)
      (c.ahead (l.tokens ++ m :: r.tokens ++ us)) := by
  exact hl.append h hlevel (.cons (hr.operand (hrest.stands.flat hflat) hlevel hmends hsemi hstart))

end

end Tree

/-! ### Statements -/

/-- What a scan finds that comes to these tokens. -/
def Cursor.carriedTo (c : Cursor) (carried : Bool) (ts : List Token) : List Nat :=
  if carried then targetsAhead 0 [] (c.sites ts) else []

/-- A place for a statement, with the mark of a name there, and whether a scan comes to it. -/
structure Cursor.Receives (blocks : List Nat) (brackets : List Bool) (headers : Nat)
    (fresh marked carried : Bool) (c : Cursor) : Prop where
  stands : c.Stands blocks brackets headers
  atLevel : AtLevel blocks brackets
  begins : c.Begins fresh
  marks : ∀ n, c.nesting.starts c.before (.name n) = marked
  behind : carried = true → c.Behind

namespace Cursor

variable {c : Cursor} {blocks : List Nat} {brackets : List Bool} {headers : Nat}
  {fresh marked carried : Bool} {t : Token} {ts : List Token}

theorem Opens.receives (h : c.Opens blocks brackets headers) :
    c.Receives (brackets.length :: blocks) brackets headers true true false where
  stands := h.stands
  atLevel := rfl
  begins := h.begins
  marks := fun n => starts_of_begins h.stands rfl h.begins (.name n)
  behind := nofun

theorem carriedTo_of_halts (h : carried = true → (c.site t).halts = true) :
    c.carriedTo carried (t :: ts) = [] := by
  unfold carriedTo
  split
  · exact targetsAhead_of_halts (h ‹_›)
  · rfl

theorem carriedTo_of_isWord (h : t.isWord = true) : c.carriedTo carried (t :: ts) = [] :=
  carriedTo_of_halts fun _ => by rw [Site.halts, site_token, h, Bool.or_true]

theorem Receives.level (h : c.Receives blocks brackets headers fresh marked carried) :
    blocks.head?.getD 0 ≤ brackets.length := Nat.le_of_eq h.atLevel.symm

theorem Receives.marked_of_carried (h : c.Receives blocks brackets headers fresh marked carried)
    (hcarried : carried = true) : marked = true := by
  rw [← h.marks []]
  exact (h.behind hcarried).starts h.stands h.atLevel rfl rfl

end Cursor

namespace Tree

variable {kind : Kind} {c : Cursor} {us : List Token} {blocks : List Nat} {brackets : List Bool}
  {headers : Nat} {fresh marked carried : Bool} {s : Tree .stmt} {b : Tree .block} {e : Token}

/-- What the scans that come to a statement or begin in it find there and behind it. -/
def FindsStatement (s : Tree .stmt) : Prop :=
  ∀ us (c : Cursor) (blocks : List Nat) (brackets : List Bool) (headers : Nat)
    (fresh marked carried : Bool), c.Receives blocks brackets headers fresh marked carried →
      c.carriedTo carried (s.tokens ++ us) ++ scans s.parts (c.sites (s.tokens ++ us)) =
        picked (s.targeted false marked carried) (c.sites s.tokens) ++
          (c.after s.tokens).carriedTo (s.carries marked carried) us

def FindsBlock (b : Tree .block) : Prop :=
  ∀ us (c : Cursor) (blocks : List Nat) (brackets : List Bool) (headers : Nat)
    (fresh marked carried : Bool), c.Receives blocks brackets headers fresh marked carried →
      (∀ t ∈ us.head?, t.isWord = true) →
        c.carriedTo carried (b.tokens ++ us) ++ scans b.parts (c.sites (b.tokens ++ us)) =
          picked (b.targeted false marked carried) (c.sites b.tokens)

/-- What the scans find from the names in a tree. -/
def Found : {kind : Kind} → Tree kind → Prop
  | .field, t | .fields, t =>
    ∀ us (c : Cursor) (blocks : List Nat) (brackets : List Bool) (headers : Nat) (p : Token),
      c.Stands blocks brackets headers → blocks.head?.getD 0 < brackets.length →
        c.before = some p → Finds us c t.tokens t.parts (t.targeted false false false) []
  | .tail, t =>
    ∀ us (c : Cursor) (blocks : List Nat) (brackets : List Bool) (headers : Nat),
      c.Stands (brackets.length :: blocks) brackets headers →
        blocks.head?.getD 0 ≤ brackets.length →
          Finds us c t.tokens t.parts (t.targeted false false false) []
  | .stmt, t => t.FindsStatement
  | .block, t => t.FindsBlock
  | .expr, t | .operand, t | .var, t | .call, t | .args, t | .exprs, t | .vars, t | .range, t =>
    t.FindsTokens

theorem marksNext_eq (h : ¬ ∃ n, s = .label n) : s.marksNext = !s.endsInAttribute := by
  cases s <;> first | rfl | exact absurd ⟨_, rfl⟩ h

/-- A name behind a statement is not marked if it follows the colons of a label or an attribute. -/
theorem marks_after (hrest : (c.after s.tokens).Rests blocks brackets headers)
    (hlevel : AtLevel blocks brackets) (n : Name) :
    (c.after s.tokens).nesting.starts (c.after s.tokens).before (.name n) = s.marksNext := by
  have hbegins := begins_of_concludes hrest (s.ended.before_after c)
  by_cases hlabel : ∃ m, s = .label m
  · obtain ⟨m, rfl⟩ := hlabel
    exact Nesting.starts_of_joins (p := .symbol .doubleColon) (by rw [hrest]) rfl
  · rw [marksNext_eq hlabel]
    rcases s.finishes.resolve_left hlabel with ⟨hsemi, hattrib⟩ | ⟨-, hattrib, hends⟩ |
      ⟨-, hattrib, hends⟩
    · rw [hsemi] at hbegins
      rw [hattrib, starts_of_begins hrest.stands hlevel hbegins]
      rfl
    · rw [hattrib, (behind_of_rests hrest hends).starts hrest.stands hlevel rfl rfl]
      rfl
    · obtain ⟨q, hq, rfl⟩ := hends.before_after c
      rw [hattrib, hq, Nesting.starts_of_joins (by rw [hrest]) rfl]
      rfl

/-- The place behind a statement. -/
theorem receives_after (s : Tree .stmt)
    (h : c.Receives blocks brackets headers fresh marked carried) :
    (c.after s.tokens).Receives blocks brackets (headers - s.strays fresh) s.isSemicolon s.marksNext
      (s.carries marked carried) := by
  have hrest := s.nested c _ _ _ _ h.stands h.atLevel h.begins
  refine ⟨hrest.stands, h.atLevel, begins_of_concludes hrest (s.ended.before_after c),
    marks_after hrest h.atLevel, fun hcarries => ?_⟩
  cases s with
  | callOnly call => exact behind_of_rests hrest call.ended
  | _ => cases hcarries

theorem found_block (us : List Token) (hb : b.Found) (h : c.Opens blocks brackets headers)
    (hus : ∀ t ∈ us.head?, t.isWord = true) :
    Finds us c b.tokens b.parts (b.targeted false true false) [] :=
  ⟨b.parts_length, b.targeted_length _ _ _, hb us c _ _ _ _ _ _ h.receives hus⟩

/-- A block up to the keyword that closes it. -/
theorem found_body (hb : b.Found) (h : c.Opens blocks brackets headers) (he : e.isWord = true) :
    Finds us c (b.tokens ++ [e]) (b.parts ++ [.other]) (b.targeted false true false ++ [false])
      [] := by
  refine .snoc (found_block _ hb h fun t ht => ?_)
  rwa [← Option.some.inj ht]

/-- From a condition to the end of the `if`. -/
theorem found_branch {e : Tree .expr} {f : Tree .tail} (he : e.Found) (hb : b.Found) (hf : f.Found)
    {w : Token} (h : (c.next w).Rests blocks brackets headers)
    (hlevel : blocks.head?.getD 0 ≤ brackets.length) (hends : w.endsExpression = false)
    (hsemi : w ≠ .symbol .semicolon) :
    Finds us (c.next w) (e.tokens ++ .keyword .thenKw :: b.tokens ++ f.tokens)
      (e.parts ++ .other :: b.parts ++ f.parts)
      (e.targeted false false false ++ false :: b.targeted false true false ++
        f.targeted false false false) [] := by
  have hthen := (e.nested _ _ _ _ h.stands).stands.opened_block (t := .keyword .thenKw) rfl
  have hafter := b.nested _ _ _ _ true hthen.stands rfl hthen.begins
  obtain ⟨p, ts, htokens, hp⟩ := f.head_tail
  have hblock := found_block (f.tokens ++ us) hb hthen fun t ht => by
    rw [htokens] at ht
    rw [← Option.some.inj ht]
    exact Token.isWord_of_closesBlock hp
  refine .append (.connect (he.operand h hlevel hends hsemi e.starting) hblock) ?_
  rw [after_append]
  exact hf us _ _ _ _ hafter hlevel

/-- From the range of a loop to its end. -/
theorem found_loop {t : Tree kind} {p : Token} {headers' : Nat} (us : List Token)
    (ht : t.FindsTokens) (hb : b.Found)
    (hrest : ((c.next p).after t.tokens).Rests blocks brackets headers')
    (hends : EndsExpression t.tokens) (hstart : ∃ q ts, t.tokens = q :: ts ∧ q.closesBlock = false)
    (h : (c.next p).Rests blocks brackets headers) (hlevel : AtLevel blocks brackets)
    (hp : p.endsExpression = false) (hsemi : p ≠ .symbol .semicolon) :
    Finds us (c.next p) (t.tokens ++ .keyword .doKw :: b.tokens ++ [.keyword .endKw])
      (t.parts ++ .other :: b.parts ++ [.other])
      (t.targeted false false false ++ false :: b.targeted false true false ++ [false]) [] := by
  have hdo := hrest.stands.opened_do hlevel (begins_of_ends hrest (hends.before_after _))
  rw [List.append_assoc, List.append_assoc, List.append_assoc]
  exact .connect (ht.operand h (Nat.le_of_eq hlevel.symm) hp hsemi hstart) (found_body hb hdo rfl)

/-- The parameters and the body of a function. -/
theorem found_function {ps : Params} (ts : List Token) (front : List Part) (hb : b.Found)
    (hfront : Part.use ∉ front) (hlength : front.length = ts.length)
    (h : (c.after (ts ++ ps.tokens)).Opens blocks brackets headers) :
    Finds us c (ts ++ ps.tokens ++ b.tokens ++ [.keyword .endKw])
      (front ++ ps.parts ++ b.parts ++ [.other])
      (unmarked ts ++ unmarked ps.tokens ++ b.targeted false true false ++ [false]) [] := by
  have hheader : ∀ us, Finds us c (ts ++ ps.tokens) (front ++ ps.parts)
      (unmarked ts ++ unmarked ps.tokens) [] := fun us =>
    .append (.passed ts hfront hlength) (.passed _ ps.use_not_mem ps.parts_length)
  rw [List.append_assoc _ b.tokens, List.append_assoc _ b.parts, List.append_assoc _ (targeted ..)]
  exact .append (hheader _) (found_body hb h rfl)

/-- A statement that no scan runs through. -/
theorem found_of_finds (hcarries : ∀ marked carried, s.carries marked carried = false)
    (hhead : ∃ p ts, s.tokens = p :: ts ∧
      (p.isWord = true ∨ p = .symbol .semicolon ∨ p = .symbol .doubleColon))
    (h : ∀ us (c : Cursor) (blocks : List Nat) (brackets : List Bool) (headers : Nat)
      (fresh marked carried : Bool), c.Receives blocks brackets headers fresh marked carried →
        Finds us c s.tokens s.parts (s.targeted false marked carried) []) :
    s.Found := by
  intro us c blocks brackets headers fresh marked carried hplace
  obtain ⟨p, ts, htokens, hp⟩ := hhead
  have hscans := (h us c _ _ _ _ marked carried hplace).scans
  have hcarried : c.carriedTo carried (s.tokens ++ us) = [] := by
    rw [htokens]
    refine carriedTo_of_halts fun hcarried => ?_
    rw [Site.halts, Bool.or_eq_true]
    rcases hp with hword | rfl | rfl
    · exact .inr hword
    · exact .inl ((hplace.behind hcarried).starts hplace.stands hplace.atLevel rfl rfl)
    · exact .inl ((hplace.behind hcarried).starts hplace.stands hplace.atLevel rfl rfl)
  rw [hcarried, hscans, hcarries]
  exact (List.append_nil _).symm

theorem found_cons (hs : s.Found) (hb : b.Found) : (Tree.cons s b).Found := by
  intro us c blocks brackets headers fresh marked carried h hus
  have hfirst := hs (b.tokens ++ us) c _ _ _ _ _ _ h
  have hrest := hb us _ _ _ _ _ _ _ (receives_after s h) hus
  have hpicked : picked ((Tree.cons s b).targeted false marked carried)
      (c.sites (Tree.cons s b).tokens) =
        picked (s.targeted false marked carried) (c.sites s.tokens) ++
          picked (b.targeted false s.marksNext (s.carries marked carried))
            ((c.after s.tokens).sites b.tokens) := by
    rw [tokens, targeted, sites_append, picked_append]
    rw [s.targeted_length, Cursor.sites_length]
  rw [hpicked, ← hrest, ← List.append_assoc, ← hfirst, tokens, parts, scans_append, s.parts_length,
    List.append_assoc, List.append_assoc, drop_sites]

end Tree

/-! ### Lists of targets -/

/-- As a variable or a call begins. -/
def Led (ts : List Token) : Prop :=
  ∃ p us, ts = p :: us ∧ (p = .symbol .parenOpen ∨ ∃ n, p = .name n)

/-- The same place, as one behind a comma. -/
def Cursor.listed (c : Cursor) : Cursor := ⟨c.nesting.calm, some (.symbol .comma), c.index⟩

section Listed

variable {c : Cursor} {us ts ws : List Token} {blocks : List Nat} {brackets : List Bool}
  {headers : Nat} {fresh marked carried : Bool} {p : Token} {kind : Kind}

theorem after_listed (hts : Led ts) : c.listed.after ts = c.after ts := by
  obtain ⟨p, us, rfl, rfl | ⟨n, rfl⟩⟩ := hts <;> rfl

theorem picked_listed (hts : Led ts) (fs : List Bool) :
    picked fs (c.listed.sites ts) = picked fs (c.sites ts) := by
  obtain ⟨p, us, rfl, rfl | ⟨n, rfl⟩⟩ := hts <;> cases fs <;> rfl

theorem halts_listed (hp : p = .symbol .parenOpen ∨ ∃ n, p = .name n) :
    (c.listed.site p).halts = false := by
  have hstart : (c.listed.site p).mark.start = false := by
    refine Nesting.starts_of_joins rfl ?_
    rcases hp with rfl | ⟨n, rfl⟩ <;> rfl
  rw [Site.halts, hstart]
  rcases hp with rfl | ⟨n, rfl⟩ <;> rfl

/-- Where a scan comes to a variable or a call, or begins with its name. -/
theorem scan_reached (h : c.Receives blocks brackets headers fresh marked carried) (hts : Led ts) :
    c.carriedTo carried (ts ++ us) ++ c.ahead (ts ++ us) =
      if Tree.reached ts marked carried then
        targetsAhead 0 (leading (c.listed.sites (ts ++ us))) (c.listed.sites (ts ++ us))
      else [] := by
  obtain ⟨p, ts, rfl, rfl | ⟨n, rfl⟩⟩ := hts
  · -- only a scan that goes on comes to a parenthesis
    have hlisted : targetsAhead 0 (leading (c.listed.sites (.symbol .parenOpen :: (ts ++ us))))
        (c.listed.sites (.symbol .parenOpen :: (ts ++ us))) =
          targetsAhead 1 [] ((c.next (.symbol .parenOpen)).sites (ts ++ us)) :=
      targetsAhead_open (halts_listed (.inl rfl)) rfl
    rw [List.cons_append, hlisted, carriedTo]
    show _ ++ [] = if carried = true then _ else _
    rw [List.append_nil]
    split
    · have hstart := (h.behind ‹_›).goes_on (t := .symbol .parenOpen) rfl
      refine targetsAhead_open ?_ rfl
      rw [Site.halts, Bool.or_eq_false_iff]
      exact ⟨hstart, rfl⟩
    · rfl
  · have hcarried : c.carriedTo carried (.name n :: (ts ++ us)) = [] := by
      refine carriedTo_of_halts fun hcarried => ?_
      have hstart : (c.site (.name n)).mark.start = true :=
        (h.marks n).trans (h.marked_of_carried hcarried)
      rw [Site.halts, hstart, Bool.true_or]
    have hleading : leading (c.listed.sites (.name n :: (ts ++ us))) =
        if isTargetBefore ((c.next (.name n)).sites (ts ++ us)) then [c.index] else [] := by
      show (if (Token.name n).isName = true ∧ isTargetBefore _ = true then _ else _) = _
      simp only [Token.isName, true_and]
      rfl
    have hlisted : targetsAhead 0 (leading (c.listed.sites (.name n :: (ts ++ us))))
        (c.listed.sites (.name n :: (ts ++ us))) =
          assignmentTargets (c.site (.name n)) ((c.next (.name n)).sites (ts ++ us)) := by
      rw [hleading]
      exact targetsAhead_pass (halts_listed (.inr ⟨n, rfl⟩)) rfl rfl (.inr (by simp))
    rw [List.cons_append, hcarried, hlisted, ahead, h.marks n]
    rfl

theorem Cursor.Stands.fit (h : c.Stands blocks brackets headers)
    (hlevel : blocks.head?.getD 0 ≤ brackets.length) : c.nesting.Fit := by
  have hblocks : c.nesting.blocks = blocks := congrArg Nesting.blocks h
  have hbrackets : c.nesting.brackets = brackets := congrArg Nesting.brackets h
  exact ⟨congrArg Nesting.expectParams h, by rwa [hblocks, hbrackets]⟩

/-- A scan halts in a phrase exactly if a keyword stands in it. -/
theorem halts_iff_word {t : Tree kind} (h : c.Stands blocks brackets headers)
    (hlevel : blocks.head?.getD 0 ≤ brackets.length)
    (hphrase : t.wordless = true → Phrase t.tokens) :
    (c.listed.sites t.tokens).any Site.halts = !t.wordless := by
  have htokens := c.listed.map_token_sites t.tokens
  cases hwords : t.wordless with
  | true =>
    obtain ⟨q, -, hjoined⟩ := hphrase hwords
    have hfit : c.listed.nesting.Fit := (h.fit hlevel).of_calm rfl
    have hquiet : Quiet c.listed t.tokens :=
      quiet_of_joined (hjoined (.symbol .comma) rfl (by decide)) hfit rfl rfl
    rw [Bool.not_true, List.any_eq_false]
    intro site hsite
    have htoken : site.token ∈ t.tokens := by
      rw [← htokens]
      exact List.mem_map_of_mem hsite
    have hword := List.all_eq_true.mp hwords _ htoken
    rw [Site.halts, hquiet site hsite, Bool.false_or]
    simpa using hword
  | false =>
    obtain ⟨w, hw, hword⟩ := List.all_eq_false.mp hwords
    rw [← htokens] at hw
    obtain ⟨site, hsite, rfl⟩ := List.mem_map.mp hw
    rw [Bool.not_false, List.any_eq_true]
    refine ⟨site, hsite, ?_⟩
    have hhalts : site.token.isWord = true := by simpa using hword
    rw [Site.halts, hhalts, Bool.or_true]

end Listed

namespace Tree

variable {c : Cursor} {us ws : List Token} {blocks : List Nat} {brackets : List Bool}
  {headers : Nat} {fresh marked carried : Bool}

/-- A list of targets that a scan comes to, up to its equals sign. -/
theorem scan_targets (vs : Tree .vars)
    (h : c.Receives blocks brackets headers fresh marked carried) :
    c.carriedTo carried (vs.tokens ++ .symbol .assign :: ws) ++
        c.ahead (vs.tokens ++ .symbol .assign :: ws) =
      if vs.wordless && reached vs.tokens marked carried then
        picked (vs.targeted false true false) (c.sites vs.tokens) else [] := by
  have hhalts := halts_iff_word (t := vs) h.stands h.level fun hwords =>
    vs.shaped (vs.plain_of_wordless hwords).1
  have hassign : ((c.after vs.tokens).site (.symbol .assign)).halts = false := by
    have hstart := (behind_of_rests (vs.nested c _ _ _ h.stands) vs.ended).goes_on
      (t := .symbol .assign) rfl
    rw [Site.halts, Bool.or_eq_false_iff]
    exact ⟨hstart, rfl⟩
  have hscan := targetsAhead_vars false (((c.after vs.tokens).next (.symbol .assign)).sites ws) rfl
    hassign vs [] _ (c.listed.map_token_sites vs.tokens)
  rw [List.nil_append, List.nil_append, hhalts, picked_listed vs.leads] at hscan
  rw [scan_reached h vs.leads, sites_append, after_listed vs.leads, Cursor.sites, hscan]
  cases vs.wordless <;> cases reached vs.tokens marked carried <;> rfl

theorem found_assign {vs : Tree .vars} {es : Tree .exprs} (hvs : vs.Found) (hes : es.Found) :
    (Tree.assign vs es).Found := by
  intro us c blocks brackets headers fresh marked carried h
  have hscans : scans (Tree.assign vs es).parts (c.sites ((Tree.assign vs es).tokens ++ us)) =
      c.ahead ((Tree.assign vs es).tokens ++ us) ++ picked (vs.targeted false false false ++
        false :: es.targeted false false false) (c.sites (Tree.assign vs es).tokens) :=
    (finds_pair hvs hes (vs.nested c _ _ _ h.stands) es.starting rfl rfl (by decide) h.stands
      h.level).scans
  have hsplit : (Tree.assign vs es).tokens ++ us =
      vs.tokens ++ .symbol .assign :: (es.tokens ++ us) := List.append_assoc ..
  have hpicked : ∀ found, picked (vs.targeted false found false ++
      false :: es.targeted false false false) (c.sites (Tree.assign vs es).tokens) =
        picked (vs.targeted false found false) (c.sites vs.tokens) ++
          picked (false :: es.targeted false false false)
            ((c.after vs.tokens).sites (.symbol .assign :: es.tokens)) := by
    intro found
    rw [tokens, sites_append, picked_append]
    rw [vs.targeted_length, Cursor.sites_length]
  have htargeted : (Tree.assign vs es).targeted false marked carried =
      vs.targeted false (vs.wordless && reached vs.tokens marked carried) false ++
        false :: es.targeted false false false := rfl
  rw [hscans, hsplit, ← List.append_assoc, scan_targets vs h, hpicked, htargeted, hpicked]
  show _ = _ ++ []
  rw [List.append_nil, ← List.append_assoc]
  cases hwords : vs.wordless with
  | false => rfl
  | true =>
    rw [vs.plain_of_wordless.picked hwords, List.append_nil, Bool.true_and]
    cases reached vs.tokens marked carried with
    | true => rfl
    | false => rw [vs.plain_of_wordless.picked hwords]; rfl

/-- A call that a scan comes to. -/
theorem scan_call (call : Tree .call)
    (h : c.Receives blocks brackets headers fresh marked carried) :
    c.carriedTo carried (call.tokens ++ us) ++ c.ahead (call.tokens ++ us) =
      (c.after call.tokens).carriedTo (call.wordless && reached call.tokens marked carried) us := by
  have hhalts := halts_iff_word (t := call) h.stands h.level fun hwords =>
    call.shaped (call.plain_of_wordless hwords).1
  have htokens := c.listed.map_token_sites call.tokens
  rw [scan_reached h call.leads, sites_append, after_listed call.leads,
    leading_eq_nil call.encloses call.two_le_of_call htokens,
    targetsAhead_enclosed call.encloses htokens (.inl rfl), hhalts, carriedTo]
  cases call.wordless <;> cases reached call.tokens marked carried <;> rfl

theorem found_call {call : Tree .call} (hcall : call.Found) : (Tree.callOnly call).Found := by
  intro us c blocks brackets headers fresh marked carried h
  have hscans : scans (Tree.callOnly call).parts (c.sites ((Tree.callOnly call).tokens ++ us)) =
      c.ahead (call.tokens ++ us) ++
        picked (call.targeted false false false) (c.sites call.tokens) :=
    (hcall us c _ _ _ h.stands h.level).scans
  rw [hscans, ← List.append_assoc]
  refine (congrArg (· ++ _) (scan_call call h)).trans ?_
  show _ = picked (call.targeted false false false) (c.sites call.tokens) ++
    (c.after call.tokens).carriedTo (call.wordless && reached call.tokens marked carried) us
  cases hwords : call.wordless with
  | true => rw [call.plain_of_wordless.picked hwords, List.append_nil, List.nil_append]
  | false => exact (List.append_nil _).symm

/-! ### Every tree -/

section

variable {kind : Kind} {p : Tree .operand} {e k : Tree .expr} {a : Tree .args} {b : Tree .block}

theorem finds_index (hp : p.FindsTokens) (he : e.FindsTokens) : (Tree.index p e).FindsTokens := by
  intro us c blocks brackets headers h hlevel
  have hopen := (p.nested _ _ _ _ h).stands.opened (t := .symbol .bracketOpen) rfl
  rw [tokens, parts, targeted, List.append_assoc p.tokens, List.append_assoc p.parts,
    List.append_assoc (p.targeted ..)]
  exact hp.append h hlevel
    (.group (he.operand hopen (Nat.le_succ_of_le hlevel) rfl (by decide) e.starting))

theorem finds_apply (hp : p.FindsTokens) (ha : a.FindsTokens) : (Tree.apply p a).FindsTokens := by
  intro us c blocks brackets headers h hlevel
  have hrest := p.nested _ _ _ _ h
  obtain ⟨t, ts, hargs, -, -⟩ := a.starting
  have hheads := (behind_of_rests hrest p.ended).heads_args a
  exact hp.append h hlevel (ha.quiet hrest.stands hlevel (by simp [hargs]) hheads)

theorem finds_invoke (n : Name) (hp : p.FindsTokens) (ha : a.FindsTokens) :
    (Tree.invoke p n a).FindsTokens := by
  intro us c blocks brackets headers h hlevel
  have hcolon := (p.nested _ _ _ _ h).stands.flat (t := .symbol .colon) rfl
  have hname := hcolon.stands.flat (t := .name n) rfl
  obtain ⟨t, ts, hargs, -, -⟩ := a.starting
  have hheads := (hname.behind rfl).heads_args a
  exact hp.append h hlevel
    (.cons (.cons (ha.quiet hname.stands hlevel (by simp [hargs]) hheads)))

theorem found_named (n : Name) (he : e.FindsTokens) : (Tree.named n e).Found := by
  intro us c blocks brackets headers p h hdeep hbefore
  have hassign := (h.flat (t := .name n) rfl).stands.flat (t := .symbol .assign) rfl
  have hkey : ∀ us, Finds us c [.name n] [.use] [false] [] := by
    intro us
    have huse : Finds us c [.name n] [.use] [false] (c.ahead ([.name n] ++ us)) := .use
    rwa [ahead_eq_nil us (List.cons_ne_nil _ _) (h.heads_deep hdeep hbefore)] at huse
  exact .append (hkey _) (.cons (he.deep hassign.stands hdeep rfl e.starting))

theorem found_keyed (hk : k.FindsTokens) (he : e.FindsTokens) : (Tree.keyed k e).Found := by
  intro us c blocks brackets headers p h hdeep hbefore
  have hopen := h.opened (t := .symbol .bracketOpen) rfl
  have hclose := (k.nested _ _ _ _ hopen.stands).stands.closed (t := .symbol .bracketClose) rfl
  have hassign := hclose.stands.flat (t := .symbol .assign) rfl
  exact .append
    (.cons (hk.operand hopen (Nat.le_succ_of_le (Nat.le_of_lt hdeep)) rfl (by decide) k.starting))
    (.cons (.cons (he.deep hassign.stands hdeep rfl e.starting)))

theorem found_localsInit {es : Tree .exprs} (l : Local) (ls : List Local) (hes : es.FindsTokens) :
    (Tree.localsInit l ls es).Found := by
  refine found_of_finds (fun _ _ => rfl) ⟨_, _, rfl, .inl rfl⟩ fun us c _ _ _ _ _ _ h => ?_
  have hlocals := (h.stands.flat (t := .keyword .localKw) rfl).flats (localTokens_flat l ls)
  have hassign := hlocals.stands.flat (t := .symbol .assign) rfl
  have hnames : ∀ us, Finds us c (.keyword .localKw :: localTokens l ls) (.other :: localParts l ls)
      (unmarked (.keyword .localKw :: localTokens l ls)) [] := fun us =>
    .passed _ (by simp [use_not_mem_localParts]) (by simp [localParts_length])
  exact .connect (hnames _) (hes.operand hassign h.level rfl (by decide) es.starting)

theorem found_repeat (hb : b.Found) (he : e.FindsTokens) : (Tree.repeatUntil b e).Found := by
  refine found_of_finds (fun _ _ => rfl) ⟨_, _, rfl, .inl rfl⟩ fun us c _ _ _ _ _ _ h => ?_
  have hrepeat := h.stands.opened_block (t := .keyword .repeatKw) rfl
  have hafter := b.nested _ _ _ _ true hrepeat.stands rfl hrepeat.begins
  have huntil := hafter.left (t := .keyword .untilKw) rfl
  have hblock : Finds (.keyword .untilKw :: e.tokens ++ us) (c.next (.keyword .repeatKw)) b.tokens
      b.parts (b.targeted false true false) [] := by
    refine found_block _ hb hrepeat fun t ht => ?_
    rw [← Option.some.inj ht]
    rfl
  exact .cons (.connect hblock (he.operand huntil h.level rfl (by decide) e.starting))

theorem found_forRange {r : Tree .range} (n : Name) (hr : r.FindsTokens) (hb : b.Found) :
    (Tree.forRange n r b).Found := by
  refine found_of_finds (fun _ _ => rfl) ⟨_, _, rfl, .inl rfl⟩ fun us c _ _ _ _ _ _ h => ?_
  have hfor := h.stands.opened_header (t := .keyword .forKw) rfl
  have hassign := (hfor.stands.flat (t := .name n) rfl).stands.flat (t := .symbol .assign) rfl
  have hnames : ∀ us, Finds us c [.keyword .forKw, .name n] [.other, .localName]
      [false, false] [] := fun us => .passed [.keyword .forKw, .name n] (by simp) rfl
  have hloop := found_loop us hr hb (r.nested _ _ _ _ hassign.stands) r.ended r.starting
    hassign h.atLevel rfl (by decide)
  have hall := Finds.append (hnames _) (.cons hloop)
  exact hall

theorem found_forIn {es : Tree .exprs} (n : Name) (ns : List Name) (hes : es.FindsTokens)
    (hb : b.Found) : (Tree.forIn n ns es b).Found := by
  refine found_of_finds (fun _ _ => rfl) ⟨_, _, rfl, .inl rfl⟩ fun us c _ _ _ _ _ _ h => ?_
  have hfor := h.stands.opened_header (t := .keyword .forKw) rfl
  have hnames := hfor.flats (nameTokens_flat (n :: ns))
  have hin := hnames.stands.flat (t := .keyword .inKw) rfl
  have hloop := found_loop us hes hb (es.nested _ _ _ _ hin.stands) es.ended es.starting hin
    h.atLevel rfl (by decide)
  have hlength : (localParts ⟨n, none⟩ (ns.map (⟨·, none⟩))).length =
      (nameTokens (n :: ns)).length := by rw [nameTokens_eq, localParts_length]
  have hheader : ∀ us, Finds us c (.keyword .forKw :: nameTokens (n :: ns))
      (.other :: localParts ⟨n, none⟩ (ns.map (⟨·, none⟩)))
      (unmarked (.keyword .forKw :: nameTokens (n :: ns))) [] := fun us =>
    .passed _ (by simp [use_not_mem_localParts]) (by simp [hlength])
  have hall := Finds.append (hheader _) (.cons hloop)
  simpa [tokens, parts, targeted, unmarked] using hall

theorem found_nothing : Tree.nothing.Found := by
  intro us c blocks brackets headers fresh marked carried h hus
  have hcarried : c.carriedTo carried us = [] := by
    cases us with
    | nil => exact ite_self _
    | cons t us => exact carriedTo_of_isWord (hus t rfl)
  exact (congrArg (· ++ _) hcarried).trans rfl

/-- The last statement of a block. -/
theorem found_last (hhead : b.tokens.head? = some (.keyword .returnKw))
    (h : ∀ us (c : Cursor) (blocks : List Nat) (brackets : List Bool) (headers : Nat)
      (fresh marked carried : Bool), c.Receives blocks brackets headers fresh marked carried →
        Finds us c b.tokens b.parts (b.targeted false marked carried) []) :
    b.Found := by
  intro us c blocks brackets headers fresh marked carried hplace _
  obtain ⟨ts, htokens⟩ := List.head?_eq_some_iff.mp hhead
  have hscans := (h us c _ _ _ _ marked carried hplace).scans
  have hcarried : c.carriedTo carried (b.tokens ++ us) = [] := by
    rw [htokens]
    exact carriedTo_of_isWord rfl
  rw [hcarried, hscans]
  rfl

theorem found_retValues {es : Tree .exprs} (closed : Bool) (hes : es.FindsTokens) :
    (Tree.retValues es closed).Found := by
  refine found_last rfl fun us c _ _ _ _ _ _ h => ?_
  have hreturn := h.stands.flat (t := .keyword .returnKw) rfl
  have hvalues : ∀ us, Finds us c (.keyword .returnKw :: es.tokens) (.other :: es.parts)
      (false :: es.targeted false false false) [] := fun us =>
    .cons (hes.operand hreturn h.level rfl (by decide) es.starting)
  cases closed with
  | false => simpa [tokens, parts, targeted] using hvalues us
  | true => exact .snoc (hvalues _)

end

theorem found {kind : Kind} (t : Tree kind) : t.Found := by
  induction t with
  | literal t =>
    intro us c _ _ _ _ _
    have hnone : c.ahead ((Tree.literal t).tokens ++ us) = [] :=
      ahead_of_isInert (Token.isInert_of_isLiteral t.2)
    rw [hnone]
    exact .other
  | plain p ih | read p ih | result p ih | one p ih | target p ih | lastField p ih => exact ih
  | table fs ih | tableArg fs ih =>
    intro us c blocks brackets headers h hlevel
    have hopen := h.opened (t := .symbol .braceOpen) rfl
    exact .group (ih _ _ _ _ _ _ hopen.stands (Nat.lt_succ_of_le hlevel) rfl)
  | binary l op r ih ih' =>
    intro us c blocks brackets headers h hlevel
    obtain ⟨hflat, hends, -, hsemi⟩ := Token.of_isBinary op.2
    exact finds_pair ih ih' (l.nested _ _ _ _ h) r.starting hflat hends hsemi h hlevel
  | more l r ih ih' | targets l r ih ih' | span l r ih ih' =>
    intro us c blocks brackets headers h hlevel
    exact finds_pair ih ih' (l.nested _ _ _ _ h) r.starting rfl rfl (by decide) h hlevel
  | stride first limit step ih ih' ih'' =>
    intro us c blocks brackets headers h hlevel
    have hspan : (Tree.span first limit).FindsTokens := fun us c _ _ _ h hlevel =>
      finds_pair ih ih' (first.nested _ _ _ _ h) limit.starting rfl rfl (by decide) h hlevel
    exact finds_pair hspan ih'' ((Tree.span first limit).nested _ _ _ _ h) step.starting rfl rfl
      (by decide) h hlevel
  | unary op e ih =>
    intro us c blocks brackets headers h hlevel
    obtain ⟨hflat, hends, -, hsemi⟩ := Token.of_isUnary op.2
    have hnone : c.ahead ((Tree.unary op e).tokens ++ us) = [] :=
      ahead_of_isInert (Token.isInert_of_isUnary op.2).1
    rw [hnone]
    exact .cons (ih.operand (h.flat hflat) hlevel hends hsemi e.starting)
  | function ps b ih =>
    intro us c blocks brackets headers h hlevel
    have hbody := h.parameters [] (by simp) ps
    exact found_function [.keyword .functionKw] [.other] ih (by simp) rfl hbody
  | paren e ih | someArgs e ih =>
    intro us c blocks brackets headers h hlevel
    have hopen := h.opened (t := .symbol .parenOpen) rfl
    exact .group (ih.operand hopen (Nat.le_succ_of_le hlevel) rfl (by decide) e.starting)
  | name n => exact fun us c _ _ _ _ _ => .use
  | index p e ih ih' => exact finds_index ih ih'
  | member p n ih =>
    exact fun us c _ _ _ h hlevel =>
      ih.append h hlevel (.passed [.symbol .dot, .name n] (by simp) rfl)
  | apply p a ih ih' => exact finds_apply ih ih'
  | invoke p n a ih ih' => exact finds_invoke n ih ih'
  | noArgs => exact fun us c _ _ _ _ _ => .cons .other
  | stringArg text => exact fun us c _ _ _ _ _ => .other
  | item e ih => exact fun us c _ _ _ p h hdeep hbefore => ih.deep h hdeep hbefore e.starting
  | named n e ih => exact found_named n ih
  | keyed k e ih ih' => exact found_keyed ih ih'
  | noField => exact fun us c _ _ _ p _ _ _ => .nil
  | fieldThen f sep fs ih ih' =>
    intro us c blocks brackets headers p h hdeep hbefore
    have hsep := (f.nested _ _ _ _ h).flat (Token.isFlat_of_isSeparator sep.2)
    exact .connect (ih _ c _ _ _ _ h hdeep hbefore) (ih' us _ _ _ _ _ hsep.stands hdeep rfl)
  | semicolon =>
    exact found_of_finds (fun _ _ => rfl) ⟨_, _, rfl, .inr (.inl rfl)⟩ fun _ _ _ _ _ _ _ _ _ =>
      .other
  | breakLoop =>
    exact found_of_finds (fun _ _ => rfl) ⟨_, _, rfl, .inl rfl⟩ fun _ _ _ _ _ _ _ _ _ => .other
  | locals l ls =>
    refine found_of_finds (fun _ _ => rfl) ⟨_, _, rfl, .inl rfl⟩ fun us c _ _ _ _ _ _ _ => ?_
    exact .passed (.keyword .localKw :: localTokens l ls)
      (by simp [parts, use_not_mem_localParts]) (by simp [parts, localParts_length])
  | localsInit l ls es ih => exact found_localsInit l ls ih
  | assign vs es ih ih' => exact found_assign ih ih'
  | callOnly call ih => exact found_call ih
  | doEnd b ih =>
    refine found_of_finds (fun _ _ => rfl) ⟨_, _, rfl, .inl rfl⟩ fun us c _ _ _ _ _ _ h => ?_
    exact .cons (found_body ih (h.stands.opened_do h.atLevel h.begins) rfl)
  | whileDo e b ih ih' =>
    refine found_of_finds (fun _ _ => rfl) ⟨_, _, rfl, .inl rfl⟩ fun us c _ _ _ _ _ _ h => ?_
    have hwhile := h.stands.opened_header (t := .keyword .whileKw) rfl
    exact .cons (found_loop us ih ih' (e.nested _ _ _ _ hwhile.stands) e.ended e.starting hwhile
      h.atLevel rfl (by decide))
  | repeatUntil b e ih ih' => exact found_repeat ih ih'
  | ifThen e b f ih ih' ih'' =>
    refine found_of_finds (fun _ _ => rfl) ⟨_, _, rfl, .inl rfl⟩ fun us c _ _ _ _ _ _ h => ?_
    have hif := h.stands.flat (t := .keyword .ifKw) rfl
    exact .cons (found_branch ih ih' ih'' hif h.level rfl (by decide))
  | forRange n r b ih ih' => exact found_forRange n ih ih'
  | forIn n ns es b ih ih' => exact found_forIn n ns ih ih'
  | localFunction n ps b ih =>
    refine found_of_finds (fun _ _ => rfl) ⟨_, _, rfl, .inl rfl⟩ fun us c _ _ _ _ _ _ h => ?_
    have hlocal := h.stands.flat (t := .keyword .localKw) rfl
    have hbody := hlocal.stands.parameters [.name n] (by simp [Token.isFlat]) ps
    exact found_function [.keyword .localKw, .keyword .functionKw, .name n]
      [.other, .other, .localName] ih (by simp) rfl hbody
  | functionNamed f ps b ih =>
    refine found_of_finds (fun _ _ => rfl) ⟨_, _, rfl, .inl rfl⟩ fun us c _ _ _ _ _ _ h => ?_
    exact found_function (.keyword .functionKw :: f.tokens) (.other :: f.parts) ih
      (by simp [f.use_not_mem]) (by simp [FunctionName.parts, FunctionName.tokens_eq])
      (h.stands.parameters _ f.tokens_flat ps)
  | gotoLabel n =>
    refine found_of_finds (fun _ _ => rfl) ⟨_, _, rfl, .inl rfl⟩ fun us c _ _ _ _ _ _ _ => ?_
    exact .cons .other
  | label n =>
    refine found_of_finds (fun _ _ => rfl) ⟨_, _, rfl, .inr (.inr rfl)⟩
      fun us c _ _ _ _ _ _ _ => ?_
    exact .cons (.cons .other)
  | endIf => exact fun us c _ _ _ _ _ => .other
  | elseEnd b ih => exact fun us c _ _ _ h _ => .cons (found_body ih h.passed_else rfl)
  | elseIf e b f ih ih' ih'' =>
    intro us c blocks brackets headers h hlevel
    have helse := h.left (t := .keyword .elseifKw) rfl
    exact .cons (found_branch ih ih' ih'' helse hlevel rfl (by decide))
  | nothing => exact found_nothing
  | ret closed =>
    refine found_last rfl fun us c _ _ _ _ _ _ _ => ?_
    cases closed with
    | false => exact .other
    | true => exact .cons .other
  | retValues es closed ih => exact found_retValues closed ih
  | cons s b ih ih' => exact found_cons ih ih'

end Tree

end LuaBundle.Lua
