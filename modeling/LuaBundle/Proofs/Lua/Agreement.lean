import LuaBundle.Proofs.Lua.Binding
import LuaBundle.Proofs.Lua.Misreading

/-!
# Where the walk is right

Where no target seems to be a key, no name tells that a statement ends too early or too late, and
every loop begins with its own `do`, the walk takes every token for what it is.
-/
namespace LuaBundle.Lua

/-! ### Scopes that bind names alike -/

/-- Two scopes bind the names to the same variables. -/
def Alike (ns : List Name) (Γ Δ : Env) : Prop := ∀ n ∈ ns, Γ.use n = Δ.use n

theorem names_declared (k : Nat) (ns : List Name) : (declared k ns).map Variable.name = ns := by
  induction ns generalizing k with
  | nil => rfl
  | cons n ns ih => exact congrArg (n :: ·) (ih (k + 1))

section

variable {ns ms : List Name} {Γ Δ : Env} {n : Name} {vs : List Variable} {k : Nat}

theorem Env.use_declare_of_not_mem (h : n ∉ vs.map Variable.name) :
    (Γ.declare vs).use n = Γ.use n := by
  have hnone : vs.reverse.find? (·.name = n) = none := by
    rw [List.find?_eq_none]
    intro v hv heq
    exact h (List.mem_map.mpr ⟨v, List.mem_reverse.mp hv, of_decide_eq_true heq⟩)
  rw [use, declare, List.find?_append, hnone]
  rfl

theorem Env.use_declare_of_mem (h : n ∈ vs.map Variable.name) :
    (Γ.declare vs).use n = (Δ.declare vs).use n := by
  obtain ⟨v, hv, hname⟩ := List.mem_map.mp h
  rw [use, use, declare, declare, List.find?_append, List.find?_append]
  cases hfind : vs.reverse.find? (·.name = n) with
  | none => exact absurd hname (by simpa using List.find?_eq_none.mp hfind v (List.mem_reverse.mpr hv))
  | some v => rfl

/-- What follows a statement is declared in any scope in the same way. -/
theorem Tree.extend_eq {kind : Kind} (t : Tree kind) (k : Nat) :
    ∃ vs : List Variable, vs.map Variable.name = t.tops ∧ ∀ Γ, t.extend Γ k = Γ.declare vs := by
  induction t generalizing k with
  | locals l ls | localsInit l ls es => exact ⟨_, names_declared k _, fun _ => rfl⟩
  | localFunction n ps b => exact ⟨_, names_declared k _, fun _ => rfl⟩
  | cons s b ih ih' =>
    obtain ⟨vs, hvs, hs⟩ := ih k
    obtain ⟨ws, hws, hb⟩ := ih' (k + s.decls)
    refine ⟨vs ++ ws, ?_, fun Γ => ?_⟩
    · rw [List.map_append, hvs, hws]
      rfl
    · show b.extend (s.extend Γ k) (k + s.decls) = Γ.declare (vs ++ ws)
      rw [hs, hb, Binds.declare_append]
  | _ => exact ⟨[], rfl, fun _ => rfl⟩

theorem Tree.use_extend {kind : Kind} {t : Tree kind} (h : n ∉ t.tops) :
    (t.extend Γ k).use n = Γ.use n := by
  obtain ⟨vs, hnames, hvs⟩ := t.extend_eq k
  rw [hvs]
  exact Env.use_declare_of_not_mem (hnames ▸ h)

namespace Alike

theorem mono (h : Alike ns Γ Δ) (hms : ms ⊆ ns) : Alike ms Γ Δ := fun n hn => h n (hms hn)

/-- Names that are declared in both scopes need not have been bound alike before. -/
theorem declare (vs : List Variable) (h : Alike (Tree.without ns (vs.map Variable.name)) Γ Δ) :
    Alike ns (Γ.declare vs) (Δ.declare vs) := by
  intro n hn
  by_cases hmem : n ∈ vs.map Variable.name
  · exact Env.use_declare_of_mem hmem
  · rw [Env.use_declare_of_not_mem hmem, Env.use_declare_of_not_mem hmem]
    exact h n (Tree.mem_without.mpr ⟨hn, hmem⟩)

theorem declared (k : Nat) (ms : List Name) (h : Alike (Tree.without ns ms) Γ Δ) :
    Alike ns (Γ.declare (declared k ms)) (Δ.declare (Lua.declared k ms)) := by
  refine declare _ ?_
  rw [names_declared]
  exact h

theorem extend {kind : Kind} (t : Tree kind) (k : Nat) (h : Alike (Tree.without ns t.tops) Γ Δ) :
    Alike ns (t.extend Γ k) (t.extend Δ k) := by
  obtain ⟨vs, hnames, hvs⟩ := t.extend_eq k
  rw [hvs, hvs]
  exact declare vs (hnames ▸ h)

/-- Behind the end of a function, the variables in use are bound as before. -/
theorem avoiding (h : Alike ms Δ Γ) (hns : ns ⊆ ms) {names : List Name}
    (hnames : names.all (fun n => !ns.contains n) = true) (Δ' : Env)
    (hΔ : ∀ n, n ∉ names → Δ'.use n = Δ.use n) : Alike ns Δ' Γ := by
  intro n hn
  rw [hΔ n, h n (hns hn)]
  intro hmem
  have := List.all_eq_true.mp hnames n hmem
  simp [hn] at this

end Alike

end

/-! ### Premises -/

theorem Tree.test_of_all {test : {kind : Kind} → Tree kind → Bool} {kind : Kind} {t : Tree kind}
    (h : t.all test = true) : test t = true := by
  have left : ∀ {a b : Bool}, (a && b) = true → a = true := fun h => (Bool.and_eq_true_iff.mp h).1
  cases t <;> first | exact h | exact left h | exact left (left h) | exact left (left (left h))

/-- Nothing leads the walk astray inside the tree, where the innermost bracket is a brace or none. -/
structure Clear {kind : Kind} (t : Tree kind) (braced : Bool) : Prop where
  kept : t.lost braced = 0
  timely : t.timely = true
  paired : t.paired = true

namespace Clear

variable {kind kind₁ kind₂ kind₃ : Kind} {t : Tree kind} {a : Tree kind₁} {b : Tree kind₂}
  {c : Tree kind₃} {braced braced₁ braced₂ braced₃ : Bool}

theorem one (h : Clear t braced)
    (hall : ∀ test : {kind : Kind} → Tree kind → Bool, t.all test = (test t && a.all test))
    (hlost : t.lost braced = a.lost braced₁) : Clear a braced₁ where
  kept := hlost.symm.trans h.kept
  timely := by
    have := h.timely
    rw [Tree.timely, hall, Bool.and_eq_true] at this
    exact this.2
  paired := by
    have := h.paired
    rw [Tree.paired, hall, Bool.and_eq_true] at this
    exact this.2

theorem two (h : Clear t braced)
    (hall : ∀ test : {kind : Kind} → Tree kind → Bool,
      t.all test = (test t && a.all test && b.all test))
    (hlost : t.lost braced = a.lost braced₁ + b.lost braced₂) :
    Clear a braced₁ ∧ Clear b braced₂ := by
  have hkept := hlost.symm.trans h.kept
  have htimely := h.timely
  have hpaired := h.paired
  rw [Tree.timely, hall, Bool.and_eq_true, Bool.and_eq_true] at htimely
  rw [Tree.paired, hall, Bool.and_eq_true, Bool.and_eq_true] at hpaired
  exact ⟨⟨by omega, htimely.1.2, hpaired.1.2⟩, ⟨by omega, htimely.2, hpaired.2⟩⟩

theorem three (h : Clear t braced)
    (hall : ∀ test : {kind : Kind} → Tree kind → Bool,
      t.all test = (test t && a.all test && b.all test && c.all test))
    (hlost : t.lost braced = a.lost braced₁ + b.lost braced₂ + c.lost braced₃) :
    Clear a braced₁ ∧ Clear b braced₂ ∧ Clear c braced₃ := by
  have hkept := hlost.symm.trans h.kept
  have htimely := h.timely
  have hpaired := h.paired
  rw [Tree.timely, hall, Bool.and_eq_true, Bool.and_eq_true, Bool.and_eq_true] at htimely
  rw [Tree.paired, hall, Bool.and_eq_true, Bool.and_eq_true, Bool.and_eq_true] at hpaired
  exact ⟨⟨by omega, htimely.1.1.2, hpaired.1.1.2⟩, ⟨by omega, htimely.1.2, hpaired.1.2⟩,
    ⟨by omega, htimely.2, hpaired.2⟩⟩

/-- The last of several targets is not taken for a key. -/
theorem targets {v : Tree .var} {vs : Tree .vars} (h : Clear (.targets v vs) braced) :
    (braced && vs.isPlainTarget) = false ∧ Clear v braced ∧ Clear vs braced := by
  have hkey : (braced && vs.isPlainTarget) = false := by
    have hkept : v.lost braced + (if braced && vs.isPlainTarget then 1 else vs.lost braced) = 0 :=
      h.kept
    by_contra hp
    rw [if_pos ((Bool.not_eq_false _).mp hp)] at hkept
    omega
  exact ⟨hkey, h.two (fun _ => rfl)
    (congrArg (v.lost braced + ·) (if_neg (Bool.eq_false_iff.mp hkey)))⟩

end Clear

theorem View.level_past {x : View} (hx : x.env = x.later) {kind : Kind} (t : Tree kind) :
    (x.past t).env = x.env := by
  rw [past]
  cases t.closes with
  | true => exact hx.symm
  | false => rfl

theorem View.past_span (x : View) (first limit : Tree .expr) :
    x.past (.span first limit) = (x.past first).past limit := by
  rw [past, past, past, pass_pass, Tree.closes_of_all (l := first) (r := limit) rfl]
  rfl

/-- The view binds the names of an expression as the scope does, also behind the end of a function. -/
structure Fair (x : View) (Γ : Env) {kind : Kind} (t : Tree kind) : Prop where
  env : Alike t.frees x.env Γ
  later : Alike t.late x.later Γ
  loops : x.loops = [] ∨ t.strays true = 0

namespace Fair

variable {kind kind₁ kind₂ : Kind} {t : Tree kind} {l : Tree kind₁} {r : Tree kind₂} {x : View}
  {Γ : Env}

theorem one (h : Fair x Γ t) (hfrees : l.frees ⊆ t.frees) (hlate : l.late ⊆ t.late)
    (hstrays : t.strays true = l.strays true) : Fair x Γ l :=
  ⟨h.env.mono hfrees, h.later.mono hlate, h.loops.imp_right fun hs => hstrays ▸ hs⟩

theorem inside (h : Fair x Γ t) (brace : Bool) : Fair (x.inside brace) Γ t := ⟨h.env, h.later, h.loops⟩

/-- The second part of an expression is read behind the first. -/
theorem two (h : Fair x Γ t) (hfrees : t.frees = l.frees ++ r.frees)
    (hlate : t.late = if l.closes then l.late ++ r.frees else r.late)
    (hstrays : t.strays true = l.strays true + r.strays true) :
    Fair x Γ l ∧ Fair (x.past l) Γ r := by
  have hloops : x.loops = [] ∨ l.strays true = 0 ∧ r.strays true = 0 := by
    rw [← Nat.add_eq_zero_iff, ← hstrays]
    exact h.loops
  have hloops' : (x.past l).loops = [] ∨ r.strays true = 0 := by
    rw [View.loops_past]
    exact hloops.imp (fun hx => by rw [hx, List.drop_nil]) And.right
  have henv := h.env
  have hlater := h.later
  rw [hfrees] at henv
  rw [hlate] at hlater
  have hl := henv.mono (List.subset_append_left _ _)
  cases hc : l.closes with
  | true =>
    rw [hc] at hlater
    have hr : Alike r.frees x.later Γ := hlater.mono (List.subset_append_right _ _)
    have hpast : (x.past l).env = x.later := by
      rw [View.past, hc]
      rfl
    refine ⟨⟨hl, hlater.mono (List.subset_append_left _ _), hloops.imp_right And.left⟩, ?_, ?_, hloops'⟩
    · rw [hpast]
      exact hr
    · rw [View.later_past]
      exact hr.mono r.late_subset
  | false =>
    rw [hc] at hlater
    have hpast : (x.past l).env = x.env := by
      rw [View.past, hc]
      rfl
    refine ⟨⟨hl, ?_, hloops.imp_right And.left⟩, ?_, ?_, hloops'⟩
    · rw [l.late_eq_nil hc]
      exact fun n hn => absurd hn List.not_mem_nil
    · rw [hpast]
      exact henv.mono (List.subset_append_right _ _)
    · rw [View.later_past]
      exact hlater

/-- The step of a loop is read behind its bounds. -/
theorem stride {first limit step : Tree .expr} (h : Fair x Γ (.stride first limit step)) :
    Fair x Γ first ∧ Fair (x.past first) Γ limit ∧ Fair ((x.past first).past limit) Γ step := by
  have hlate : (Tree.stride first limit step).late =
      if (Tree.span first limit).closes then (Tree.span first limit).late ++ step.frees
      else step.late := by
    rw [Tree.closes_of_all (l := first) (r := limit) rfl]
    show (if first.closes then first.late ++ (limit.frees ++ step.frees)
      else if limit.closes then limit.late ++ step.frees else step.late) =
        if first.closes || limit.closes then
          (if first.closes then first.late ++ limit.frees else limit.late) ++ step.frees
        else step.late
    cases first.closes <;> cases limit.closes <;> simp
  obtain ⟨hbounds, hstep⟩ := h.two (l := .span first limit) (List.append_assoc ..).symm hlate rfl
  obtain ⟨hfirst, hlimit⟩ := hbounds.two rfl rfl rfl
  exact ⟨hfirst, hlimit, x.past_span first limit ▸ hstep⟩

/-- Where nothing waits for the end of the statement, all of an expression is read alike. -/
theorem of_level (hx : x.env = x.later) (henv : Alike t.frees x.env Γ)
    (hloops : x.loops = [] ∨ t.strays true = 0) : Fair x Γ t :=
  ⟨henv, hx ▸ henv.mono t.late_subset, hloops⟩

theorem of_level_two (hx : x.env = x.later) (henv : Alike (l.frees ++ r.frees) x.env Γ)
    (hloops : x.loops = [] ∨ l.strays true + r.strays true = 0) :
    Fair x Γ l ∧ Fair (x.past l) Γ r := by
  rw [Nat.add_eq_zero_iff] at hloops
  have hpast : (x.past l).env = x.env := View.level_past hx l
  refine ⟨.of_level hx (henv.mono (List.subset_append_left _ _)) (hloops.imp_right And.left),
    .of_level ?_ ?_ ?_⟩
  · rw [hpast, View.later_past, hx]
  · rw [hpast]
    exact henv.mono (List.subset_append_right _ _)
  · rw [View.loops_past]
    exact hloops.imp (fun hl => by rw [hl, List.drop_nil]) And.right

end Fair

/-! ### Between statements -/

namespace View

variable {x : View}

theorem settled_eq (hx : x.env = x.later) : x.settled = x := by
  obtain ⟨env, later, loops, braced, fresh⟩ := x
  have h : env = later := hx
  rw [settled, h]

theorem strays_doEnd_ne_zero (b : Tree .block) : (Tree.doEnd b).strays false ≠ 0 := by
  show 1 + b.strays true ≠ 0
  omega

/-- Where no `do` is taken for the one of a loop, nothing but a parenthesis keeps a statement from
ending the one before. -/
theorem reach_eq {s : Tree .stmt} (hx : x.env = x.later ∨ s.opensParen = false)
    (hloops : x.loops = [] ∨ s.strays x.fresh = 0) : x.reach s = x.settled := by
  have hdo : ∀ b, s = .doEnd b → x.hushes s = false := by
    rintro b rfl
    show (!x.fresh && !x.loops.isEmpty) = false
    rcases hloops with hl | hs
    · rw [hl]
      simp
    · cases hf : x.fresh with
      | true => rfl
      | false =>
        rw [hf] at hs
        exact absurd hs (strays_doEnd_ne_zero b)
  rw [reach]
  split
  · rename_i hhush
    rcases hx with hx | hparen
    · exact (settled_eq hx).symm
    · cases s with
      | doEnd b => exact absurd ((hdo b rfl).symm.trans hhush) nofun
      | _ => exact absurd (hhush.symm.trans hparen) nofun
  · rfl

/-- The `do` of a loop, if none before it in the header was taken for it. -/
theorem entered_past {kind : Kind} {t : Tree kind} (h : t.strays true = 0) (vs : List Variable) :
    ((x.header vs).past t).entered = (x.past t).opened vs := by
  rw [past, past, h]
  cases t.closes <;> rfl

theorem plainDo_eq {b : Tree .block} (h : x.loops = [] ∨ (Tree.doEnd b).strays x.fresh = 0) :
    x.plainDo = x.opened [] := by
  obtain ⟨env, later, loops, braced, fresh⟩ := x
  cases fresh with
  | true => rfl
  | false =>
    rcases h with hl | hs
    · cases hl
      rfl
    · exact absurd hs (strays_doEnd_ne_zero b)

end View

namespace Tree

theorem later_left (s : Tree .stmt) {x : View} (hx : x.env = x.later) (k : Nat) :
    (s.left x k).later = s.extend x.env k := by
  cases s with
  | semicolon => exact hx.symm
  | doEnd b => exact hx.symm
  | callOnly c => exact (x.later_past c).trans hx.symm
  | assign vs es => exact (View.later_past _ es).trans ((x.later_past vs).trans hx.symm)
  | localsInit l ls es => exact View.later_past _ es
  | repeatUntil b e => exact View.later_past _ e
  | _ => rfl

theorem env_left (s : Tree .stmt) {x : View} (hx : x.env = x.later) (k : Nat)
    (h : s.waits = false) : (s.left x k).env = (s.left x k).later := by
  have hclosed : ∀ {kind : Kind} (y : View) (t : Tree kind), t.closes = true →
      (y.past t).env = (y.past t).later := by
    intro kind y t ht
    rw [View.past, ht]
    rfl
  have hlevel : ∀ {kind : Kind} (y : View) (t : Tree kind), y.env = y.later →
      (y.past t).env = (y.past t).later := by
    intro kind y t hy
    rw [View.level_past hy, hy, View.later_past]
  cases s with
  | semicolon => exact hx
  | callOnly c => exact hlevel x c hx
  | assign vs es => exact hlevel _ es (hlevel x vs hx)
  | localsInit l ls es => exact hclosed _ es (Bool.not_inj h)
  | repeatUntil b e => exact hclosed _ e (Bool.not_inj h)
  | _ => rfl

end Tree

/-- A block can be read in the view. -/
structure Ready (x : View) (b : Tree .block) : Prop where
  level : x.env = x.later ∨ b.beginsParen = false
  loops : x.loops = [] ∨ b.strays x.fresh = 0

/-- Behind the first statement, which is read where the one before has ended. -/
theorem Ready.cons {x : View} {s : Tree .stmt} {b : Tree .block} (h : Ready x (.cons s b))
    (htimely : (Tree.cons s b).timely = true) (k : Nat) :
    x.reach s = x.settled ∧ (x.settled.loops = [] ∨ s.strays x.settled.fresh = 0) ∧
      Ready (s.left x.settled k) b := by
  have hloops : x.loops = [] ∨ s.strays x.fresh = 0 ∧ b.strays s.isSemicolon = 0 := by
    rw [← Nat.add_eq_zero_iff]
    exact h.loops
  have hprompt : (!(s.waits && b.beginsParen)) = true := Tree.test_of_all htimely
  obtain ⟨hleft, -, hfresh⟩ := s.leaves x.settled k
  refine ⟨View.reach_eq h.level (hloops.imp_right And.left), hloops.imp_right And.left, ?_, ?_⟩
  · cases hwaits : s.waits with
    | false => exact .inl (s.env_left rfl k hwaits)
    | true =>
      rw [hwaits] at hprompt
      exact .inr (Bool.not_inj hprompt)
  · rw [hleft, hfresh]
    exact hloops.imp (fun hx => (congrArg _ hx).trans List.drop_nil) And.right

theorem Ready.opened {b : Tree .block} {y : View} (h : y.loops = [] ∨ b.strays true = 0)
    (vs : List Variable) : Ready (y.opened vs) b := ⟨.inl rfl, h⟩

namespace Tree

/-- A block leaves the scope of the language to what follows it. -/
def Extends : {kind : Kind} → Tree kind → Prop
  | .block, t => ∀ x k, Ready x t → t.timely = true → (t.left x k).later = t.extend x.later k
  | .expr, _ | .operand, _ | .var, _ | .call, _ | .args, _ | .exprs, _ | .vars, _ | .range, _
  | .field, _ | .fields, _ | .stmt, _ | .tail, _ => True

theorem extends_later {kind : Kind} (t : Tree kind) : t.Extends := by
  induction t with
  | nothing | ret closed => exact fun _ _ _ _ => rfl
  | retValues es closed => exact fun x _ _ _ => View.later_past _ es
  | cons s b _ ih =>
    intro x k h htimely
    obtain ⟨hreach, -, hb⟩ := h.cons htimely k
    have htimely' : b.timely = true := by
      have : (_ && _ && b.timely) = true := htimely
      rw [Bool.and_eq_true] at this
      exact this.2
    show (b.left (s.left (x.reach s) k) (k + s.decls)).later = b.extend (s.extend x.later k) (k + s.decls)
    rw [hreach, ih _ _ hb htimely', s.later_left rfl]
    rfl
  | _ => trivial

end Tree

/-! ### Agreement -/

/-- Where nothing leads it astray, the walk takes the tree's tokens for what they are. -/
def Tree.Agrees : {kind : Kind} → Tree kind → Prop
  | .expr, t | .operand, t | .var, t | .call, t | .args, t | .exprs, t | .vars, t | .range, t
  | .field, t | .fields, t => ∀ x Γ k, Fair x Γ t → Clear t x.braced → t.seen x k = t.roles Γ k
  | .stmt, t | .tail, t => ∀ x Γ k, x.env = x.later → Alike t.frees x.env Γ →
      x.loops = [] ∨ t.strays x.fresh = 0 → Clear t x.braced → t.seen x k = t.roles Γ k
  | .block, t => ∀ x Γ k, Ready x t → Alike t.frees x.later Γ → Clear t x.braced →
      t.seen x k = t.roles Γ k

section

variable {x : View} {Γ : Env} {k : Nat}

namespace Tree.Agrees

theorem opened {b : Tree .block} (hb : b.Agrees) (vs : List Variable)
    (hscope : Alike b.frees (x.env.declare vs) (Γ.declare vs))
    (hloops : x.loops = [] ∨ b.strays true = 0) (hclear : Clear b x.braced) :
    b.seen (x.opened vs) k = b.roles (Γ.declare vs) k :=
  hb _ _ _ (.opened hloops vs) hscope hclear

/-- What follows the first part of an expression is read behind it. -/
theorem both {kind₁ kind₂ : Kind} {l : Tree kind₁} {r : Tree kind₂}
    (hl : ∀ x Γ k, Fair x Γ l → Clear l x.braced → l.seen x k = l.roles Γ k)
    (hr : ∀ x Γ k, Fair x Γ r → Clear r x.braced → r.seen x k = r.roles Γ k)
    (h : Fair x Γ l ∧ Fair (x.past l) Γ r) (hclear : Clear l x.braced ∧ Clear r x.braced) (k : Nat) :
    l.seen x k = l.roles Γ k ∧
      r.seen (x.past l) (k + l.decls) = r.roles Γ (k + l.decls) :=
  ⟨hl _ _ _ h.1 hclear.1, hr _ _ _ h.2 (x.braced_past l ▸ hclear.2)⟩

/-- The header and the body of a loop. -/
theorem loop {kind : Kind} {e : Tree kind} {b : Tree .block}
    (he : ∀ x Γ k, Fair x Γ e → Clear e x.braced → e.seen x k = e.roles Γ k) (hb : b.Agrees)
    (hx : x.env = x.later) (henv : Alike e.frees x.env Γ) (vs : List Variable)
    (hscope : Alike b.frees (x.env.declare vs) (Γ.declare vs))
    (hloops : x.loops = [] ∨ b.strays true = 0) (hheads : (e.strays true == 0) = true)
    (hclear : Clear e x.braced ∧ Clear b x.braced) (k k' : Nat) :
    e.seen (x.header vs) k = e.roles Γ k ∧
      b.seen ((x.header vs).past e).entered k' = b.roles (Γ.declare vs) k' := by
  have hstrays := eq_of_beq hheads
  refine ⟨he _ _ _ (.of_level hx henv (.inr hstrays)) hclear.1, ?_⟩
  rw [View.entered_past hstrays]
  refine hb.opened _ ?_ ?_ (x.braced_past e ▸ hclear.2)
  · rw [View.level_past hx]
    exact hscope
  · rw [View.loops_past, hstrays]
    exact hloops

/-- A condition, its block and the rest of an `if`. -/
theorem branch {e : Tree .expr} {b : Tree .block} {f : Tree .tail} (he : e.Agrees)
    (hb : b.Agrees) (hf : f.Agrees) (hx : x.env = x.later)
    (henv : Alike (e.frees ++ (b.frees ++ f.frees)) x.env Γ)
    (hloops : x.loops = [] ∨ e.strays true + b.strays true + f.strays true = 0)
    (hclear : Clear e x.braced ∧ Clear b x.braced ∧ Clear f x.braced) (k k' k'' : Nat) :
    e.seen x k = e.roles Γ k ∧ b.seen ((x.past e).opened []) k' = b.roles Γ k' ∧
      f.seen (x.skip (e.strays true + b.strays true)) k'' = f.roles Γ k'' := by
  obtain ⟨hce, hcb, hcf⟩ := hclear
  have hrest := henv.mono (List.subset_append_right _ _)
  have hpast : (x.past e).loops = [] ∨ b.strays true = 0 := by
    rw [View.loops_past]
    exact hloops.imp (fun hl => by rw [hl, List.drop_nil]) fun hs => by omega
  refine ⟨he x Γ k ?_ hce, hb.opened [] ?_ hpast (x.braced_past e ▸ hcb),
    hf _ Γ k'' hx (hrest.mono (List.subset_append_right _ _)) ?_ hcf⟩
  · exact .of_level hx (henv.mono (List.subset_append_left _ _))
      (hloops.imp_right fun hs => by omega)
  · rw [View.level_past hx]
    exact hrest.mono (List.subset_append_left _ _)
  · have hstrays : f.strays x.fresh = f.strays true := by cases f <;> rfl
    show x.loops.drop _ = [] ∨ f.strays x.fresh = 0
    rw [hstrays]
    exact hloops.imp (fun hl => by rw [hl, List.drop_nil]) fun hs => by omega

/-- The body of a `repeat` and its condition, which sees the locals of the body. -/
theorem condition {b : Tree .block} {e : Tree .expr} (hb : b.Agrees) (he : e.Agrees)
    (henv : Alike (Tree.repeatUntil b e).frees x.env Γ)
    (hloops : x.loops = [] ∨ b.strays true + e.strays true = 0)
    (hclear : Clear (.repeatUntil b e) x.braced) (k : Nat) :
    b.seen (x.opened []) k = b.roles Γ k ∧
      e.seen (x.untilFrom (b.left (x.opened []) k)) (k + b.decls) =
        e.roles (b.extend Γ k) (k + b.decls) := by
  obtain ⟨hcb, hce⟩ := hclear.two (fun _ => rfl) rfl
  rw [Nat.add_eq_zero_iff] at hloops
  have hbody := hloops.imp_right And.left
  have hcond : Alike e.frees (b.extend x.env k) (b.extend Γ k) :=
    Alike.extend b k (henv.mono (List.subset_append_right _ _))
  refine ⟨hb.opened [] (henv.mono (List.subset_append_left _ _)) hbody hcb,
    he _ (b.extend Γ k) _ ⟨?_, ?_, ?_⟩ hce⟩
  · show Alike e.frees (b.left (x.opened []) k).later (b.extend Γ k)
    rw [b.extends_later _ k (.opened hbody []) hcb.timely]
    exact hcond
  -- the locals of the body end where the first function in the condition does
  · refine Alike.avoiding hcond e.late_subset (Tree.test_of_all hclear.timely) x.env fun n hn => ?_
    exact (Tree.use_extend hn).symm
  · show (b.left (x.opened []) k).loops = [] ∨ e.strays true = 0
    obtain ⟨hleft, -⟩ := b.leaves (x.opened []) k
    rw [hleft]
    exact hloops.imp (fun hl => (congrArg _ hl).trans List.drop_nil) And.right

/-- The body of a function with a name. -/
theorem body {b : Tree .block} (hb : b.Agrees) (vs : List Variable) {k : Nat} (ns : List Name)
    (henv : Alike (Tree.without b.frees (vs.map Variable.name ++ ns)) x.env Γ)
    (hloops : x.loops = [] ∨ b.strays true = 0) (hclear : Clear b x.braced) (k' : Nat) :
    b.seen ((x.opened vs).opened (declared k ns)) k' =
      b.roles ((Γ.declare vs).declare (declared k ns)) k' := by
  refine opened (x := x.opened vs) hb _ ?_ hloops hclear
  refine Alike.declared k ns (Alike.declare vs ?_)
  refine henv.mono fun n hn => ?_
  obtain ⟨hn, hvs⟩ := Tree.mem_without.mp hn
  obtain ⟨hn, hns⟩ := Tree.mem_without.mp hn
  exact Tree.mem_without.mpr ⟨hn, fun hmem => (List.mem_append.mp hmem).elim hvs hns⟩

end Tree.Agrees

end

theorem Tree.agrees {kind : Kind} (t : Tree kind) : t.Agrees := by
  induction t with
  | literal t | noArgs | stringArg text | noField => exact fun _ _ _ _ _ => rfl
  | plain p ih | read p ih | result p ih | one p ih | target p ih | item p ih | lastField p ih =>
    intro x Γ k h hclear
    exact ih x Γ k (h.one (List.Subset.refl _) (List.Subset.refl _) rfl)
      (hclear.one (fun _ => rfl) rfl)
  | name n => exact fun x Γ k h _ => congrArg (fun r => [r]) (h.env n (List.mem_singleton_self _))
  | unary op e ih =>
    intro x Γ k h hclear
    have he := ih x Γ k (h.one (List.Subset.refl _) (List.Subset.refl _) rfl)
      (hclear.one (fun _ => rfl) rfl)
    exact congrArg (Role.other :: ·) he
  | named n e ih =>
    intro x Γ k h hclear
    have he := ih x Γ k (h.one (List.Subset.refl _) (List.Subset.refl _) rfl)
      (hclear.one (fun _ => rfl) rfl)
    exact congrArg (Role.other :: Role.other :: ·) he
  | table e ih | paren e ih | someArgs e ih | tableArg e ih =>
    intro x Γ k h hclear
    have he : Fair x Γ e := h.one (List.Subset.refl _) (List.Subset.refl _) rfl
    have he := ih (x.inside _) Γ k (he.inside _) (hclear.one (fun _ => rfl) rfl)
    exact congrArg (fun rs => Role.other :: (rs ++ [Role.other])) he
  | member p n ih =>
    intro x Γ k h hclear
    have hp := ih x Γ k (h.one (List.Subset.refl _) (List.Subset.refl _) rfl)
      (hclear.one (fun _ => rfl) rfl)
    exact congrArg (· ++ [Role.other, Role.other]) hp
  | binary l op r ih ih' | more l r ih ih' | span l r ih ih' | fieldThen l sep r ih ih' =>
    intro x Γ k h hclear
    obtain ⟨hl, hr⟩ :=
      Tree.Agrees.both ih ih' (h.two rfl rfl rfl) (hclear.two (fun _ => rfl) rfl) k
    exact congrArg₂ (· ++ Role.other :: ·) hl hr
  | targets v vs ih ih' =>
    intro x Γ k h hclear
    obtain ⟨hkey, hclear⟩ := hclear.targets
    obtain ⟨hv, hvs⟩ := Tree.Agrees.both ih ih' (h.two rfl rfl rfl) hclear k
    have hseen : (Tree.targets v vs).seen x k =
        v.seen x k ++ Role.other :: vs.seen (x.past v) (k + v.decls) :=
      congrArg (v.seen x k ++ Role.other :: ·) (if_neg (Bool.eq_false_iff.mp hkey))
    rw [hseen, hv, hvs]
    rfl
  | apply p a ih ih' =>
    intro x Γ k h hclear
    obtain ⟨hp, ha⟩ :=
      Tree.Agrees.both ih ih' (h.two rfl rfl rfl) (hclear.two (fun _ => rfl) rfl) k
    exact congrArg₂ (· ++ ·) hp ha
  | invoke p n a ih ih' =>
    intro x Γ k h hclear
    obtain ⟨hp, ha⟩ :=
      Tree.Agrees.both ih ih' (h.two rfl rfl rfl) (hclear.two (fun _ => rfl) rfl) k
    exact congrArg₂ (· ++ Role.other :: Role.other :: ·) hp ha
  | index p e ih ih' =>
    intro x Γ k h hclear
    obtain ⟨hl, hr⟩ := h.two rfl rfl rfl
    obtain ⟨hcl, hcr⟩ := hclear.two (fun _ => rfl) rfl
    have hr := ih' ((x.past p).inside false) Γ (k + p.decls) (hr.inside false) hcr
    exact congrArg₂ (fun rs rs' => rs ++ Role.other :: rs' ++ [Role.other]) (ih x Γ k hl hcl) hr
  | keyed key e ih ih' =>
    intro x Γ k h hclear
    obtain ⟨hl, hr⟩ := h.two rfl rfl rfl
    obtain ⟨hcl, hcr⟩ := hclear.two (fun _ => rfl) rfl
    have hr := ih' (x.past key) Γ (k + key.decls) hr (x.braced_past key ▸ hcr)
    exact congrArg₂ (fun rs rs' => Role.other :: rs ++ Role.other :: Role.other :: rs')
      (ih (x.inside false) Γ k (hl.inside false) hcl) hr
  | stride first limit step ih ih' ih'' =>
    intro x Γ k h hclear
    obtain ⟨hfirst, hlimit, hstep⟩ := h.stride
    obtain ⟨hcf, hcl, hcs⟩ := hclear.three (fun _ => rfl) rfl
    obtain ⟨hfirst, hlimit⟩ := Tree.Agrees.both ih ih' ⟨hfirst, hlimit⟩ ⟨hcf, hcl⟩ k
    have hstep := ih'' ((x.past first).past limit) Γ (k + first.decls + limit.decls) hstep
      (by rw [View.braced_past, View.braced_past]; exact hcs)
    exact congrArg₂ (· ++ Role.other :: ·) (congrArg₂ (· ++ Role.other :: ·) hfirst hlimit) hstep
  | function ps b ih =>
    intro x Γ k h hclear
    have hb := Tree.Agrees.opened ih _ (k := k + ps.names.length) (Alike.declared k ps.names h.env)
      h.loops (hclear.one (fun _ => rfl) rfl)
    exact congrArg (fun rs => Role.other :: ps.roles k ++ rs ++ [Role.other]) hb
  | semicolon | locals l ls | breakLoop | gotoLabel n | label n | endIf =>
    exact fun _ _ _ _ _ _ _ => rfl
  | localsInit l ls es ih =>
    intro x Γ k _ henv hloops hclear
    have hlater := Alike.avoiding henv es.late_subset (Tree.test_of_all hclear.timely)
      (x.env.declare (declared k (l.name :: ls.map Local.name))) fun n hn =>
        Env.use_declare_of_not_mem (names_declared k _ ▸ hn)
    have hes := ih (x.awaiting _) Γ (k + (1 + ls.length)) ⟨henv, hlater, hloops⟩
      (hclear.one (fun _ => rfl) rfl)
    exact congrArg (Role.other :: localRoles k l ls ++ Role.other :: ·) hes
  | assign vs es ih ih' =>
    intro x Γ k hx henv hloops hclear
    obtain ⟨hvs, hes⟩ := Tree.Agrees.both ih ih' (Fair.of_level_two hx henv hloops)
      (hclear.two (fun _ => rfl) rfl) k
    exact congrArg₂ (· ++ Role.other :: ·) hvs hes
  | callOnly c ih =>
    intro x Γ k hx henv hloops hclear
    exact ih x Γ k (.of_level hx henv hloops) (hclear.one (fun _ => rfl) rfl)
  | doEnd b ih =>
    intro x Γ k _ henv hloops hclear
    have hb := Tree.Agrees.opened ih [] (k := k) henv
      (hloops.imp_right fun hs => (Nat.add_eq_zero_iff.mp hs).2) (hclear.one (fun _ => rfl) rfl)
    rw [← View.plainDo_eq hloops] at hb
    exact congrArg (fun rs => Role.other :: rs ++ [Role.other]) hb
  | elseEnd b ih =>
    intro x Γ k _ henv hloops hclear
    have hb := Tree.Agrees.opened ih [] (k := k) henv hloops (hclear.one (fun _ => rfl) rfl)
    exact congrArg (fun rs => Role.other :: rs ++ [Role.other]) hb
  | whileDo e b ih ih' =>
    intro x Γ k hx henv hloops hclear
    obtain ⟨he, hb⟩ := Tree.Agrees.loop ih ih' hx (henv.mono (List.subset_append_left _ _)) []
      (henv.mono (List.subset_append_right _ _))
      (hloops.imp_right fun hs => (Nat.add_eq_zero_iff.mp hs).2) (Tree.test_of_all hclear.paired)
      (hclear.two (fun _ => rfl) rfl) k (k + e.decls)
    exact congrArg₂ (fun rs rs' => Role.other :: rs ++ Role.other :: rs' ++ [Role.other]) he hb
  | forRange n r b ih ih' =>
    intro x Γ k hx henv hloops hclear
    obtain ⟨hr, hb⟩ := Tree.Agrees.loop ih ih' hx (henv.mono (List.subset_append_left _ _))
      (declared k [n]) (Alike.declared k [n] (henv.mono (List.subset_append_right _ _)))
      (hloops.imp_right fun hs => (Nat.add_eq_zero_iff.mp hs).2) (Tree.test_of_all hclear.paired)
      (hclear.two (fun _ => rfl) rfl) (k + 1) (k + 1 + r.decls)
    exact congrArg₂ (fun rs rs' => Role.other :: declaring (declared k [n]) ++ Role.other :: rs ++
      Role.other :: rs' ++ [Role.other]) hr hb
  | forIn n ns es b ih ih' =>
    intro x Γ k hx henv hloops hclear
    obtain ⟨he, hb⟩ := Tree.Agrees.loop ih ih' hx (henv.mono (List.subset_append_left _ _))
      (declared k (n :: ns)) (Alike.declared k (n :: ns) (henv.mono (List.subset_append_right _ _)))
      (hloops.imp_right fun hs => (Nat.add_eq_zero_iff.mp hs).2) (Tree.test_of_all hclear.paired)
      (hclear.two (fun _ => rfl) rfl) (k + (1 + ns.length)) (k + (1 + ns.length) + es.decls)
    exact congrArg₂ (fun rs rs' => Role.other :: declaring (declared k (n :: ns)) ++
      Role.other :: rs ++ Role.other :: rs' ++ [Role.other]) he hb
  | ifThen e b f ih ih' ih'' | elseIf e b f ih ih' ih'' =>
    intro x Γ k hx henv hloops hclear
    obtain ⟨he, hb, hf⟩ := Tree.Agrees.branch ih ih' ih'' hx henv hloops
      (hclear.three (fun _ => rfl) rfl) k (k + e.decls) (k + e.decls + b.decls)
    exact congrArg₂ (· ++ ·)
      (congrArg₂ (fun rs rs' => Role.other :: rs ++ Role.other :: rs') he hb) hf
  | repeatUntil b e ih ih' =>
    intro x Γ k _ henv hloops hclear
    obtain ⟨hb, he⟩ := Tree.Agrees.condition ih ih' henv hloops hclear k
    exact congrArg₂ (fun rs rs' => Role.other :: rs ++ Role.other :: rs') hb he
  | localFunction n ps b ih =>
    intro x Γ k _ henv hloops hclear
    have hb := Tree.Agrees.body ih (declared k [n]) ps.names (k := k + 1) henv hloops
      (hclear.one (fun _ => rfl) rfl) (k + 1 + ps.names.length)
    exact congrArg (fun rs => Role.other :: Role.other :: declaring (declared k [n]) ++
      ps.roles (k + 1) ++ rs ++ [Role.other]) hb
  | functionNamed f ps b ih =>
    intro x Γ k _ henv hloops hclear
    have hbase : x.env.use f.base = Γ.use f.base := henv f.base List.mem_cons_self
    have hname : f.roles x.env = f.roles Γ := by rw [FunctionName.roles, hbase, FunctionName.roles]
    have hreceiver : (f.receiver k).map Variable.name = (f.receiver 0).map Variable.name := by
      rw [FunctionName.receiver, FunctionName.receiver, List.map_map, List.map_map]
      rfl
    have hb := Tree.Agrees.body ih (f.receiver k) ps.names
      (k := k + f.method.toList.length)
      (by rw [hreceiver]; exact henv.mono (List.subset_cons_self _ _)) hloops
      (hclear.one (fun _ => rfl) rfl) (k + f.method.toList.length + ps.names.length)
    exact congrArg₂ (fun rs rs' => Role.other :: rs ++ ps.roles (k + f.method.toList.length) ++
      rs' ++ [Role.other]) hname hb
  | nothing => exact fun _ _ _ _ _ _ => rfl
  | ret closed => exact fun _ _ _ _ _ _ => rfl
  | retValues es closed ih =>
    intro x Γ k h henv hclear
    have hes := ih x.settled Γ k (.of_level rfl henv h.loops) (hclear.one (fun _ => rfl) rfl)
    exact congrArg (fun rs => Role.other :: rs ++ if closed then [Role.other] else []) hes
  | cons s b ih ih' =>
    intro x Γ k h henv hclear
    obtain ⟨hreach, hloops, hb⟩ := h.cons hclear.timely k
    obtain ⟨hcs, hcb⟩ := hclear.two (fun _ => rfl) rfl
    have hs := ih x.settled Γ k rfl (henv.mono (List.subset_append_left _ _)) hloops hcs
    have hscope : Alike b.frees (s.left x.settled k).later (s.extend Γ k) := by
      rw [s.later_left rfl]
      exact Alike.extend s k (henv.mono (List.subset_append_right _ _))
    obtain ⟨-, hbraced, -⟩ := s.leaves x.settled k
    have hb := ih' (s.left x.settled k) (s.extend Γ k) (k + s.decls) hb hscope (hbraced ▸ hcb)
    show s.seen (x.reach s) k ++ b.seen (s.left (x.reach s) k) (k + s.decls) = _
    rw [hreach]
    exact congrArg₂ (· ++ ·) hs hb

/-- On a chunk in which nothing leads it astray, the walk takes every token for what it is. -/
theorem Tree.seen_eq (b : Tree .block) (h : Clear b false) :
    b.seen .outermost 0 = b.roles [] 0 :=
  b.agrees .outermost [] 0 ⟨.inl rfl, .inl rfl⟩ (fun _ _ => rfl) h

end LuaBundle.Lua
