import LuaBundle.Lua.Rename
import LuaBundle.Proofs.Lua.Declaring
import Mathlib.Data.List.Forall2

/-!
# What is renamed

Whatever the tokens are, chunk or not, the walk binds names only, and it leaves no token out. So the
plan gives every token its text or, if it is a name, a tag.
-/
namespace LuaBundle.Lua

/-- What is bound is a name. -/
def OnNames : List Site → List Binding → Prop
  | site :: sites, b :: bs => (b = .unbound ∨ site.token.isName = true) ∧ OnNames sites bs
  | _, _ => True

namespace OnNames

variable {sites : List Site} {bs bs' : List Binding}

theorem nil_left (bs : List Binding) : OnNames [] bs := by
  cases bs <;> trivial

theorem nil_right (sites : List Site) : OnNames sites [] := by
  cases sites <;> trivial

theorem unbound {site : Site} (h : OnNames sites bs) : OnNames (site :: sites) (.unbound :: bs) :=
  ⟨.inl rfl, h⟩

theorem name {site : Site} {b : Binding} {n : List Char} (hn : site.token = .name n)
    (h : OnNames sites bs) : OnNames (site :: sites) (b :: bs) :=
  ⟨.inr (by rw [hn]; rfl), h⟩

theorem append (h : OnNames sites bs) (h' : OnNames (sites.drop bs.length) bs') :
    OnNames sites (bs ++ bs') := by
  induction bs generalizing sites with
  | nil => exact h'
  | cons b bs ih =>
    cases sites with
    | nil => exact nil_left _
    | cons site sites => exact ⟨h.1, ih h.2 h'⟩

theorem replicate (count : Nat) (sites : List Site) :
    OnNames sites (List.replicate count .unbound) := by
  induction count generalizing sites with
  | zero => exact nil_right sites
  | succ count ih =>
    cases sites with
    | nil => exact nil_left _
    | cons site sites => exact unbound (ih sites)

end OnNames

/-- Where a part of a step succeeds, it binds names only. -/
def BindsNames (sites : List Site) (passed : Except ScopeFault Passed) : Prop :=
  ∀ bs s, passed = .ok (bs, s) → OnNames sites bs

/-- A step passes its first token, and it binds names only. -/
def Advances (sites : List Site) (passed : Except ScopeFault Passed) : Prop :=
  ∀ bs s, passed = .ok (bs, s) → bs ≠ [] ∧ OnNames sites bs

namespace Advances

variable {sites : List Site} {site : Site} {passed : Except ScopeFault Passed}

theorem error (e : ScopeFault) : Advances sites (.error e) := nofun

theorem pass (count : Nat) (s : ScopeState) : Advances sites (.ok (Lua.pass (count + 1) s)) := by
  intro bs s' h
  cases h
  exact ⟨List.cons_ne_nil _ _, .replicate (count + 1) sites⟩

theorem after (h : BindsNames sites passed) : Advances (site :: sites) (after .unbound passed) := by
  intro bs s' hafter
  cases passed with
  | error e => cases hafter
  | ok p =>
    cases hafter
    exact ⟨List.cons_ne_nil _ _, .unbound (h _ _ rfl)⟩

theorem bindsNames (h : Advances sites passed) : BindsNames sites passed :=
  fun bs s hpassed => (h bs s hpassed).2

end Advances

section Steps

variable {s s' : ScopeState} {site : Site} {sites rest : List Site} {bs : List Binding}

theorem declareNames_other (attribs : Bool) (hn : ∀ n, site.token ≠ .name n) :
    declareNames attribs s (site :: rest) = ([], [], s, site :: rest) := by
  rw [declareNames]
  split
  · rename_i n hname
    exact absurd hname (hn n)
  · rfl

theorem onNames_declareNames (attribs : Bool) (s : ScopeState) (sites : List Site) :
    OnNames sites (declareNames attribs s sites).1 := by
  induction hlength : sites.length using Nat.strongRecOn generalizing s sites with
  | _ length ih =>
    cases sites with
    | nil => exact .nil_left _
    | cons site rest =>
      by_cases hname : ∃ n, site.token = .name n
      · obtain ⟨n, hn⟩ := hname
        let skipped := if attribs = true ∧ startsWith .less rest = true then 3 else 0
        have hbound : OnNames (site :: rest)
            (.declared ⟨s.declared, false⟩ :: List.replicate skipped .unbound) :=
          .name hn (.replicate skipped rest)
        have hskipped : (if attribs = true ∧ startsWith .less rest = true then 3 else 0) = skipped :=
          rfl
        rw [declareNames_name site hn hskipped]
        cases hdrop : rest.drop skipped with
        | nil => exact hbound
        | cons c after =>
          rw [declareMore]
          split
          · have hshort := congrArg List.length hdrop
            rw [List.length_drop, List.length_cons] at hshort
            rw [List.length_cons] at hlength
            refine hbound.append ?_
            rw [List.length_cons, List.length_replicate, List.drop_succ_cons, hdrop]
            exact .unbound (ih after.length (by omega) _ after rfl)
          · exact hbound
      · rw [declareNames_other attribs (fun n hn => hname ⟨n, hn⟩)]
        exact .nil_right _

theorem namePath_drop (method : Bool) (sites : List Site) :
    (namePath method sites).2.2 = sites.drop (namePath method sites).1 := by
  fun_induction namePath method sites with
  | case1 => simp_all
  | case2 => rfl
  | case3 => rfl

theorem bindsNames_parameters (s : ScopeState) (sites : List Site) :
    BindsNames sites (parameters s sites) := by
  intro bs s' h
  fun_induction parameters s sites generalizing bs s' with
  | case1 => cases h
  | case2 => cases h; exact .replicate 1 _
  | case3 s site rest n hn d s₁ _ bs₁ s₂ hrest ih =>
    cases h
    exact .name hn (ih _ _ hrest)
  | case4 => cases h
  | case5 s site rest bs₁ s₂ hrest _ _ ih =>
    cases h
    exact .unbound (ih _ _ hrest)
  | case6 => cases h

theorem bindsNames_functionParams (method : Bool) (s : ScopeState) (sites : List Site) :
    BindsNames sites (functionParams method s sites) := by
  intro bs s' h
  unfold functionParams at h
  split at h
  · rename_i site rest
    split at h
    · dsimp only at h
      split at h
      · rename_i hparams
        cases h
        exact .unbound (bindsNames_parameters _ rest _ _ hparams)
      · cases h
    · cases h
  · cases h

theorem bindsNames_functionHeader (known : Option Binding) (s : ScopeState) (sites : List Site) :
    BindsNames sites (functionHeader known s sites) := by
  intro bs s' h
  unfold functionHeader at h
  split at h
  · cases h
  · rename_i site rest
    split at h
    · rename_i n hn
      dsimp only at h
      split at h
      · rename_i bs₁ s₂ hparams
        cases h
        refine .name hn (.append (.replicate _ _) ?_)
        rw [List.length_replicate, ← namePath_drop]
        exact bindsNames_functionParams _ _ _ _ _ hparams
      · cases h
    · exact bindsNames_functionParams _ _ _ _ _ h

theorem bindsNames_localFunction (s : ScopeState) (sites : List Site) :
    BindsNames sites (localFunction s sites) := by
  intro bs s' h
  unfold localFunction at h
  split at h
  · split at h
    · exact bindsNames_functionHeader _ _ _ _ _ h
    · cases h
  · cases h

theorem bindsNames_localStatement (s : ScopeState) (site : Site) (sites : List Site) :
    BindsNames sites (localStatement s site sites) := by
  have hnames := onNames_declareNames true s sites
  intro bs s' h
  unfold localStatement at h
  dsimp only at h
  split at h
  · cases h
  · split at h
    · split at h <;> cases h <;> exact hnames
    · cases h
      exact hnames

theorem advances_stepKeyword (s : ScopeState) (site : Site) (rest : List Site) (k : Keyword) :
    Advances (site :: rest) (stepKeyword s site rest k) := by
  cases k with
  | localKw =>
    cases rest with
    | nil => exact .error _
    | cons f rest =>
      rw [stepKeyword]
      split
      · exact .after (Advances.after (bindsNames_localFunction s rest)).bindsNames
      · exact .after (bindsNames_localStatement s site _)
  | functionKw => exact .after (bindsNames_functionHeader none s rest)
  | forKw =>
    intro bs s' h
    cases h
    exact ⟨List.cons_ne_nil _ _, .unbound (onNames_declareNames false s rest)⟩
  | doKw =>
    rw [stepKeyword]
    split <;> exact .pass 0 _
  | untilKw =>
    rw [stepKeyword]
    split <;> exact .pass 0 _
  | gotoKw => exact .pass 1 s
  | _ => exact .pass 0 _

theorem advances_step (s : ScopeState) (site : Site) (rest : List Site) :
    Advances (site :: rest) (step s site rest) := by
  unfold step
  split
  · exact advances_stepKeyword s site rest _
  · split
    · split
      · exact .pass 2 s
      · exact .pass 0 s
    · exact .pass 0 s
  · exact .pass 0 _
  · exact .pass 0 _
  · exact .pass 0 _
  · exact .pass 0 _
  · exact .pass 0 _
  · exact .pass 0 _
  · rename_i n hn
    intro bs s' h
    cases h
    exact ⟨List.cons_ne_nil _ _, .name hn (.nil_right rest)⟩
  · exact .pass 0 s

end Steps

/-- The walk gives every token a binding, and it binds names only. -/
theorem onNames_walk {s s' : ScopeState} {sites : List Site} {bs : List Binding}
    (h : walk s sites = .ok (bs, s')) : sites.length ≤ bs.length ∧ OnNames sites bs := by
  fun_induction walk s sites generalizing bs s' with
  | case1 => exact ⟨Nat.zero_le _, .nil_left _⟩
  | case2 => cases h
  | case3 => cases h
  | case4 s site rest bs₁ s₁ hstep more s₂ hwalk ih =>
    cases h
    obtain ⟨hne, hfirst⟩ := advances_step _ _ _ _ _ hstep
    obtain ⟨hlength, hrest⟩ := ih hwalk
    obtain ⟨b, bs₁, rfl⟩ := List.exists_cons_of_ne_nil hne
    refine ⟨?_, hfirst.append hrest⟩
    simp only [List.length_drop, List.length_append, List.length_cons] at hlength ⊢
    omega

/-! ### The plan -/

/-- What replaces a token: nothing, or a tag if it is a name. -/
def Replaces (t : Token) (r : Option (List Char)) : Prop :=
  ∀ text, r = some text → ∃ n letter number, t = .name n ∧ (letter = 'L' ∨ letter = 'G') ∧
    text = tag letter number n

theorem replaces_replacement {options : RenameOptions} {tagged : List (List Char)} {t : Token}
    {b : Binding} (h : b = .unbound ∨ t.isName = true) :
    Replaces t (replacement? options tagged t b) := by
  intro text htext
  rcases h with rfl | hname
  · cases htext
  cases t with
  | name n =>
    cases b with
    | unbound => cases htext
    | declared d =>
      rw [replacement?] at htext
      split at htext
      · cases htext
        exact ⟨n, 'L', d.id + 1, rfl, .inl rfl, rfl⟩
      · cases htext
    | global =>
      rw [replacement?] at htext
      split at htext
      · obtain ⟨k, -, rfl⟩ := Option.map_eq_some_iff.mp htext
        exact ⟨n, 'G', k + 1, rfl, .inr rfl, rfl⟩
      · cases htext
  | keyword _ | number _ | string _ | comment _ | symbol _ => cases hname

theorem replaces_zipWith {options : RenameOptions} {tagged : List (List Char)} {c : Cursor}
    {tokens : List Token} {bs : List Binding} (hlength : tokens.length ≤ bs.length)
    (h : OnNames (c.sites tokens) bs) :
    List.Forall₂ Replaces tokens (List.zipWith (replacement? options tagged) tokens bs) := by
  induction tokens generalizing c bs with
  | nil => exact .nil
  | cons t tokens ih =>
    cases bs with
    | nil => cases hlength
    | cons b bs => exact .cons (replaces_replacement h.1) (ih (Nat.le_of_succ_le_succ hlength) h.2)

/-- A plan has an entry for every token, and it replaces names only, by tags of their own. -/
theorem replaces_plan {options : RenameOptions} {tokens : List Token}
    {renamed : List (Option (List Char))} (h : plan options tokens = .ok renamed) :
    List.Forall₂ Replaces tokens renamed := by
  unfold plan at h
  split at h
  · split at h
    · rename_i bs s hwalk
      cases h
      obtain ⟨hlength, hnames⟩ := onNames_walk hwalk
      rw [Cursor.sites_start] at hlength hnames
      rw [Cursor.sites_length] at hlength
      exact replaces_zipWith hlength hnames
    · cases h
  · cases h
    rw [List.forall₂_map_right_iff]
    exact List.forall₂_same.mpr fun t _ => nofun

end LuaBundle.Lua
