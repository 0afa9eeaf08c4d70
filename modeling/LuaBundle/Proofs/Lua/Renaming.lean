import LuaBundle.Lua.Rename
import LuaBundle.Proofs.Lua.Binding
import LuaBundle.Proofs.Lua.Statements

/-!
# Renaming and scopes

A name gets the tag of the declaration it is bound to, and different declarations have different
tags.
-/
namespace LuaBundle.Lua

/-! ### Tags -/

def isLocalTag (text : List Char) : Bool := ['L', '_'].isPrefixOf text

theorem isLocalTag_localTag (d : Decl) (name : List Char) :
    isLocalTag (localTag d name) = true := by
  simp [isLocalTag, localTag, tag]

theorem not_isLocalTag_globalTag {tagged : List (List Char)} {name text : List Char}
    (h : globalTag? tagged name = some text) : isLocalTag text = false := by
  obtain ⟨k, -, rfl⟩ := Option.map_eq_some_iff.mp h
  rfl

theorem toDigits_injective {m n : Nat} (h : Nat.toDigits 10 m = Nat.toDigits 10 n) : m = n := by
  rw [← Nat.ofDigitChars_ten_toDigits (n := m), h, Nat.ofDigitChars_ten_toDigits]

/-- The number in a tag ends at the first underscore behind it. -/
theorem tag_injective {letter letter' : Char} {number number' : Nat} {name name' : List Char}
    (h : tag letter number name = tag letter' number' name') :
    letter = letter' ∧ number = number' ∧ name = name' := by
  obtain ⟨hletter, hrest⟩ : letter = letter' ∧
      Nat.toDigits 10 number ++ '_' :: name = Nat.toDigits 10 number' ++ '_' :: name' := by
    simpa [tag] using h
  have htake : ∀ (n : Nat) (name : List Char),
      (Nat.toDigits 10 n ++ '_' :: name).takeWhile (· != '_') = Nat.toDigits 10 n := by
    intro n name
    rw [List.takeWhile_append_of_pos, List.takeWhile_cons_of_neg (by simp), List.append_nil]
    intro c hc
    have : c ≠ '_' := fun h => Nat.underscore_not_in_toDigits (h ▸ hc)
    simpa using this
  have hdigits : Nat.toDigits 10 number = Nat.toDigits 10 number' := by
    rw [← htake _ name, hrest, htake]
  rw [hdigits] at hrest
  exact ⟨hletter, toDigits_injective hdigits, by simpa using hrest⟩

theorem localTag_injective {d d' : Decl} {name name' : List Char}
    (h : localTag d name = localTag d' name') : d.id = d'.id ∧ name = name' := by
  obtain ⟨-, hnumber, hname⟩ := tag_injective h
  exact ⟨by omega, hname⟩

/-! ### Scopes of a chunk -/

/-- The declaration that a token is bound to, if it is written in the chunk. -/
def Role.declaration? : Role → Option Variable
  | declares v | refers v => if v.implicit then none else some v
  | free | other => none

theorem Role.written {r : Role} {v : Variable} (h : r.declaration? = some v) :
    v.implicit = false := by
  cases r with
  | declares w | refers w =>
    rw [declaration?] at h
    split at h
    · cases h
    · rename_i hw
      rw [← Option.some.inj h]
      simpa using hw
  | free | other => cases h

theorem eq_of_localTag_eq {v w : Variable} (hv : v.implicit = false) (hw : w.implicit = false)
    (h : localTag v.decl v.name = localTag w.decl w.name) : v = w := by
  obtain ⟨hid, hname⟩ := localTag_injective h
  obtain ⟨number, name, implicit⟩ := v
  obtain ⟨number', name', implicit'⟩ := w
  cases hv
  cases hw
  cases hname
  cases (show number = number' from hid)
  rfl

/-- Every declaration is a variable of its own, and a name bound to a written one stands behind it. -/
structure Resolved (tokens : List Token) (roles : List Role) : Prop where
  fits : List.Forall₂ Role.Fits roles tokens
  unique : ∀ (i j : Nat) v, roles[i]? = some (.declares v) → roles[j]? = some (.declares v) → i = j
  declared : ∀ (i : Nat) v, roles[i]? = some (.refers v) → v.implicit = false →
    ∃ j < i, roles[j]? = some (.declares v)

/-- Numbers grow from one declaration to the next. -/
theorem Binds.eq_of_number {k count : Nat} {tokens : List Token} {roles : List Role} {Γ Γ' : Env}
    (h : Binds Γ k count tokens roles Γ') {i j : Nat} {v w : Variable}
    (hi : roles[i]? = some (.declares v)) (hj : roles[j]? = some (.declares w))
    (hnumber : v.number = w.number) : i = j := by
  have hlt : ∀ (i j : Nat) v w, roles[i]? = some (.declares v) → roles[j]? = some (.declares w) →
      i < j → v.number < w.number := by
    intro i j v w hi hj hij
    obtain ⟨hi', hi⟩ := List.getElem?_eq_some_iff.mp hi
    obtain ⟨hj', hj⟩ := List.getElem?_eq_some_iff.mp hj
    have hordered := List.pairwise_iff_getElem.mp (List.pairwise_filterMap.mp h.ordered)
      i j hi' hj' hij
    rw [hi, hj] at hordered
    exact hordered v rfl w rfl
  have := hlt i j v w hi hj
  have := hlt j i w v hj hi
  omega

theorem Binds.resolved {k count : Nat} {tokens : List Token} {roles : List Role} {Γ : Env}
    (h : Binds [] k count tokens roles Γ) : Resolved tokens roles where
  fits := h.fits
  unique := fun _ _ _ hi hj => h.eq_of_number hi hj rfl
  declared := by
    intro i v hi hwritten
    rcases h.known i v hi with himp | hv | hdecl
    · rw [hwritten] at himp
      cases himp
    · cases hv
    · exact hdecl

/-- The replacements follow the scopes: tokens get the tag of the declaration that they are bound
to, tokens that are bound to none get no tag of a local, and equal tags mean equal declarations. -/
structure Renamed (tokens : List Token) (roles : List Role) (out : List (Option (List Char))) :
    Prop where
  length : out.length = tokens.length
  bound : ∀ (i : Nat) r v, roles[i]? = some r → r.declaration? = some v →
    out[i]? = some (some (localTag v.decl v.name))
  unbound : ∀ (i : Nat) r, roles[i]? = some r → r.declaration? = none →
    ∀ text, out[i]? = some (some text) → isLocalTag text = false
  same : ∀ (i j : Nat) r r', roles[i]? = some r → roles[j]? = some r' →
    ((∃ text, isLocalTag text = true ∧ out[i]? = some (some text) ∧ out[j]? = some (some text)) ↔
      ∃ v, r.declaration? = some v ∧ r'.declaration? = some v)

section

variable {tokens : List Token} {roles : List Role} {out : List (Option (List Char))}
  {tagged : List (List Char)} {globals : Bool}

theorem getElem?_of_forall₂ {α β : Type} {R : α → β → Prop} {xs : List α} {ys : List β}
    (h : List.Forall₂ R xs ys) {i : Nat} {x : α} (hx : xs[i]? = some x) :
    ∃ y, ys[i]? = some y ∧ R x y := by
  induction h generalizing i with
  | nil =>
    rw [List.getElem?_nil] at hx
    cases hx
  | cons hr _ ih =>
    cases i with
    | zero =>
      cases hx
      exact ⟨_, rfl, hr⟩
    | succ i => exact ih hx

theorem replacement_of_variable {v w : Variable} {t : Token} (ht : t = .name w.name)
    (hv : (if w.implicit then none else some w) = some v) :
    replacement? ⟨true, globals⟩ tagged t (.declared w.decl) = some (localTag v.decl v.name) := by
  cases himp : w.implicit with
  | true =>
    rw [himp] at hv
    cases hv
  | false =>
    rw [himp] at hv
    cases hv
    rw [ht]
    exact if_pos ⟨rfl, by simp [Variable.decl, himp]⟩

theorem replacement_declared {r : Role} {t : Token} {v : Variable} (hfits : r.Fits t)
    (hv : r.declaration? = some v) :
    replacement? ⟨true, globals⟩ tagged t r.binding = some (localTag v.decl v.name) := by
  cases r with
  | declares w | refers w => exact replacement_of_variable hfits hv
  | free | other => cases hv

theorem replacement_of_receiver {w : Variable} {t : Token}
    (hw : (if w.implicit then none else some w) = none) :
    replacement? ⟨true, globals⟩ tagged t (.declared w.decl) = none := by
  cases himp : w.implicit with
  | true => exact if_neg (by simp [Variable.decl, himp])
  | false =>
    rw [himp] at hw
    cases hw

theorem replacement_undeclared {r : Role} {t : Token} {text : List Char}
    (hr : r.declaration? = none)
    (htext : replacement? ⟨true, globals⟩ tagged t r.binding = some text) :
    isLocalTag text = false := by
  cases r with
  | declares w | refers w =>
    rw [Role.binding, replacement_of_receiver hr] at htext
    cases htext
  | free =>
    rw [Role.binding, replacement?] at htext
    split at htext
    · exact not_isLocalTag_globalTag htext
    · cases htext
  | other => cases htext

/-- Bindings that are those of the scopes rename as the scopes say. -/
theorem renamed_of_fits (hfits : List.Forall₂ Role.Fits roles tokens) :
    Renamed tokens roles
      (List.zipWith (replacement? ⟨true, globals⟩ tagged) tokens (bindings roles)) := by
  have hout : ∀ (i : Nat) r, roles[i]? = some r → ∃ t, r.Fits t ∧
      (List.zipWith (replacement? ⟨true, globals⟩ tagged) tokens (bindings roles))[i]? =
        some (replacement? ⟨true, globals⟩ tagged t r.binding) := by
    intro i r hr
    obtain ⟨t, ht, hfit⟩ := getElem?_of_forall₂ hfits hr
    exact ⟨t, hfit, by simp [List.getElem?_zipWith, bindings, ht, hr]⟩
  have hbound : ∀ (i : Nat) r v, roles[i]? = some r → r.declaration? = some v →
      (List.zipWith (replacement? ⟨true, globals⟩ tagged) tokens (bindings roles))[i]? =
        some (some (localTag v.decl v.name)) := by
    intro i r v hr hv
    obtain ⟨t, hfit, hi⟩ := hout i r hr
    rw [hi, replacement_declared hfit hv]
  have hunbound : ∀ (i : Nat) r, roles[i]? = some r → r.declaration? = none → ∀ text,
      (List.zipWith (replacement? ⟨true, globals⟩ tagged) tokens (bindings roles))[i]? =
        some (some text) → isLocalTag text = false := by
    intro i r hr hnone text htext
    obtain ⟨t, -, hi⟩ := hout i r hr
    rw [hi] at htext
    exact replacement_undeclared hnone (Option.some.inj htext)
  refine ⟨?_, hbound, hunbound, fun i j r r' hr hr' => ⟨?_, ?_⟩⟩
  · rw [List.length_zipWith, bindings, List.length_map, hfits.length_eq, Nat.min_self]
  · rintro ⟨text, htag, hi, hj⟩
    cases hv : r.declaration? with
    | none =>
      rw [hunbound i r hr hv text hi] at htag
      cases htag
    | some v =>
      cases hw : r'.declaration? with
      | none =>
        rw [hunbound j r' hr' hw text hj] at htag
        cases htag
      | some w =>
        rw [hbound i r v hr hv] at hi
        rw [hbound j r' w hr' hw] at hj
        have htags : localTag v.decl v.name = localTag w.decl w.name := by
          rw [Option.some.inj (Option.some.inj hi), Option.some.inj (Option.some.inj hj)]
        have heq : v = w := eq_of_localTag_eq (Role.written hv) (Role.written hw) htags
        exact ⟨v, rfl, congrArg some heq.symm⟩
  · rintro ⟨v, hv, hv'⟩
    exact ⟨_, isLocalTag_localTag _ _, hbound i r v hr hv, hbound j r' v hr' hv'⟩

end

/-! ### Chunks -/

/-- In a chunk without anonymous functions and without statements that begin with a parenthesis,
renaming follows the scopes. -/
theorem plan_respects_scope (globals : Bool) (b : Tree .block) (h : b.plainly = true) :
    ∃ out, plan ⟨true, globals⟩ b.tokens = .ok out ∧ Resolved b.tokens (b.roles [] 0) ∧
      Renamed b.tokens (b.roles [] 0) out := by
  obtain ⟨s, hrun, -, -⟩ := b.walked h 0 [] .start .initial [] 0 [] Cursor.level_start .initial .nil
  have hresolved := (b.bound [] 0).resolved
  have hwalk : walk .initial (sites b.tokens) = .ok (bindings (b.roles [] 0), s) := by
    have hrun := hrun.walk
    rw [List.append_nil, Cursor.sites, walk, ← Cursor.sites_start] at hrun
    simpa [Except.map] using hrun
  refine ⟨List.zipWith (replacement? ⟨true, globals⟩ (taggedGlobals s)) b.tokens
    (bindings (b.roles [] 0)), ?_, hresolved, renamed_of_fits hresolved.fits⟩
  rw [plan, if_pos (.inl rfl), hwalk]

/-- `local x = x repeat local x <const> = x until x function m:f(a) return self, a end` -/
def shadowing : Tree .block :=
  let use (n : Name) : Tree .expr := .plain (.read (.name n))
  .cons (.localsInit ⟨['x'], none⟩ [] (.one (use ['x'])))
    (.cons (.repeatUntil
        (.cons (.localsInit ⟨['x'], some ['c', 'o', 'n', 's', 't']⟩ [] (.one (use ['x']))) .nothing)
        (use ['x']))
      (.cons (.functionNamed ⟨['m'], [], some ['f']⟩ ⟨[['a']], false⟩
          (.retValues (.more (use ['s', 'e', 'l', 'f']) (.one (use ['a']))) false))
        .nothing))

/-- The inner `x` hides the outer one up to the end of the loop, but not in its own initialiser. -/
theorem shadowing_renamed : shadowing.plainly = true ∧
    ∃ out, plan ⟨true, true⟩ shadowing.tokens = .ok out ∧
      out[1]? = some (some ['L', '_', '1', '_', 'x']) ∧
      out[11]? = some (some ['L', '_', '1', '_', 'x']) ∧
      out[13]? = some (some ['L', '_', '2', '_', 'x']) ∧
      out[24]? = some (some ['L', '_', '4', '_', 'a']) ∧
      ∀ text, out[22]? = some (some text) → isLocalTag text = false := by
  have h : shadowing.plainly = true := by decide
  obtain ⟨out, hplan, -, hrenamed⟩ := plan_respects_scope true shadowing h
  refine ⟨h, out, hplan, ?_, ?_, ?_, ?_, ?_⟩
  · exact hrenamed.bound 1 _ _ rfl rfl
  · exact hrenamed.bound 11 _ _ rfl rfl
  · exact hrenamed.bound 13 _ _ rfl rfl
  · exact hrenamed.bound 24 _ _ rfl rfl
  · exact hrenamed.unbound 22 _ rfl rfl

end LuaBundle.Lua
