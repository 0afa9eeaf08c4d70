import LuaBundle.Proofs.Lua.Parts
import LuaBundle.Proofs.Lua.Renaming
import Mathlib

/-!
# Tags of any stream

What a plan gives to the tokens of any stream, chunk or not: the tag of a local goes back to the
token that declares it, and the tags of globals number the globals that are tagged.
-/
namespace LuaBundle.Lua

/-! ### Selected names -/

/-- Every site knows the token before it. -/
abbrev Linked (sites : List Site) : Prop :=
  sites.IsChain fun site next => next.before = some site.token

theorem Cursor.linked (c : Cursor) (ts : List Token) : Linked (c.sites ts) := by
  induction ts generalizing c with
  | nil => exact .nil
  | cons t ts ih =>
    cases ts with
    | nil => exact .singleton _
    | cons u ts => exact .cons_cons rfl (ih (c.next t))

/-- No name is selected from a table but a parameter. -/
def Unselected : List Site → List Part → Prop
  | site :: sites, p :: ps =>
    ((p.declares = true ∨ p.looksUp = true) → p = .parameter ∨ site.isSelected = false) ∧
      Unselected sites ps
  | _, _ => True

namespace Unselected

variable {sites rest : List Site} {site : Site} {ps ps' : List Part} {p : Part}

theorem nil_left (ps : List Part) : Unselected [] ps := by
  cases ps <;> trivial

theorem nil_right (sites : List Site) : Unselected sites [] := by
  cases sites <;> trivial

theorem append (h : Unselected sites ps) (h' : Unselected (sites.drop ps.length) ps') :
    Unselected sites (ps ++ ps') := by
  induction ps generalizing sites with
  | nil => exact h'
  | cons p ps ih =>
    cases sites with
    | nil => exact nil_left _
    | cons site sites => exact ⟨h.1, ih h.2 h'⟩

theorem of_all (sites : List Site) (h : ∀ p ∈ ps, p = .parameter ∨ p = .other) :
    Unselected sites ps := by
  induction ps generalizing sites with
  | nil => exact nil_right sites
  | cons p ps ih =>
    obtain ⟨hp, hps⟩ := List.forall_mem_cons.mp h
    cases sites with
    | nil => exact nil_left _
    | cons site sites =>
      refine ⟨fun hnamed => hp.imp_right fun hother => ?_, ih sites hps⟩
      subst hother
      rcases hnamed with h | h <;> cases h

theorem others (count : Nat) (sites : List Site) :
    Unselected sites (List.replicate count .other) :=
  of_all sites fun _ hp => .inr (List.eq_of_mem_replicate hp)

theorem get (h : Unselected sites ps) {i : Nat} (hsite : sites[i]? = some site)
    (hp : ps[i]? = some p) (hnamed : p.declares = true ∨ p.looksUp = true) :
    p = .parameter ∨ site.isSelected = false := by
  induction i generalizing sites ps with
  | zero =>
    cases sites with
    | nil => cases hsite
    | cons site sites =>
      cases ps with
      | nil => cases hp
      | cons p ps =>
        cases hsite
        cases hp
        exact h.1 hnamed
  | succ i ih =>
    cases sites with
    | nil => cases hsite
    | cons site sites =>
      cases ps with
      | nil => cases hp
      | cons p ps => exact ih h.2 hsite hp

end Unselected

section Selected

variable {site prev : Site} {sites rest : List Site}

theorem not_isSelected (h : Linked (prev :: site :: rest)) (hprev : prev.token.selects = false) :
    site.isSelected = false := by
  have hbefore : site.before = some prev.token := (List.isChain_cons_cons.mp h).1
  rw [Site.isSelected, hbefore]
  exact hprev

theorem unselected_nameParts (attribs : Bool) (prev : Site) (sites : List Site)
    (h : Linked (prev :: sites)) (hprev : prev.token.selects = false) :
    Unselected sites (nameParts attribs sites) := by
  fun_induction nameParts attribs sites generalizing prev with
  | case1 => trivial
  | case2 site rest hname skipped hdrop =>
    exact ⟨fun _ => .inr (not_isSelected h hprev), .others _ _⟩
  | case3 site rest hname skipped c after hdrop hcomma ih =>
    have hfirst : Unselected (site :: rest) (.localName :: List.replicate skipped .other) :=
      ⟨fun _ => .inr (not_isSelected h hprev), .others _ _⟩
    refine hfirst.append ?_
    rw [List.length_cons, List.length_replicate, List.drop_succ_cons, hdrop]
    refine ⟨by simp [Part.declares, Part.looksUp], ih c ?_ (by rw [hcomma]; rfl)⟩
    rw [← hdrop]
    exact List.IsChain.drop (List.IsChain.tail (List.IsChain.tail h)) skipped
  | case4 site rest hname skipped c after hdrop hcomma =>
    exact ⟨fun _ => .inr (not_isSelected h hprev), .others _ _⟩
  | case5 => exact .nil_right _

theorem mem_listParts (sites : List Site) : ∀ p ∈ listParts sites, p = .parameter ∨ p = .other := by
  fun_induction listParts sites <;> simp_all

theorem mem_openParts (sites : List Site) : ∀ p ∈ openParts sites, p = .parameter ∨ p = .other := by
  cases sites with
  | nil => exact nofun
  | cons site rest => exact List.forall_mem_cons.mpr ⟨.inr rfl, mem_listParts rest⟩

theorem unselected_pathParts (sites : List Site) : Unselected sites (pathParts sites) := by
  refine .of_all sites fun p hp => ?_
  rcases List.mem_append.mp hp with hp | hp
  · exact .inr (List.eq_of_mem_replicate hp)
  · exact mem_openParts _ p hp

theorem unselected_headerParts (isLocal : Bool) (prev : Site) (sites : List Site)
    (h : Linked (prev :: sites)) (hprev : prev.token.selects = false) :
    Unselected sites (headerParts isLocal sites) := by
  cases sites with
  | nil => trivial
  | cons site rest =>
    rw [headerParts]
    split
    · exact ⟨fun _ => .inr (not_isSelected h hprev), unselected_pathParts rest⟩
    · exact .of_all _ (mem_openParts _)

theorem unselected_stepParts (site : Site) (rest : List Site) (h : Linked (site :: rest)) :
    Unselected (site :: rest) (stepParts site rest) := by
  have others : ∀ ps : List Part, (∀ p ∈ ps, p = .other) → Unselected (site :: rest) ps :=
    fun ps hps => .of_all _ fun p hp => .inr (hps p hp)
  have cons : ∀ ps, Unselected rest ps → Unselected (site :: rest) (.other :: ps) := fun ps hps =>
    ⟨by simp [Part.declares, Part.looksUp], hps⟩
  have hparts := stepParts.eq_def site rest
  cases htoken : site.token with
  | keyword k =>
    rw [hparts, htoken]
    have hkeyword : site.token.selects = false := by
      rw [htoken]
      rfl
    cases k with
    | localKw =>
      cases rest with
      | nil => exact others _ (by simp)
      | cons f rest =>
        dsimp only
        split
        · rename_i hf
          refine cons _ ⟨by simp [Part.declares, Part.looksUp], ?_⟩
          exact unselected_headerParts true f rest (List.IsChain.tail h) (by rw [hf]; rfl)
        · exact cons _ (unselected_nameParts true site _ h hkeyword)
    | functionKw => exact cons _ (unselected_headerParts false site rest h hkeyword)
    | forKw => exact cons _ (unselected_nameParts false site rest h hkeyword)
    | _ => exact others _ (by simp)
  | name n =>
    rw [hparts, htoken]
    dsimp only
    split
    · exact others _ (by simp)
    · exact ⟨fun _ => .inr (by simpa using ‹¬ site.isSelected = true›), .nil_right rest⟩
  | symbol m =>
    rw [hparts, htoken]
    cases m with
    | doubleColon =>
      rcases rest with _ | ⟨n, _ | ⟨c, rest⟩⟩
      · exact others _ (by simp)
      · exact others _ (by simp)
      · dsimp only
        split <;> exact others _ (by simp)
    | _ => exact others _ (by simp)
  | number _ | string _ | comment _ =>
    rw [hparts, htoken]
    exact others _ (by simp)

theorem unselected_parts (sites : List Site) (h : Linked sites) :
    Unselected sites (parts sites) := by
  fun_induction parts sites with
  | case1 => trivial
  | case2 site rest ih =>
    refine (unselected_stepParts site rest h).append ?_
    rw [drop_stepParts]
    exact ih (List.IsChain.drop (List.IsChain.tail h) _)

end Selected

/-! ### The plan -/

theorem map_token_sites (tokens : List Token) : (sites tokens).map (·.token) = tokens := by
  rw [Cursor.sites_start, Cursor.map_token_sites]

theorem getElem?_sites {tokens : List Token} {i : Nat} {t : Token} (h : tokens[i]? = some t) :
    ∃ site, (sites tokens)[i]? = some site ∧ site.token = t := by
  have hmap := congrArg (·[i]?) (map_token_sites tokens)
  rw [List.getElem?_map, h] at hmap
  exact Option.map_eq_some_iff.mp hmap

theorem before_of_getElem? {tokens : List Token} {i : Nat} {t : Token} {site : Site}
    (ht : tokens[i]? = some t) (hsite : (sites tokens)[i + 1]? = some site) :
    site.before = some t := by
  obtain ⟨prev, hprev, rfl⟩ := getElem?_sites ht
  obtain ⟨hlt, rfl⟩ := List.getElem?_eq_some_iff.mp hsite
  obtain ⟨hlt', rfl⟩ := List.getElem?_eq_some_iff.mp hprev
  have hlinked := Cursor.start.linked tokens
  rw [← Cursor.sites_start] at hlinked
  exact List.isChain_iff_getElem.mp hlinked i hlt

theorem fits_of_binds {Γ Γ' : Env} {k count i : Nat} {tokens : List Token} {rs : List Role}
    {r : Role} {t : Token} (h : Binds Γ k count (taken rs.length (sites tokens)) rs Γ')
    (hr : rs[i]? = some r) (ht : tokens[i]? = some t) : r.Fits t := by
  obtain ⟨site, hsite, rfl⟩ := getElem?_sites ht
  obtain ⟨t, ht', hfit⟩ := getElem?_of_forall₂ h.fits hr
  have htaken := getElem?_taken (List.getElem?_eq_some_iff.mp hr).1 hsite
  rw [ht'] at htaken
  cases htaken
  exact hfit

/-- What is recorded as assigned is the name of a global. -/
theorem mem_recorded_sites {tokens : List Token} {found : List Nat} {ps : List Part}
    {rs : List Role} {n : Name}
    (hfits : ∀ (i : Nat) r t, rs[i]? = some r → tokens[i]? = some t → r.Fits t) :
    n ∈ recorded found ps rs (sites tokens) ↔
      ∃ (i : Nat) (p : Part) (site : Site), ps[i]? = some p ∧ rs[i]? = some .free ∧
        (sites tokens)[i]? = some site ∧ p.assigns found site = true ∧
          tokens[i]? = some (.name n) := by
  rw [mem_recorded]
  constructor
  · rintro ⟨i, p, site, hp, hr, hsite, hassigns, rfl⟩
    have ht : tokens[i]? = some site.token := by
      rw [← map_token_sites tokens, List.getElem?_map, hsite]
      rfl
    refine ⟨i, p, site, hp, hr, hsite, hassigns, ?_⟩
    rw [ht, ← Token.eq_name (hfits i _ _ hr ht)]
  · rintro ⟨i, p, site, hp, hr, hsite, hassigns, hname⟩
    obtain ⟨site', hsite', htoken⟩ := getElem?_sites hname
    rw [hsite] at hsite'
    cases hsite'
    refine ⟨i, p, site, hp, hr, hsite, hassigns, ?_⟩
    rw [htoken]
    rfl

/-- A plan that renames: what every token is taken for, its role, and what replaces it; `names` are
the tagged globals. -/
structure Planned (options : RenameOptions) (tokens : List Token) (out : List (Option (List Char)))
    (rs : List Role) (names : List Name) : Prop where
  length : out.length = tokens.length
  entry : ∀ (i : Nat) t, tokens[i]? = some t → ∃ p r, (parts (sites tokens))[i]? = some p ∧
    rs[i]? = some r ∧ p.Allows r ∧ r.Fits t ∧
      out[i]? = some (replacement? options names t r.binding)
  binds : ∃ count Γ, Binds [] 0 count (taken rs.length (sites tokens)) rs Γ
  allowed : List.Forall₂ Part.Allows (parts (sites tokens)) rs
  distinct : names.Nodup
  named : ∀ n ∈ names, n ∉ standardGlobals ∧
    ∃ i : Nat, tokens[i]? = some (.name n) ∧ rs[i]? = some .free

theorem plan_planned {options : RenameOptions} {tokens : List Token}
    {out : List (Option (List Char))} (h : plan options tokens = .ok out)
    (hon : options.locals = true ∨ options.globals = true) :
    ∃ rs names, Planned options tokens out rs names := by
  have hreplaces := (replaces_plan h).length_eq
  rw [plan, if_pos hon] at h
  split at h
  · rename_i bs s hwalk
    cases h
    obtain ⟨hlength, -⟩ := onNames_walk hwalk
    obtain ⟨rs, rfl, htakes⟩ := takes_tokens hwalk
    obtain ⟨count, -, hbinds⟩ := htakes.binds
    rw [bindings, List.length_map, sites_length] at hlength
    have hfits : ∀ (i : Nat) r t, rs[i]? = some r → tokens[i]? = some t → r.Fits t :=
      fun i r t => fits_of_binds hbinds
    refine ⟨rs, taggedGlobals s, ⟨hreplaces.symm, fun i t ht => ?_, ⟨count, _, hbinds⟩,
      htakes.allowed, ?_, fun n hn => ?_⟩⟩
    · have hi : i < rs.length := Nat.lt_of_lt_of_le (List.getElem?_eq_some_iff.mp ht).1 hlength
      have hr : rs[i]? = some rs[i] := List.getElem?_eq_getElem hi
      obtain ⟨p, hp, hallows⟩ := getElem?_of_forall₂ htakes.allowed.flip hr
      refine ⟨p, rs[i], hp, hr, hallows, hfits i _ t hr ht, ?_⟩
      simp [List.getElem?_zipWith, bindings, ht, hi]
    · rw [taggedGlobals, htakes.assigned]
      exact (nodup_foldl_note _ .nil).filter _
    · obtain ⟨hassigned, hstandard⟩ := List.mem_filter.mp hn
      refine ⟨by simpa using hstandard, ?_⟩
      rw [htakes.assigned, mem_foldl_note, mem_recorded_sites hfits] at hassigned
      obtain ⟨i, -, -, -, hr, -, -, hname⟩ := hassigned.resolve_right List.not_mem_nil
      exact ⟨i, hname, hr⟩
  · cases h

theorem globalTag?_eq_some_iff {names : List Name} (hnames : names.Nodup) {n : Name}
    {text : List Char} :
    globalTag? names n = some text ↔ ∃ k : Nat, names[k]? = some n ∧ text = tag 'G' (k + 1) n := by
  rw [globalTag?, Option.map_eq_some_iff]
  constructor
  · rintro ⟨k, hk, rfl⟩
    obtain ⟨hlt, hget, -⟩ := List.idxOf?_eq_some_iff.mp hk
    exact ⟨k, by rw [List.getElem?_eq_getElem hlt, hget], rfl⟩
  · rintro ⟨k, hk, rfl⟩
    obtain ⟨hlt, hget⟩ := List.getElem?_eq_some_iff.mp hk
    refine ⟨k, List.idxOf?_eq_some_iff.mpr ⟨hlt, hget, fun j hj heq => ?_⟩, rfl⟩
    have hj' : names[j]? = names[k]? := by
      rw [hk, List.getElem?_eq_getElem (Nat.lt_trans hj hlt), heq]
    have := (List.getElem?_inj (Nat.lt_trans hj hlt) hnames).mp hj'
    omega

namespace Planned

variable {options : RenameOptions} {tokens : List Token} {out : List (Option (List Char))}
  {rs : List Role} {names : List Name}

/-- A role that makes a token the variable `v`, which is written somewhere. -/
def Names (r : Role) (v : Variable) : Prop :=
  (r = .declares v ∨ r = .refers v) ∧ v.implicit = false

theorem fits_of_names {r : Role} {v : Variable} {t : Token} (h : Names r v) (hfits : r.Fits t) :
    t = .name v.name := by
  obtain ⟨rfl | rfl, -⟩ := h
  · exact hfits
  · exact hfits

/-- What replaces a token: the tag of the local that it is bound to, or of the global. -/
theorem replacement_eq_some_iff {r : Role} {t : Token} {text : List Char} (hnames : names.Nodup)
    (hfits : r.Fits t) :
    replacement? options names t r.binding = some text ↔
      (∃ v, options.locals = true ∧ Names r v ∧ text = tag 'L' (v.number + 1) v.name) ∨
        options.globals = true ∧ r = .free ∧
          ∃ k : Nat, names[k]? = some t.text ∧ text = tag 'G' (k + 1) t.text := by
  have bound : ∀ v, r = .declares v ∨ r = .refers v →
      (replacement? options names t (.declared v.decl) = some text ↔
        options.locals = true ∧ Names r v ∧ text = tag 'L' (v.number + 1) v.name) := by
    intro v hr
    have ht : t.text = v.name := by
      rcases hr with rfl | rfl <;> rw [show t = .name v.name from hfits] <;> rfl
    rw [replacement?, Option.ite_none_right_eq_some, localTag, ht, Option.some.injEq]
    constructor
    · rintro ⟨⟨hlocals, hwritten⟩, rfl⟩
      exact ⟨hlocals, ⟨hr, by simpa [Variable.decl] using hwritten⟩, rfl⟩
    · rintro ⟨hlocals, ⟨-, hwritten⟩, rfl⟩
      exact ⟨⟨hlocals, by simp [Variable.decl, hwritten]⟩, rfl⟩
  cases r with
  | declares v | refers v =>
    rw [Role.binding, bound v (by simp)]
    simp [Names]
  | free =>
    rw [Role.binding, replacement?, Option.ite_none_right_eq_some, globalTag?_eq_some_iff hnames]
    simp [Names]
  | other => simp [Role.binding, replacement?, Names]

theorem entry_some (h : Planned options tokens out rs names) {i : Nat} {text : List Char}
    (hi : out[i]? = some (some text)) :
    ∃ t p r, tokens[i]? = some t ∧ (parts (sites tokens))[i]? = some p ∧ rs[i]? = some r ∧
      p.Allows r ∧ r.Fits t ∧ replacement? options names t r.binding = some text := by
  have hlt : i < tokens.length := by
    rw [← h.length]
    exact (List.getElem?_eq_some_iff.mp hi).1
  have ht := List.getElem?_eq_getElem hlt
  obtain ⟨p, r, hp, hr, hallows, hfits, hout⟩ := h.entry i _ ht
  rw [hi] at hout
  exact ⟨tokens[i], p, r, ht, hp, hr, hallows, hfits, (Option.some.inj hout).symm⟩

/-- A token with the tag of a local names the variable of that number. -/
theorem of_localTag (h : Planned options tokens out rs names) {i number : Nat} {n : Name}
    (hi : out[i]? = some (some (tag 'L' number n))) :
    options.locals = true ∧
      ∃ r v, rs[i]? = some r ∧ Names r v ∧ v.name = n ∧ v.number + 1 = number := by
  obtain ⟨t, p, r, -, -, hr, -, hfits, htext⟩ := h.entry_some hi
  rcases (replacement_eq_some_iff h.distinct hfits).mp htext with
    ⟨v, hlocals, hv, htag⟩ | ⟨-, -, k, -, htag⟩
  · obtain ⟨-, hnumber, hname⟩ := tag_injective htag
    exact ⟨hlocals, r, v, hr, hv, hname.symm, hnumber.symm⟩
  · exact absurd (tag_injective htag).1 (by decide)

theorem of_globalTag (h : Planned options tokens out rs names) {i number : Nat} {n : Name}
    (hi : out[i]? = some (some (tag 'G' number n))) :
    options.globals = true ∧ tokens[i]? = some (.name n) ∧ rs[i]? = some .free ∧
      ∃ k : Nat, names[k]? = some n ∧ number = k + 1 := by
  obtain ⟨t, p, r, ht, -, hr, -, hfits, htext⟩ := h.entry_some hi
  rcases (replacement_eq_some_iff h.distinct hfits).mp htext with
    ⟨v, -, -, htag⟩ | ⟨hglobals, rfl, k, hk, htag⟩
  · exact absurd (tag_injective htag).1 (by decide)
  · obtain ⟨-, rfl, rfl⟩ := tag_injective htag
    refine ⟨hglobals, ?_, hr, k, hk, rfl⟩
    rw [ht, ← Token.eq_name hfits]

/-- A token that declares gets the tag of its variable, if locals are renamed. -/
theorem declares (h : Planned options tokens out rs names) {i : Nat} {p : Part}
    (hp : (parts (sites tokens))[i]? = some p) (hdeclares : p.declares = true) :
    ∃ v, rs[i]? = some (.declares v) ∧ v.implicit = false ∧ tokens[i]? = some (.name v.name) ∧
      (options.locals = true → out[i]? = some (some (tag 'L' (v.number + 1) v.name))) := by
  obtain ⟨r, hr, hallows⟩ := getElem?_of_forall₂ h.allowed hp
  obtain ⟨v, rfl, himplicit⟩ : ∃ v, r = .declares v ∧ v.implicit = false := by
    cases p <;> first | exact hallows | cases hdeclares
  obtain ⟨count, Γ, hbinds⟩ := h.binds
  obtain ⟨t, ht, hfits⟩ := getElem?_of_forall₂ hbinds.fits hr
  cases (show t = .name v.name from hfits)
  have hname : tokens[i]? = some (.name v.name) := by
    rw [← map_token_sites tokens]
    exact (of_getElem?_taken ht).resolve_left nofun
  refine ⟨v, hr, himplicit, hname, fun hlocals => ?_⟩
  obtain ⟨-, r, -, hr', -, -, hout⟩ := h.entry i _ hname
  rw [hr] at hr'
  cases hr'
  rw [hout]
  exact congrArg some ((replacement_eq_some_iff h.distinct hfits).mpr
    (.inl ⟨v, hlocals, ⟨.inl rfl, himplicit⟩, rfl⟩))

end Planned

/-! ### Tags -/

theorem Part.declares_of_allows {p : Part} {v : Variable} (h : p.Allows (.declares v)) :
    p.declares = true := by
  cases p with
  | localName | parameter => rfl
  | callee whole => cases (show some v = none from h.1)
  | use | other => cases h

/-- The token declares a name: a local, a variable of a loop, or a parameter. -/
def Declares (tokens : List Token) (i : Nat) : Prop :=
  ∃ p, (parts (sites tokens))[i]? = some p ∧ p.declares = true

/-- Names get tags of their own, declarations tags of different numbers, and the names of the tagged
globals the numbers from one on; a tag of a local goes back to the token that declares it. -/
structure WellTagged (options : RenameOptions) (tokens : List Token)
    (out : List (Option (List Char))) : Prop where
  length : out.length = tokens.length
  own : ∀ (i : Nat) text, out[i]? = some (some text) → ∃ n number, tokens[i]? = some (.name n) ∧
    0 < number ∧ (options.locals = true ∧ text = tag 'L' number n ∨
      options.globals = true ∧ text = tag 'G' number n)
  selected : ∀ (i : Nat) t text, tokens[i]? = some t → t.selects = true →
    out[i + 1]? = some (some text) → (parts (sites tokens))[i + 1]? = some .parameter
  globals : ∃ names : List Name, names.Nodup ∧ ∀ k n,
    (∃ i : Nat, out[i]? = some (some (tag 'G' (k + 1) n))) ↔ names[k]? = some n
  declared : options.locals = true → ∀ i, Declares tokens i →
    ∃ n number, tokens[i]? = some (.name n) ∧ out[i]? = some (some (tag 'L' number n))
  unique : ∀ (i j : Nat), Declares tokens i → Declares tokens j → ∀ number n m,
    out[i]? = some (some (tag 'L' number n)) → out[j]? = some (some (tag 'L' number m)) → i = j
  precedes : ∀ (i : Nat) number n, out[i]? = some (some (tag 'L' number n)) →
    ∃ j ≤ i, Declares tokens j ∧ out[j]? = some (some (tag 'L' number n))

theorem WellTagged.name_of_tag {options : RenameOptions} {tokens : List Token}
    {out : List (Option (List Char))} {i number : Nat} {c : Char} {n : Name}
    (h : WellTagged options tokens out) (hi : out[i]? = some (some (tag c number n))) :
    tokens[i]? = some (.name n) := by
  obtain ⟨m, number', hm, -, ⟨-, htag⟩ | ⟨-, htag⟩⟩ := h.own i _ hi
  · obtain ⟨-, -, rfl⟩ := tag_injective htag
    exact hm
  · obtain ⟨-, -, rfl⟩ := tag_injective htag
    exact hm

theorem getElem?_unreplaced (tokens : List Token) (i : Nat) (text : List Char) :
    (tokens.map fun _ => (none : Option (List Char)))[i]? ≠ some (some text) := by
  intro h
  rw [List.getElem?_map, Option.map_eq_some_iff] at h
  obtain ⟨t, -, h⟩ := h
  cases h

/-- Without renaming, nothing is tagged. -/
theorem wellTagged_off {options : RenameOptions} {tokens : List Token}
    (hlocals : options.locals = false) :
    WellTagged options tokens (tokens.map fun _ => none) := by
  have hnone := getElem?_unreplaced tokens
  refine ⟨List.length_map _, fun i text h => absurd h (hnone i text),
    fun i t text _ _ h => absurd h (hnone _ text), ⟨[], .nil, fun k n => ?_⟩, ?_,
    fun i j _ _ number n _ h => absurd h (hnone i _), fun i number n h => absurd h (hnone i _)⟩
  · exact iff_of_false (fun ⟨i, h⟩ => hnone i _ h) nofun
  · intro h
    rw [hlocals] at h
    cases h

namespace Planned

variable {options : RenameOptions} {tokens : List Token} {out : List (Option (List Char))}
  {rs : List Role} {names : List Name}

theorem own (h : Planned options tokens out rs names) {i : Nat} {text : List Char}
    (hi : out[i]? = some (some text)) :
    ∃ n number, tokens[i]? = some (.name n) ∧ 0 < number ∧
      (options.locals = true ∧ text = tag 'L' number n ∨
        options.globals = true ∧ text = tag 'G' number n) := by
  obtain ⟨t, p, r, ht, -, -, -, hfits, htext⟩ := h.entry_some hi
  rcases (replacement_eq_some_iff h.distinct hfits).mp htext with
    ⟨v, hlocals, hv, rfl⟩ | ⟨hglobals, rfl, k, -, rfl⟩
  · exact ⟨v.name, _, fits_of_names hv hfits ▸ ht, Nat.succ_pos _, .inl ⟨hlocals, rfl⟩⟩
  · refine ⟨t.text, _, ?_, Nat.succ_pos k, .inr ⟨hglobals, rfl⟩⟩
    rw [ht, ← Token.eq_name hfits]

/-- Of the tokens behind a dot or a colon, only parameters are tagged. -/
theorem parameter_of_selected (h : Planned options tokens out rs names) {i : Nat} {t : Token}
    {text : List Char} (ht : tokens[i]? = some t) (hselects : t.selects = true)
    (hi : out[i + 1]? = some (some text)) :
    (parts (sites tokens))[i + 1]? = some .parameter := by
  obtain ⟨u, p, r, hu, hp, -, hallows, hfits, htext⟩ := h.entry_some hi
  obtain ⟨site, hsite, -⟩ := getElem?_sites hu
  have hlinked : Linked (sites tokens) := by
    rw [Cursor.sites_start]
    exact Cursor.start.linked tokens
  have hnamed : p.declares = true ∨ p.looksUp = true := by
    cases p with
    | other =>
      cases (show r = .other from hallows)
      cases htext
    | _ => simp [Part.declares, Part.looksUp]
  rcases (unselected_parts _ hlinked).get hsite hp hnamed with rfl | hselected
  · exact hp
  · rw [Site.isSelected, before_of_getElem? ht hsite, Option.any_some, hselects] at hselected
    cases hselected

/-- The tagged globals are numbered in the order of their list. -/
theorem globals_numbered (h : Planned options tokens out rs names)
    (hglobals : options.globals = true) (k : Nat) (n : Name) :
    (∃ i : Nat, out[i]? = some (some (tag 'G' (k + 1) n))) ↔ names[k]? = some n := by
  constructor
  · rintro ⟨i, hi⟩
    obtain ⟨-, -, -, k', hk, hnumber⟩ := h.of_globalTag hi
    cases hnumber
    exact hk
  · intro hk
    obtain ⟨-, i, ht, hr⟩ := h.named n (List.mem_of_getElem? hk)
    obtain ⟨-, r, -, hr', -, hfits, hout⟩ := h.entry i _ ht
    rw [hr] at hr'
    cases hr'
    refine ⟨i, hout.trans (congrArg some ?_)⟩
    exact (replacement_eq_some_iff h.distinct hfits).mpr (.inr ⟨hglobals, rfl, k, hk, rfl⟩)

theorem number_of_declares (h : Planned options tokens out rs names) {i number : Nat}
    {v : Variable} {n : Name} (hv : rs[i]? = some (.declares v))
    (hi : out[i]? = some (some (tag 'L' number n))) : v.number + 1 = number := by
  obtain ⟨-, r, w, hr, ⟨hbound, -⟩, -, rfl⟩ := h.of_localTag hi
  rw [hv] at hr
  cases hr
  rcases hbound with hbound | hbound <;> cases hbound
  rfl

/-- Two tokens that declare have tags of different numbers. -/
theorem unique (h : Planned options tokens out rs names) {i j number : Nat} {n m : Name}
    (hi : Declares tokens i) (hj : Declares tokens j)
    (hout : out[i]? = some (some (tag 'L' number n)))
    (hout' : out[j]? = some (some (tag 'L' number m))) : i = j := by
  obtain ⟨count, Γ, hbinds⟩ := h.binds
  obtain ⟨p, hp, hdp⟩ := hi
  obtain ⟨q, hq, hdq⟩ := hj
  obtain ⟨v, hv, -⟩ := h.declares hp hdp
  obtain ⟨w, hw, -⟩ := h.declares hq hdq
  have hnumber := h.number_of_declares hv hout
  have hnumber' := h.number_of_declares hw hout'
  exact hbinds.eq_of_number hv hw (by omega)

/-- The tag of a local is that of a token that declares it, here or before. -/
theorem precedes (h : Planned options tokens out rs names) {i number : Nat} {n : Name}
    (hi : out[i]? = some (some (tag 'L' number n))) :
    ∃ j ≤ i, Declares tokens j ∧ out[j]? = some (some (tag 'L' number n)) := by
  obtain ⟨count, Γ, hbinds⟩ := h.binds
  obtain ⟨hlocals, r, v, hr, ⟨hbound, himplicit⟩, rfl, rfl⟩ := h.of_localTag hi
  have hdeclares : ∃ j ≤ i, rs[j]? = some (.declares v) := by
    rcases hbound with rfl | rfl
    · exact ⟨i, Nat.le_refl i, hr⟩
    · rcases hbinds.known i v hr with himp | hv | ⟨j, hj, hdecl⟩
      · rw [himplicit] at himp
        cases himp
      · cases hv
      · exact ⟨j, Nat.le_of_lt hj, hdecl⟩
  obtain ⟨j, hj, hdecl⟩ := hdeclares
  obtain ⟨p, hp, hallows⟩ := getElem?_of_forall₂ h.allowed.flip hdecl
  have hpart := Part.declares_of_allows hallows
  obtain ⟨w, hw, -, -, hout⟩ := h.declares hp hpart
  rw [hdecl] at hw
  cases hw
  exact ⟨j, hj, ⟨p, hp, hpart⟩, hout hlocals⟩

theorem wellTagged (h : Planned options tokens out rs names) : WellTagged options tokens out where
  length := h.length
  own _ _ := h.own
  selected _ _ _ := h.parameter_of_selected
  globals := by
    cases hglobals : options.globals with
    | false =>
      refine ⟨[], .nil, fun k n => ?_⟩
      constructor
      · rintro ⟨i, hi⟩
        rw [(h.of_globalTag hi).1] at hglobals
        cases hglobals
      · intro hk
        cases hk
    | true => exact ⟨names, h.distinct, h.globals_numbered hglobals⟩
  declared := by
    rintro hlocals i ⟨p, hp, hdeclares⟩
    obtain ⟨v, -, -, hname, hout⟩ := h.declares hp hdeclares
    exact ⟨v.name, _, hname, hout hlocals⟩
  unique _ _ hi hj _ _ _ := h.unique hi hj
  precedes _ _ _ := h.precedes

end Planned

/-- Tags are well formed and unique in every stream that is renamed. -/
theorem plan_wellTagged {options : RenameOptions} {tokens : List Token}
    {out : List (Option (List Char))} (h : plan options tokens = .ok out) :
    WellTagged options tokens out := by
  by_cases hon : options.locals = true ∨ options.globals = true
  · obtain ⟨rs, names, hplanned⟩ := plan_planned h hon
    exact hplanned.wellTagged
  · rw [plan, if_neg hon] at h
    cases h
    exact wellTagged_off (by simpa using fun h => hon (.inl h))

/-- `local x g = x.x end`, which is no chunk. -/
theorem unbalanced_tagged :
    plan ⟨true, true⟩ [.keyword .localKw, .name ['x'], .name ['g'], .symbol .assign, .name ['x'],
        .symbol .dot, .name ['x'], .keyword .endKw] =
      .ok [none, some "L_1_x".toList, some "G_1_g".toList, none, some "L_1_x".toList, none, none,
        none] ∧
    WellTagged ⟨true, true⟩ [.keyword .localKw, .name ['x'], .name ['g'], .symbol .assign,
        .name ['x'], .symbol .dot, .name ['x'], .keyword .endKw]
      [none, some "L_1_x".toList, some "G_1_g".toList, none, some "L_1_x".toList, none, none,
        none] :=
  ⟨by cbv, plan_wellTagged (by cbv)⟩

/-! ### The environment -/

/-- The name that the compiler looks globals up in. -/
def environmentName : Name := ['_', 'E', 'N', 'V']

/-- No standard name gets the tag of a global. -/
theorem Planned.not_standard {options : RenameOptions} {tokens : List Token}
    {out : List (Option (List Char))} {rs : List Role} {names : List Name}
    (h : Planned options tokens out rs names) {i number : Nat} {n : Name}
    (hi : out[i]? = some (some (tag 'G' number n))) : n ∉ standardGlobals := by
  obtain ⟨-, -, -, k, hk, -⟩ := h.of_globalTag hi
  exact (h.named n (List.mem_of_getElem? hk)).1

/-- The environment keeps its name wherever it stands if and only if locals are not renamed or none
of them has that name; as a global it always does. -/
theorem environment_kept_iff {options : RenameOptions} {tokens : List Token}
    {out : List (Option (List Char))} (h : plan options tokens = .ok out) :
    ((∀ i : Nat, tokens[i]? = some (.name environmentName) → out[i]? = some none) ↔
      options.locals = false ∨
        ∀ i, Declares tokens i → tokens[i]? ≠ some (.name environmentName)) ∧
    ∀ i number : Nat, out[i]? ≠ some (some (tag 'G' number environmentName)) := by
  by_cases hon : options.locals = true ∨ options.globals = true
  · obtain ⟨rs, names, hplanned⟩ := plan_planned h hon
    have htagged := hplanned.wellTagged
    have hglobal : ∀ i number : Nat, out[i]? ≠ some (some (tag 'G' number environmentName)) :=
      fun i number hi => hplanned.not_standard hi (by decide)
    refine ⟨⟨fun hkept => ?_, fun hfree i hi => ?_⟩, hglobal⟩
    · by_cases hlocals : options.locals = true
      · refine .inr fun i hdeclares hname => ?_
        obtain ⟨n, number, -, hout⟩ := htagged.declared hlocals i hdeclares
        rw [hkept i hname] at hout
        cases hout
      · exact .inl (by simpa using hlocals)
    · have hlt : i < out.length := by
        rw [htagged.length]
        exact (List.getElem?_eq_some_iff.mp hi).1
      have hout := List.getElem?_eq_getElem hlt
      cases htext : out[i] with
      | none => rw [hout, htext]
      | some text =>
        rw [htext] at hout
        obtain ⟨n, number, hname, -, ⟨hlocals, rfl⟩ | ⟨-, rfl⟩⟩ := htagged.own i text hout
        · obtain ⟨j, -, hdeclares, hj⟩ := htagged.precedes i number n hout
          rw [hi] at hname
          cases hname
          exact absurd (htagged.name_of_tag hj) (hfree.resolve_left (by simp [hlocals]) j hdeclares)
        · rw [hi] at hname
          cases hname
          exact absurd hout (hglobal i number)
  · rw [plan, if_neg hon] at h
    cases h
    refine ⟨iff_of_true (fun i hi => ?_) (.inl ?_), fun i number => getElem?_unreplaced tokens i _⟩
    · rw [List.getElem?_map, hi]
      rfl
    · simpa using fun h => hon (.inl h)

/-- `local _ENV x = _ENV` -/
theorem local_environment_tagged :
    plan ⟨true, false⟩ [.keyword .localKw, .name environmentName, .name ['x'], .symbol .assign,
        .name environmentName] =
      .ok [none, some "L_1__ENV".toList, none, none, some "L_1__ENV".toList] ∧
    ¬ ∀ i, Declares [.keyword .localKw, .name environmentName, .name ['x'], .symbol .assign,
        .name environmentName] i →
      [Token.keyword .localKw, .name environmentName, .name ['x'], .symbol .assign,
        .name environmentName][i]? ≠ some (.name environmentName) := by
  have hplan : plan ⟨true, false⟩ [.keyword .localKw, .name environmentName, .name ['x'],
      .symbol .assign, .name environmentName] =
      .ok [none, some "L_1__ENV".toList, none, none, some "L_1__ENV".toList] := by cbv
  refine ⟨hplan, fun hfree => ?_⟩
  have hkept := (environment_kept_iff hplan).1.mpr (.inr hfree) 1 rfl
  cases hkept

end LuaBundle.Lua
