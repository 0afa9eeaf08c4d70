import LuaBundle.Proofs.Lua.Chunks
import LuaBundle.Proofs.Lua.Scanning
import LuaBundle.Proofs.Lua.Tagging

/-!
# Globals that a chunk assigns

A global that is no standard one is tagged if the chunk writes it by a `function`, or as a plain
name in a list of targets that a scan runs through. A keyword among the targets ends the scan, and
there is none from the name behind a label or an attribute, so that some globals are written and not
tagged.
-/
namespace LuaBundle.Lua

/-! ### What the scans find -/

theorem scanned_tokens (b : Tree .block) :
    scanned (sites b.tokens) = picked (b.targeted false true false) (sites b.tokens) := by
  have hplace : Cursor.start.Receives [] [] 0 true true false :=
    ⟨rfl, rfl, .inr (.inr rfl), fun _ => rfl, nofun⟩
  have hfound := b.found [] Cursor.start _ _ _ _ _ _ hplace nofun
  rw [List.append_nil, ← Cursor.sites_start] at hfound
  rw [scanned, parts_sites, ← hfound]
  rfl

theorem Cursor.index_of_sites {c : Cursor} {ts : List Token} {i : Nat} {site : Site}
    (h : (c.sites ts)[i]? = some site) : site.index = c.index + i := by
  induction ts generalizing c i with
  | nil => cases h
  | cons t ts ih =>
    cases i with
    | zero =>
      cases h
      rfl
    | succ i =>
      have hindex := ih (c := c.next t) h
      rw [next_index] at hindex
      omega

theorem mem_picked {k : Nat} {fs : List Bool} {ss : List Site} :
    k ∈ picked fs ss ↔
      ∃ (i : Nat) (site : Site), fs[i]? = some true ∧ ss[i]? = some site ∧ site.index = k := by
  induction fs generalizing ss with
  | nil => simp [picked]
  | cons f fs ih =>
    cases ss with
    | nil => simp [picked]
    | cons site ss =>
      rw [picked, List.mem_append, ih]
      constructor
      · rintro (h | ⟨i, h⟩)
        · split at h
          · rename_i hf
            subst hf
            exact ⟨0, site, rfl, rfl, (List.mem_singleton.mp h).symm⟩
          · cases h
        · exact ⟨i + 1, h⟩
      · rintro ⟨i, site', hf, hsite, rfl⟩
        cases i with
        | zero =>
          cases hf
          cases hsite
          exact .inl (List.mem_singleton.mpr rfl)
        | succ i => exact .inr ⟨i, site', hf, hsite, rfl⟩

theorem index_mem_picked {tokens : List Token} {i : Nat} {site : Site} (fs : List Bool)
    (h : (sites tokens)[i]? = some site) :
    site.index ∈ picked fs (sites tokens) ↔ fs[i]? = some true := by
  rw [mem_picked]
  rw [Cursor.sites_start] at h ⊢
  constructor
  · rintro ⟨j, site', hf, hsite, hindex⟩
    have hi := Cursor.index_of_sites h
    have hj := Cursor.index_of_sites hsite
    have hij : i = j := by omega
    rwa [hij]
  · exact fun hf => ⟨i, site, hf, h, rfl⟩

/-! ### Writing a global -/

/-- A token that is taken for this, and is listed as a target or not, is a plain name that is
written. -/
def Part.isWritten (listed : Bool) : Part → Bool
  | callee whole => whole
  | use => listed
  | _ => false

/-- The plain names that a chunk writes: names of functions, and targets in every list or in those
that a scan runs through. -/
def Tree.written (every : Bool) (b : Tree .block) : List Bool :=
  List.zipWith Part.isWritten (b.targeted every true false) b.parts

/-- The name stands here for a global. -/
structure IsGlobal (tokens : List Token) (roles : List Role) (i : Nat) (n : Name) : Prop where
  name : tokens[i]? = some (.name n)
  role : roles[i]? = some .free

/-- A flagged token is this global. -/
def Assigns (tokens : List Token) (roles : List Role) (flags : List Bool) (n : Name) : Prop :=
  ∃ i : Nat, IsGlobal tokens roles i n ∧ flags[i]? = some true

instance (tokens : List Token) (roles : List Role) (i : Nat) (n : Name) :
    Decidable (IsGlobal tokens roles i n) :=
  decidable_of_iff (tokens[i]? = some (.name n) ∧ roles[i]? = some .free)
    ⟨fun h => ⟨h.1, h.2⟩, fun h => ⟨h.name, h.role⟩⟩

instance (tokens : List Token) (roles : List Role) (flags : List Bool) (n : Name) :
    Decidable (Assigns tokens roles flags n) :=
  decidable_of_iff (∃ i < flags.length, IsGlobal tokens roles i n ∧ flags[i]? = some true)
    ⟨fun ⟨i, _, h⟩ => ⟨i, h⟩, fun ⟨i, h⟩ => ⟨i, (List.getElem?_eq_some_iff.mp h.2).1, h⟩⟩

/-- The globals that a flag assigns have one tag wherever they stand, except for the standard ones;
all others keep their names. -/
structure TagsAssigned (tokens : List Token) (roles : List Role) (flags : List Bool)
    (out : List (Option (List Char))) : Prop where
  tagged : ∀ n, n ∉ standardGlobals → Assigns tokens roles flags n →
    ∃ number, ∀ i, IsGlobal tokens roles i n → out[i]? = some (some (tag 'G' number n))
  kept : ∀ n, n ∈ standardGlobals ∨ ¬ Assigns tokens roles flags n →
    ∀ i, IsGlobal tokens roles i n → out[i]? = some none

theorem Role.eq_free_of_binding {r : Role} (h : r.binding = .global) : r = .free := by
  cases r <;> first | rfl | cases h

theorem free_of_bindings_eq {rs rs' : List Role} (h : bindings rs = bindings rs') {i : Nat}
    (hr : rs[i]? = some .free) : rs'[i]? = some .free := by
  have hbinding : (bindings rs')[i]? = some .global := by
    rw [← h, bindings, List.getElem?_map, hr]
    rfl
  rw [bindings, List.getElem?_map] at hbinding
  obtain ⟨r, hr', hbound⟩ := Option.map_eq_some_iff.mp hbinding
  rw [hr', Role.eq_free_of_binding hbound]

section

variable {b : Tree .block} {s : ScopeState} {roles : List Role} {n : Name}

/-- The walk records the globals that are written where a scan finds it. -/
theorem mem_assigned (hwalk : walk .initial (sites b.tokens) = .ok (bindings roles, s)) :
    n ∈ s.assigned ↔ Assigns b.tokens roles (b.written false) n := by
  obtain ⟨rs, hrs, htakes⟩ := takes_tokens hwalk
  obtain ⟨count, -, hbinds⟩ := htakes.binds
  have hflag : ∀ {i : Nat} {p : Part} {site : Site}, b.parts[i]? = some p →
      (sites b.tokens)[i]? = some site → (p.assigns (scanned (sites b.tokens)) site = true ↔
        (b.written false)[i]? = some true) := by
    intro i p site hp hsite
    have hlt : i < (b.targeted false true false).length := by
      rw [b.targeted_length, ← b.parts_length]
      exact (List.getElem?_eq_some_iff.mp hp).1
    have hf := List.getElem?_eq_getElem hlt
    have hfound := index_mem_picked (b.targeted false true false) hsite
    rw [← scanned_tokens, hf, Option.some.injEq] at hfound
    rw [Tree.written, List.getElem?_zipWith, hf, hp]
    cases p <;> simp [Part.assigns, Part.isWritten, hfound]
  have hinitial : n ∉ ScopeState.initial.assigned := List.not_mem_nil
  rw [htakes.assigned, mem_foldl_note, or_iff_left hinitial,
    mem_recorded_sites fun i r t => fits_of_binds hbinds, parts_sites]
  constructor
  · rintro ⟨i, p, site, hp, hr, hsite, hassigns, hname⟩
    exact ⟨i, ⟨hname, free_of_bindings_eq hrs.symm hr⟩, (hflag hp hsite).mp hassigns⟩
  · rintro ⟨i, hglobal, hwritten⟩
    obtain ⟨site, hsite, -⟩ := getElem?_sites hglobal.name
    have hlt : i < b.parts.length := by
      rw [b.parts_length]
      exact (List.getElem?_eq_some_iff.mp hglobal.name).1
    have hp := List.getElem?_eq_getElem hlt
    exact ⟨i, _, site, hp, free_of_bindings_eq hrs hglobal.role, hsite,
      (hflag hp hsite).mpr hwritten, hglobal.name⟩

theorem exists_globalTag {names : List Name} (h : n ∈ names) :
    ∃ number, globalTag? names n = some (tag 'G' number n) := by
  cases hk : names.idxOf? n with
  | none => exact absurd h (List.idxOf?_eq_none_iff.mp hk)
  | some k => exact ⟨k + 1, by rw [globalTag?, hk]; rfl⟩

theorem globalTag?_eq_none {names : List Name} (h : n ∉ names) : globalTag? names n = none := by
  rw [globalTag?, List.idxOf?_eq_none_iff.mpr h]
  rfl

theorem tagsAssigned_of_walk (locals : Bool)
    (hwalk : walk .initial (sites b.tokens) = .ok (bindings roles, s)) :
    TagsAssigned b.tokens roles (b.written false)
      (List.zipWith (replacement? ⟨locals, true⟩ (taggedGlobals s)) b.tokens (bindings roles)) := by
  have hmem : ∀ n, n ∈ taggedGlobals s ↔
      n ∉ standardGlobals ∧ Assigns b.tokens roles (b.written false) n := by
    intro n
    rw [taggedGlobals, List.mem_filter, mem_assigned hwalk, and_comm]
    simp
  have hentry : ∀ {i n}, IsGlobal b.tokens roles i n →
      (List.zipWith (replacement? ⟨locals, true⟩ (taggedGlobals s)) b.tokens (bindings roles))[i]? =
        some (globalTag? (taggedGlobals s) n) := by
    intro i n hglobal
    rw [List.getElem?_zipWith, hglobal.name, bindings, List.getElem?_map, hglobal.role]
    rfl
  refine ⟨fun n hstandard hassigns => ?_, fun n hnone i hglobal => ?_⟩
  · obtain ⟨number, htag⟩ := exists_globalTag ((hmem n).mpr ⟨hstandard, hassigns⟩)
    exact ⟨number, fun i hglobal => by rw [hentry hglobal, htag]⟩
  · rw [hentry hglobal, globalTag?_eq_none]
    rw [hmem]
    tauto

end

/-! ### Writes that no scan finds -/

/-- What a scan finds stands in a list of targets. -/
theorem Tree.targeted_le {kind : Kind} (t : Tree kind) {marked marked' carried carried' : Bool}
    (h : marked ≤ marked') :
    List.Forall₂ (· ≤ ·) (t.targeted false marked carried) (t.targeted true marked' carried') := by
  have hsame : ∀ fs : List Bool, List.Forall₂ (· ≤ ·) fs fs := fun fs =>
    List.forall₂_same.mpr fun f _ => le_refl f
  induction t generalizing marked marked' carried carried' with
  | name n => exact .cons h .nil
  | target v ih => exact ih h
  | targets v vs ih ih' => exact List.rel_append (ih h) (.cons le_rfl (ih' h))
  | assign vs es ih ih' =>
    exact List.rel_append (ih (Bool.le_true _)) (.cons le_rfl (ih' le_rfl))
  | plain p ih | read p ih | result p ih | callOnly p ih | one p ih | item p ih | lastField p ih =>
    exact ih le_rfl
  | table p ih | tableArg p ih | paren p ih | someArgs p ih | doEnd p ih | elseEnd p ih =>
    exact .cons le_rfl (List.rel_append (ih le_rfl) (hsame _))
  | unary op e ih => exact .cons le_rfl (ih le_rfl)
  | named n e ih => exact .cons le_rfl (.cons le_rfl (ih le_rfl))
  | member p n ih => exact List.rel_append (ih le_rfl) (hsame _)
  | binary l op r ih ih' | more l r ih ih' | span l r ih ih' | fieldThen l op r ih ih' =>
    exact List.rel_append (ih le_rfl) (.cons le_rfl (ih' le_rfl))
  | stride first limit step ih ih' ih'' =>
    exact List.rel_append (List.rel_append (ih le_rfl) (.cons le_rfl (ih' le_rfl)))
      (.cons le_rfl (ih'' le_rfl))
  | index p e ih ih' =>
    exact List.rel_append (List.rel_append (ih le_rfl) (.cons le_rfl (ih' le_rfl))) (hsame _)
  | apply p a ih ih' => exact List.rel_append (ih le_rfl) (ih' le_rfl)
  | invoke p n a ih ih' =>
    exact List.rel_append (ih le_rfl) (.cons le_rfl (.cons le_rfl (ih' le_rfl)))
  | keyed k e ih ih' =>
    exact .cons le_rfl (List.rel_append (ih le_rfl) (.cons le_rfl (.cons le_rfl (ih' le_rfl))))
  | function ps b ih | localFunction n ps b ih | functionNamed f ps b ih =>
    exact List.rel_append (List.rel_append (hsame _) (ih le_rfl)) (hsame _)
  | localsInit l ls es ih => exact List.rel_append (hsame _) (.cons le_rfl (ih le_rfl))
  | whileDo e b ih ih' =>
    exact List.rel_append (List.rel_append (.cons le_rfl (ih le_rfl)) (.cons le_rfl (ih' le_rfl)))
      (hsame _)
  | repeatUntil b e ih ih' =>
    exact List.rel_append (.cons le_rfl (ih le_rfl)) (.cons le_rfl (ih' le_rfl))
  | ifThen e b f ih ih' ih'' | elseIf e b f ih ih' ih'' =>
    exact List.rel_append (List.rel_append (.cons le_rfl (ih le_rfl)) (.cons le_rfl (ih' le_rfl)))
      (ih'' le_rfl)
  | forRange n r b ih ih' =>
    exact List.rel_append (List.rel_append (.cons le_rfl (.cons le_rfl (.cons le_rfl (ih le_rfl))))
      (.cons le_rfl (ih' le_rfl))) (hsame _)
  | forIn n ns es b ih ih' =>
    exact List.rel_append (List.rel_append (List.rel_append (hsame _) (.cons le_rfl (ih le_rfl)))
      (.cons le_rfl (ih' le_rfl))) (hsame _)
  | retValues es closed ih => exact List.rel_append (.cons le_rfl (ih le_rfl)) (hsame _)
  | cons s b ih ih' => exact List.rel_append (ih h) (ih' le_rfl)
  | _ => exact hsame _

theorem Part.isWritten_of_le {f g : Bool} (h : f ≤ g) {p : Part} (hp : p.isWritten f = true) :
    p.isWritten g = true := by
  cases p with
  | use => exact Bool.le_iff_imp.mp h hp
  | callee whole => exact hp
  | other | localName | parameter => cases hp

theorem Tree.written_of_found {b : Tree .block} {i : Nat} (h : (b.written false)[i]? = some true) :
    (b.written true)[i]? = some true := by
  obtain ⟨f, p, hf, hp, hwritten⟩ := List.getElem?_zipWith_eq_some.mp h
  have htargeted : List.Forall₂ (· ≤ ·) (b.targeted false true false)
      (b.targeted true true false) :=
    b.targeted_le (le_refl true)
  obtain ⟨g, hg, hle⟩ := getElem?_of_forall₂ htargeted hf
  exact List.getElem?_zipWith_eq_some.mpr ⟨g, p, hg, hp, Part.isWritten_of_le hle hwritten⟩

theorem Assigns.mono {tokens : List Token} {roles : List Role} {flags flags' : List Bool} {n : Name}
    (h : Assigns tokens roles flags n)
    (hflags : ∀ i : Nat, flags[i]? = some true → flags'[i]? = some true) :
    Assigns tokens roles flags' n := by
  obtain ⟨i, hglobal, hi⟩ := h
  exact ⟨i, hglobal, hflags i hi⟩

/-- More flags describe the same tags exactly if they assign no other globals, but for the standard
ones. -/
theorem TagsAssigned.widen_iff {tokens : List Token} {roles : List Role} {flags flags' : List Bool}
    {out : List (Option (List Char))} (h : TagsAssigned tokens roles flags out)
    (hflags : ∀ i : Nat, flags[i]? = some true → flags'[i]? = some true) :
    TagsAssigned tokens roles flags' out ↔
      ∀ n, n ∉ standardGlobals → Assigns tokens roles flags' n → Assigns tokens roles flags n := by
  constructor
  · intro h' n hstandard hassigns
    obtain ⟨number, htag⟩ := h'.tagged n hstandard hassigns
    obtain ⟨i, hglobal, -⟩ := hassigns
    by_contra hnone
    have hkept := h.kept n (.inr hnone) i hglobal
    rw [htag i hglobal] at hkept
    cases hkept
  · intro hall
    refine ⟨fun n hstandard hassigns => h.tagged n hstandard (hall n hstandard hassigns),
      fun n hnone i hglobal => h.kept n ?_ i hglobal⟩
    exact hnone.imp_right fun hnot hassigns => hnot (hassigns.mono hflags)

/-- The plan tags the globals that a scan or the name of a function tells it of. Where nothing leads
the walk astray, it tags all that the chunk writes if and only if every such global, but for the
standard ones, is written somewhere where a scan finds it. -/
theorem globals_tagged_iff (locals : Bool) (b : Tree .block) :
    ∃ out, plan ⟨locals, true⟩ b.tokens = .ok out ∧
      TagsAssigned b.tokens (b.seen .outermost 0) (b.written false) out ∧
      (Clear b false → (TagsAssigned b.tokens (b.roles [] 0) (b.written true) out ↔
        ∀ n, n ∉ standardGlobals → Assigns b.tokens (b.roles [] 0) (b.written true) n →
          Assigns b.tokens (b.roles [] 0) (b.written false) n)) := by
  obtain ⟨s, hwalk⟩ := walk_seen b
  have htagged := tagsAssigned_of_walk locals hwalk
  refine ⟨_, ?_, htagged, fun h => ?_⟩
  · rw [plan, if_pos (.inr rfl), hwalk]
  · rw [← b.seen_eq h]
    exact htagged.widen_iff fun i => Tree.written_of_found

/-- `x, t[true] = 1, 2 y = x` -/
def halting : Tree .block :=
  let number (digit : Char) : Tree .expr := .literal ⟨.number [digit], rfl⟩
  .cons (.assign
      (.targets (.name ['x'])
        (.target (.index (.read (.name ['t'])) (.literal ⟨.keyword .trueKw, rfl⟩))))
      (.more (number '1') (.one (number '2'))))
    (.cons (.assign (.target (.name ['y'])) (.one (.plain (.read (.name ['x']))))) .nothing)

/-- The scan does not get past the keyword, so that only one of the globals has a tag. -/
theorem halting_tagged : Clear halting false ∧
    ∃ out, plan ⟨true, true⟩ halting.tokens = .ok out ∧
      ¬ TagsAssigned halting.tokens (halting.roles [] 0) (halting.written true) out ∧
      out[0]? = some none ∧ out[12]? = some none ∧
      ∃ number, out[10]? = some (some (tag 'G' number ['y'])) := by
  have h : Clear halting false := ⟨rfl, rfl, rfl⟩
  obtain ⟨out, hplan, htags, hiff⟩ := globals_tagged_iff true halting
  have hnot : ¬ Assigns halting.tokens (halting.seen .outermost 0) (halting.written false)
      ['x'] := by decide
  refine ⟨h, out, hplan, fun hall => ?_, ?_, ?_, ?_⟩
  · have hassigns := (hiff h).mp hall ['x'] (by decide) (by decide)
    rw [← halting.seen_eq h] at hassigns
    exact hnot hassigns
  · exact htags.kept ['x'] (.inr hnot) 0 ⟨rfl, rfl⟩
  · exact htags.kept ['x'] (.inr hnot) 12 ⟨rfl, rfl⟩
  · obtain ⟨number, htag⟩ := htags.tagged ['y'] (by decide) (by decide)
    exact ⟨number, htag 10 ⟨rfl, rfl⟩⟩

end LuaBundle.Lua
