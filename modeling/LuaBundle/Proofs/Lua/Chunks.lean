import LuaBundle.Proofs.Lua.Keys
import LuaBundle.Proofs.Lua.Regions
import LuaBundle.Proofs.Lua.StatementViews
import LuaBundle.Proofs.Lua.ViewScopes

/-!
# Renaming whole chunks

Renaming succeeds on every chunk and gives the names the tags of what the walk sees. Where nothing
leads the walk astray, a name gets the tag of the variable in whose region it lies.
-/
namespace LuaBundle.Lua

/-- Renaming gives every chunk, with functions of any kind, the tags of what the walk sees. -/
theorem plan_seen (globals : Bool) (b : Tree .block) :
    ∃ out, plan ⟨true, globals⟩ b.tokens = .ok out ∧ Resolved b.tokens (b.seen .outermost 0) ∧
      Renamed b.tokens (b.seen .outermost 0) out := by
  obtain ⟨s, hwalk⟩ := walk_seen b
  have hresolved := (b.seen_bound .outermost 0).resolved
  refine ⟨List.zipWith (replacement? ⟨true, globals⟩ (taggedGlobals s)) b.tokens
    (bindings (b.seen .outermost 0)), ?_, hresolved, renamed_of_fits hresolved.fits⟩
  rw [plan, if_pos (.inl rfl), hwalk]

theorem plan_agrees (globals : Bool) (b : Tree .block) (h : Clear b false) :
    ∃ out, plan ⟨true, globals⟩ b.tokens = .ok out ∧ Renamed b.tokens (b.roles [] 0) out := by
  obtain ⟨out, hplan, -, hrenamed⟩ := plan_seen globals b
  rw [b.seen_eq h] at hrenamed
  exact ⟨out, hplan, hrenamed⟩

/-! ### Targets -/

/-- A target list that ends in a plain name directly inside braces is all that keeps the walk from
binding every variable; where there is none, it leaves alone just the keys, fields and labels. -/
theorem targets_bound (globals : Bool) (b : Tree .block) :
    ∃ out, plan ⟨true, globals⟩ b.tokens = .ok out ∧
      Renamed b.tokens (b.seen .outermost 0) out ∧
      (b.lost false = 0 ↔ ∀ i : Nat,
        (b.seen .outermost 0)[i]? = some .other ↔ (b.roles [] 0)[i]? = some .other) ∧
      (Clear b false → Renamed b.tokens (b.roles [] 0) out) := by
  obtain ⟨out, hplan, -, hrenamed⟩ := plan_seen globals b
  refine ⟨out, hplan, hrenamed, (b.keeps .outermost [] 0).eq_zero_iff, fun h => ?_⟩
  rw [← b.seen_eq h]
  exact hrenamed

/-- `local t = { f = function() local a, b a, b.n = b, a end }` -/
def swapping : Tree .block :=
  let var (n : Name) : Tree .var := .name n
  let use (n : Name) : Tree .expr := .plain (.read (var n))
  .cons (.localsInit ⟨['t'], none⟩ [] (.one (.table (.lastField (.named ['f'] (.function ⟨[], false⟩
    (.cons (.locals ⟨['a'], none⟩ [⟨['b'], none⟩])
      (.cons (.assign (.targets (var ['a']) (.target (.member (.read (var ['b'])) ['n'])))
          (.more (use ['b']) (.one (use ['a']))))
        .nothing)))))))) .nothing

/-- The targets get the tags of the locals, and the key of the function none. -/
theorem swapping_renamed : Clear swapping false ∧
    ∃ out, plan ⟨true, false⟩ swapping.tokens = .ok out ∧
      out[13]? = some (some ['L', '_', '2', '_', 'a']) ∧
      out[15]? = some (some ['L', '_', '3', '_', 'b']) ∧
      ∀ text, out[4]? = some (some text) → isLocalTag text = false := by
  have h : Clear swapping false := ⟨rfl, rfl, rfl⟩
  obtain ⟨out, hplan, -, -, hclear⟩ := targets_bound false swapping
  refine ⟨h, out, hplan, ?_, ?_, ?_⟩
  · exact (hclear h).bound 13 _ _ rfl rfl
  · exact (hclear h).bound 15 _ _ rfl rfl
  · exact (hclear h).unbound 4 _ rfl rfl

/-! ### Regions -/

def Region.tag (g : Region) : List Char := localTag g.owner.decl g.owner.name

theorem Role.of_declaration {r : Role} {v : Variable} (h : r.declaration? = some v) :
    r = .declares v ∨ r = .refers v := by
  cases r with
  | declares w =>
    rw [declaration?, Option.ite_none_left_eq_some] at h
    exact .inl (congrArg declares (Option.some.inj h.2))
  | refers w =>
    rw [declaration?, Option.ite_none_left_eq_some] at h
    exact .inr (congrArg refers (Option.some.inj h.2))
  | free | other => cases h

/-- Only the declaration of a variable and what refers to it get its tag. -/
theorem Renamed.role_of_tag {tokens : List Token} {roles : List Role}
    {out : List (Option (List Char))} (h : Renamed tokens roles out)
    (hroles : roles.length = tokens.length) {v : Variable} (hv : v.implicit = false) {i : Nat}
    (hi : out[i]? = some (some (localTag v.decl v.name))) :
    roles[i]? = some (.declares v) ∨ roles[i]? = some (.refers v) := by
  have hlt : i < roles.length := by
    rw [hroles, ← h.length]
    exact (List.getElem?_eq_some_iff.mp hi).1
  have hrole := List.getElem?_eq_getElem hlt
  cases hdecl : roles[i].declaration? with
  | none =>
    have htag := h.unbound i _ hrole hdecl _ hi
    rw [isLocalTag_localTag] at htag
    cases htag
  | some w =>
    have htag := h.bound i _ w hrole hdecl
    rw [hi] at htag
    have heq : v = w :=
      eq_of_localTag_eq hv (Role.written hdecl) (Option.some.inj (Option.some.inj htag))
    rw [hrole, heq]
    exact (Role.of_declaration hdecl).imp (congrArg some) (congrArg some)

section

variable {b : Tree .block} {out : List (Option (List Char))} {g : Region} {i : Nat} {n : Name}
  {r : Role}

theorem Tree.roles_length (b : Tree .block) : (b.roles [] 0).length = b.tokens.length :=
  (b.bound [] 0).fits.length_eq

theorem Tree.span_written (hg : g ∈ b.spans) (h : g.origin ≠ .receiver) :
    g.owner.implicit = false := (b.numbered 0 b.tokens.length 0).written g hg h

/-- A name in use gets the tag of a variable if and only if its region prevails. -/
theorem Renamed.tag_iff (h : Renamed b.tokens (b.roles [] 0) out) (hg : g ∈ b.spans)
    (horigin : g.origin ≠ .receiver) (huses : b.Uses i n r) :
    out[i]? = some (some g.tag) ↔ g.Prevails b.spans i n := by
  have hwritten := Tree.span_written hg horigin
  rw [← huses.refers_iff hg]
  constructor
  · intro hi
    rcases h.role_of_tag b.roles_length hwritten hi with hrole | hrole
    · rw [huses.role] at hrole
      have huse := huses.isUse
      rw [Option.some.inj hrole] at huse
      cases huse
    · exact Option.some.inj (huses.role.symm.trans hrole)
  · intro hr
    refine h.bound i r g.owner huses.role ?_
    rw [hr, Role.declaration?, hwritten]
    rfl

/-- Nothing out of the region gets the tag but the declaration. -/
theorem Renamed.covers_of_tag (h : Renamed b.tokens (b.roles [] 0) out) (hg : g ∈ b.spans)
    (horigin : g.origin ≠ .receiver) (hi : out[i]? = some (some g.tag)) :
    (b.roles [] 0)[i]? = some (.declares g.owner) ∨ g.Covers i := by
  have hwritten := Tree.span_written hg horigin
  refine (h.role_of_tag b.roles_length hwritten hi).imp_right fun hrole => ?_
  obtain ⟨t, ht, hfits⟩ := getElem?_of_forall₂ (b.bound [] 0).fits hrole
  have huses : b.Uses i g.owner.name (.refers g.owner) := ⟨by rw [ht, hfits], hrole, rfl⟩
  exact ((huses.refers_iff hg).mp rfl).covers

end

/-- Deferred declarations: a local is in sight from the end of its statement on, so that the values
of the statement see what was in sight before, up to the end of the block, or of the condition if the
block is the body of a `repeat`. A name gets the tag of the variable that is declared last of those
of its name in sight. -/
theorem deferred_to_statement_end (globals : Bool) (b : Tree .block) (hkept : b.lost false = 0)
    (htimely : b.timely = true) (hpaired : b.paired = true) :
    ∃ out, plan ⟨true, globals⟩ b.tokens = .ok out ∧
      ∀ g ∈ b.spans, g.origin ≠ .receiver → ∀ i n r, b.Uses i n r →
        (out[i]? = some (some g.tag) ↔ g.Prevails b.spans i n) := by
  obtain ⟨out, hplan, hrenamed⟩ := plan_agrees globals b ⟨hkept, htimely, hpaired⟩
  exact ⟨out, hplan, fun g hg horigin i n r huses => hrenamed.tag_iff hg horigin huses⟩

/-- `local x = 1 local x = f(x, function() return x end) repeat local y = x until y` -/
def deferring : Tree .block :=
  let use (n : Name) : Tree .expr := .plain (.read (.name n))
  .cons (.localsInit ⟨['x'], none⟩ [] (.one (.literal ⟨.number ['1'], rfl⟩)))
    (.cons (.localsInit ⟨['x'], none⟩ [] (.one (.plain (.result (.apply (.read (.name ['f']))
        (.someArgs (.more (use ['x'])
          (.one (.function ⟨[], false⟩ (.retValues (.one (use ['x'])) false))))))))))
      (.cons (.repeatUntil
          (.cons (.localsInit ⟨['y'], none⟩ [] (.one (use ['x']))) .nothing) (use ['y']))
        .nothing))

/-- The values of the second statement see the first `x`, what follows the second. -/
theorem deferring_renamed :
    (deferring.lost false = 0 ∧ deferring.timely = true ∧ deferring.paired = true) ∧
    ∃ out, plan ⟨true, false⟩ deferring.tokens = .ok out ∧
      out[9]? = some (some ['L', '_', '1', '_', 'x']) ∧
      out[15]? = some (some ['L', '_', '1', '_', 'x']) ∧
      out[22]? = some (some ['L', '_', '2', '_', 'x']) ∧
      out[24]? = some (some ['L', '_', '3', '_', 'y']) := by
  obtain ⟨out, hplan, htags⟩ := deferred_to_statement_end false deferring rfl rfl rfl
  have tagged {g : Region} {i : Nat} (hg : g ∈ deferring.spans) (horigin : g.origin ≠ .receiver)
      (huses : deferring.Uses i g.owner.name (.refers g.owner)) : out[i]? = some (some g.tag) :=
    (htags g hg horigin i _ _ huses).mpr ((huses.refers_iff hg).mp rfl)
  have first : (⟨⟨0, ['x'], false⟩, .statement, 4, 25⟩ : Region) ∈ deferring.spans :=
    List.mem_of_getElem? (i := 0) rfl
  have second : (⟨⟨1, ['x'], false⟩, .statement, 18, 25⟩ : Region) ∈ deferring.spans :=
    List.mem_of_getElem? (i := 1) rfl
  have body : (⟨⟨2, ['y'], false⟩, .statement, 23, 25⟩ : Region) ∈ deferring.spans :=
    List.mem_of_getElem? (i := 2) rfl
  refine ⟨⟨rfl, rfl, rfl⟩, out, hplan, ?_, ?_, ?_, ?_⟩
  · exact tagged first (by decide) ⟨rfl, rfl, rfl⟩
  · exact tagged first (by decide) ⟨rfl, rfl, rfl⟩
  · exact tagged second (by decide) ⟨rfl, rfl, rfl⟩
  · exact tagged body (by decide) ⟨rfl, rfl, rfl⟩

/-- The variables of a loop are in sight in its body only: the tag of one stands at the declaration
in the header and within the body, there at every name that no later declaration hides. -/
theorem loop_variables_in_body (globals : Bool) (b : Tree .block) (hkept : b.lost false = 0)
    (htimely : b.timely = true) (hpaired : b.paired = true) :
    ∃ out, plan ⟨true, globals⟩ b.tokens = .ok out ∧
      ∀ g ∈ b.spans, g.origin = .loop →
        (∀ i : Nat, out[i]? = some (some g.tag) →
          (b.roles [] 0)[i]? = some (.declares g.owner) ∨ g.Covers i) ∧
        ∀ i r, b.Uses i g.owner.name r → g.Covers i →
          (∀ h ∈ b.spans, h.Covers i → h.owner.name = g.owner.name →
            h.owner.number ≤ g.owner.number) → out[i]? = some (some g.tag) := by
  obtain ⟨out, hplan, hrenamed⟩ := plan_agrees globals b ⟨hkept, htimely, hpaired⟩
  refine ⟨out, hplan, fun g hg horigin => ?_⟩
  have hreceiver : g.origin ≠ .receiver := by
    rw [horigin]
    decide
  refine ⟨fun i => hrenamed.covers_of_tag hg hreceiver, fun i r huses hcovers hlast => ?_⟩
  exact (hrenamed.tag_iff hg hreceiver huses).mpr ⟨hcovers, rfl, hlast⟩

/-- `for i = 1, f(function() local c = i return c end) do print(i) end` -/
def counting : Tree .block :=
  let use (n : Name) : Tree .expr := .plain (.read (.name n))
  let call (n : Name) (e : Tree .expr) : Tree .call := .apply (.read (.name n)) (.someArgs (.one e))
  .cons (.forRange ['i']
      (.span (.literal ⟨.number ['1'], rfl⟩) (.plain (.result (call ['f'] (.function ⟨[], false⟩
        (.cons (.localsInit ⟨['c'], none⟩ [] (.one (use ['i'])))
          (.retValues (.one (use ['c'])) false)))))))
      (.cons (.callOnly (call ['p', 'r', 'i', 'n', 't'] (use ['i']))) .nothing))
    .nothing

/-- The body sees the variable of the loop, the function in the header does not. -/
theorem counting_renamed :
    (counting.lost false = 0 ∧ counting.timely = true ∧ counting.paired = true) ∧
    ∃ out, plan ⟨true, false⟩ counting.tokens = .ok out ∧
      out[21]? = some (some ['L', '_', '1', '_', 'i']) ∧
      out[13]? ≠ some (some ['L', '_', '1', '_', 'i']) := by
  obtain ⟨out, hplan, htags⟩ := loop_variables_in_body false counting rfl rfl rfl
  have hg : (⟨⟨0, ['i'], false⟩, .loop, 19, 23⟩ : Region) ∈ counting.spans :=
    List.mem_of_getElem? (i := 0) rfl
  obtain ⟨hout, hin⟩ := htags _ hg rfl
  have huses : counting.Uses 21 ['i'] (.refers ⟨0, ['i'], false⟩) := ⟨rfl, rfl, rfl⟩
  have hprevails := (huses.refers_iff hg).mp rfl
  refine ⟨⟨rfl, rfl, rfl⟩, out, hplan, hin 21 _ huses hprevails.covers hprevails.last, fun h => ?_⟩
  rcases hout 13 h with hrole | hcovers
  · cases hrole
  · exact absurd hcovers.1 (by decide)

end LuaBundle.Lua
