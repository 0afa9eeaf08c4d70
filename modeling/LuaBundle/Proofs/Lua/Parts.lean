import LuaBundle.Proofs.Lua.Binding
import LuaBundle.Proofs.Lua.Replacing
import LuaBundle.Proofs.Lua.Waiting
import Mathlib.Data.List.Nodup
import Mathlib.Data.List.TakeDrop

/-!
# What tokens are taken for

Which tokens of a stream declare names, and which names are looked up, is told by the tokens alone,
whether they are a chunk or not. A run of the walk declares just these names, one after the other,
looks up just those, and takes down the globals that seem to be assigned.
-/
namespace LuaBundle.Lua

/-- What a token is taken for, whatever names are in scope. -/
inductive Part where
  /-- Declared after `local` or in the header of a loop. -/
  | localName
  | parameter
  /-- The first name behind `function`, which is assigned to where it is the whole name. -/
  | callee (whole : Bool)
  /-- A name of another kind that is not selected from a table. -/
  | use
  | other
  deriving DecidableEq, Repr

namespace Part

def declares : Part → Bool
  | localName | parameter => true
  | _ => false

def looksUp : Part → Bool
  | callee _ | use => true
  | _ => false

/-- The roles that a token can have; a name that is looked up may be a key. -/
def Allows : Part → Role → Prop
  | localName, r | parameter, r => ∃ v, r = .declares v ∧ v.implicit = false
  | callee _, r => r.declared? = none ∧ r ≠ .other
  | use, r => r.declared? = none
  | other, r => r = .other

end Part

def Site.isSelected (site : Site) : Bool := site.before.any Token.selects

section Reading

/-- The names of a declaration list, each with an attribute in angle brackets if `attribs`. -/
def nameParts (attribs : Bool) : List Site → List Part
  | [] => []
  | site :: rest =>
    if site.token.isName then
      let skipped := if attribs ∧ startsWith .less rest then 3 else 0
      match _h : rest.drop skipped with
      | [] => .localName :: List.replicate skipped .other
      | c :: after =>
        if c.token = .symbol .comma then
          .localName :: List.replicate skipped .other ++ .other :: nameParts attribs after
        else .localName :: List.replicate skipped .other
    else []
termination_by sites => sites.length
decreasing_by
  have hl := congrArg List.length _h
  simp only [List.length_drop, List.length_cons] at hl ⊢
  omega

def listParts : List Site → List Part
  | [] => []
  | site :: rest =>
    match site.token with
    | .symbol .parenClose => [.other]
    | .name _ => .parameter :: listParts rest
    | _ => .other :: listParts rest

/-- From the opening parenthesis of a function on. -/
def openParts : List Site → List Part
  | [] => []
  | _ :: rest => .other :: listParts rest

/-- The dotted rest of a function's name, and the parameters. -/
def pathParts (sites : List Site) : List Part :=
  List.replicate (namePath false sites).1 .other ++ openParts (namePath false sites).2.2

/-- What follows the `function` keyword. -/
def headerParts (isLocal : Bool) : List Site → List Part
  | [] => []
  | site :: rest =>
    if site.token.isName then
      (if isLocal then .localName else .callee !(startsWith .dot rest || startsWith .colon rest)) ::
        pathParts rest
    else openParts (site :: rest)

/-- The tokens that one step of the walk passes. -/
def stepParts (site : Site) (rest : List Site) : List Part :=
  match site.token with
  | .keyword .localKw =>
    match rest with
    | f :: rest' =>
      if f.token = .keyword .functionKw then .other :: .other :: headerParts true rest'
      else .other :: nameParts true rest
    | [] => [.other]
  | .keyword .functionKw => .other :: headerParts false rest
  | .keyword .forKw => .other :: nameParts false rest
  | .keyword .gotoKw => [.other, .other]
  | .symbol .doubleColon =>
    match rest with
    | n :: c :: _ =>
      if n.token.isName ∧ c.token = .symbol .doubleColon then [.other, .other, .other] else [.other]
    | _ => [.other]
  | .name _ => if site.isSelected then [.other] else [.use]
  | _ => [.other]

def parts : List Site → List Part
  | [] => []
  | site :: rest => stepParts site rest ++ parts (rest.drop ((stepParts site rest).length - 1))
termination_by sites => sites.length
decreasing_by
  simp only [List.length_drop, List.length_cons]
  omega

end Reading

/-- The indices that are found by looking ahead from names at the beginning of statements. -/
def scans : List Part → List Site → List Nat
  | p :: ps, site :: rest =>
    (if p = .use ∧ site.mark.start then assignmentTargets site rest else []) ++ scans ps rest
  | _, _ => []

/-- A name here counts as assigned; `found` are the indices of assigned plain names. -/
def Part.assigns (found : List Nat) (site : Site) : Part → Bool
  | callee whole => whole
  | use => site.index ∈ found
  | _ => false

/-- The globals that count as assigned. -/
def recorded (found : List Nat) : List Part → List Role → List Site → List Name
  | p :: ps, r :: rs, site :: sites =>
    if r = .free ∧ p.assigns found site then site.token.text :: recorded found ps rs sites
    else recorded found ps rs sites
  | _, _, _ => []

/-- Remember a name behind those already known. -/
def note (names : List Name) (n : Name) : List Name :=
  if names.contains n then names else names ++ [n]

/-- The first `count` tokens, filled up where a step passes the end of the stream. -/
def taken (count : Nat) (sites : List Site) : List Token :=
  (sites.map (·.token)).takeD count (.symbol .semicolon)

theorem Token.eq_name {t : Token} (h : t.isName = true) : t = .name t.text := by
  cases t <;> first | rfl | cases h

section Lists

variable {found : List Nat} {sites : List Site} {ps ps' : List Part} {rs rs' : List Role}

theorem taken_length (count : Nat) (sites : List Site) : (taken count sites).length = count :=
  List.takeD_length ..

theorem taken_add (m n : Nat) (sites : List Site) :
    taken (m + n) sites = taken m sites ++ taken n (sites.drop m) := by
  induction m generalizing sites with
  | zero => rw [Nat.zero_add, List.drop_zero]; rfl
  | succ m ih =>
    rw [Nat.succ_add]
    cases sites with
    | nil =>
      have hrest := ih []
      rw [List.drop_nil] at hrest ⊢
      exact congrArg (Token.symbol .semicolon :: ·) hrest
    | cons site sites => exact congrArg (site.token :: ·) (ih sites)

theorem scans_nil (ps : List Part) : scans ps [] = [] := by
  cases ps <;> rfl

theorem scans_append :
    scans (ps ++ ps') sites = scans ps sites ++ scans ps' (sites.drop ps.length) := by
  induction ps generalizing sites with
  | nil => rfl
  | cons p ps ih =>
    cases sites with
    | nil => simp [scans_nil]
    | cons site rest =>
      rw [List.cons_append, scans, scans, ih, List.append_assoc, List.length_cons,
        List.drop_succ_cons]

theorem scans_eq_nil (h : Part.use ∉ ps) : scans ps sites = [] := by
  induction ps generalizing sites with
  | nil => rfl
  | cons p ps ih =>
    rw [List.mem_cons, not_or] at h
    cases sites with
    | nil => rfl
    | cons site rest => rw [scans, ih h.2, if_neg fun hp => h.1 hp.1.symm, List.append_nil]

theorem recorded_nil (ps : List Part) (rs : List Role) : recorded found ps rs [] = [] := by
  cases ps <;> cases rs <;> rfl

theorem recorded_append (h : ps.length = rs.length) :
    recorded found (ps ++ ps') (rs ++ rs') sites =
      recorded found ps rs sites ++ recorded found ps' rs' (sites.drop rs.length) := by
  induction ps generalizing rs sites with
  | nil =>
    rw [List.length_eq_zero_iff.mp h.symm]
    rfl
  | cons p ps ih =>
    obtain ⟨r, rs, rfl⟩ := List.exists_cons_of_length_eq_add_one h.symm
    cases sites with
    | nil => simp [recorded_nil]
    | cons site rest =>
      have hrest : recorded found (ps ++ ps') (rs ++ rs') rest =
          recorded found ps rs rest ++ recorded found ps' rs' (rest.drop rs.length) :=
        ih (Nat.succ.inj h)
      rw [List.cons_append, List.cons_append, recorded, recorded, List.length_cons,
        List.drop_succ_cons, hrest]
      split <;> rfl

theorem recorded_eq_nil (h : ∀ p ∈ ps, p.looksUp = false) : recorded found ps rs sites = [] := by
  induction ps generalizing rs sites with
  | nil => rfl
  | cons p ps ih =>
    obtain ⟨hp, hps⟩ := List.forall_mem_cons.mp h
    cases rs with
    | nil => rfl
    | cons r rs =>
      cases sites with
      | nil => rfl
      | cons site rest =>
        have hnot : p.assigns found site = false := by
          cases p <;> first | rfl | cases hp
        rw [recorded, hnot, ih hps, if_neg]
        rintro ⟨-, h⟩
        cases h

theorem mem_recorded_cons {n : Name} {p : Part} {r : Role} {site : Site} :
    n ∈ recorded found (p :: ps) (r :: rs) (site :: sites) ↔
      (r = .free ∧ p.assigns found site = true ∧ site.token.text = n) ∨
        n ∈ recorded found ps rs sites := by
  rw [recorded]
  split <;> rename_i h
  · rw [List.mem_cons, eq_comm]
    tauto
  · tauto

theorem mem_recorded {n : Name} :
    n ∈ recorded found ps rs sites ↔ ∃ (i : Nat) (p : Part) (site : Site), ps[i]? = some p ∧
      rs[i]? = some .free ∧ sites[i]? = some site ∧ p.assigns found site = true ∧
        site.token.text = n := by
  constructor
  · intro h
    induction ps generalizing rs sites with
    | nil => cases h
    | cons p ps ih =>
      cases rs with
      | nil => cases h
      | cons r rs =>
        cases sites with
        | nil => cases h
        | cons site rest =>
          rcases mem_recorded_cons.mp h with ⟨rfl, hassigns, htext⟩ | h
          · exact ⟨0, p, site, rfl, rfl, rfl, hassigns, htext⟩
          · obtain ⟨i, hi⟩ := ih h
            exact ⟨i + 1, hi⟩
  · rintro ⟨i, p, site, hp, hr, hsite, hassigns, htext⟩
    induction i generalizing ps rs sites with
    | zero =>
      obtain ⟨ps, rfl⟩ := List.head?_eq_some_iff.mp (List.head?_eq_getElem? ▸ hp)
      obtain ⟨rs, rfl⟩ := List.head?_eq_some_iff.mp (List.head?_eq_getElem? ▸ hr)
      obtain ⟨rest, rfl⟩ := List.head?_eq_some_iff.mp (List.head?_eq_getElem? ▸ hsite)
      exact mem_recorded_cons.mpr (.inl ⟨rfl, hassigns, htext⟩)
    | succ i ih =>
      cases ps with
      | nil => cases hp
      | cons q ps =>
        cases rs with
        | nil => cases hr
        | cons r rs =>
          cases sites with
          | nil => cases hsite
          | cons first rest => exact mem_recorded_cons.mpr (.inr (ih hp hr hsite))

theorem mem_note {n m : Name} {names : List Name} : n ∈ note names m ↔ n = m ∨ n ∈ names := by
  unfold note
  split
  · rename_i hold
    exact ⟨.inr, fun h => h.elim (fun h => h ▸ List.contains_iff_mem.mp hold) id⟩
  · rw [List.mem_append, List.mem_singleton, or_comm]

theorem mem_foldl_note {n : Name} (ns names : List Name) :
    n ∈ ns.foldl note names ↔ n ∈ ns ∨ n ∈ names := by
  induction ns generalizing names with
  | nil => simp
  | cons m ns ih =>
    rw [List.foldl_cons, ih, mem_note, List.mem_cons]
    tauto

theorem nodup_foldl_note (ns : List Name) {names : List Name} (h : names.Nodup) :
    (ns.foldl note names).Nodup := by
  induction ns generalizing names with
  | nil => exact h
  | cons m ns ih =>
    refine ih ?_
    unfold note
    split
    · exact h
    · rename_i hnew
      rw [List.contains_iff_mem] at hnew
      rw [← List.concat_eq_append]
      exact List.Nodup.concat hnew h

theorem getElem?_taken {i count : Nat} {site : Site} (hi : i < count) (h : sites[i]? = some site) :
    (taken count sites)[i]? = some site.token := by
  induction count generalizing i sites with
  | zero => omega
  | succ count ih =>
    cases sites with
    | nil => cases h
    | cons first rest =>
      cases i with
      | zero =>
        cases h
        rfl
      | succ i => exact ih (Nat.lt_of_succ_lt_succ hi) h

theorem of_getElem?_taken {i count : Nat} {t : Token} (h : (taken count sites)[i]? = some t) :
    t = .symbol .semicolon ∨ (sites.map (·.token))[i]? = some t := by
  induction count generalizing i sites with
  | zero => cases h
  | succ count ih =>
    cases sites with
    | nil =>
      have hall := List.mem_of_getElem? h
      rw [taken, List.map_nil, List.takeD_nil] at hall
      exact .inl (List.eq_of_mem_replicate hall)
    | cons site rest =>
      cases i with
      | zero =>
        cases h
        exact .inr rfl
      | succ i =>
        rw [List.map_cons, List.getElem?_cons_succ]
        exact ih h

end Lists

/-! ### What the walk knows -/

def Waiting.names : Waiting → Frame
  | activate _ names => names
  | leave => []

namespace ScopeState

/-- Everything declared that a name can still be bound to. -/
def entries (s : ScopeState) : Frame :=
  s.frames.flatten ++ s.loops.flatten ++ s.waiting.flatMap (·.2.names)

def known (s : ScopeState) : Env := s.entries.map fun e => ⟨e.2.id, e.1, e.2.implicit⟩

/-- A state that knows no more, with the same numbers and assignments. -/
structure Within (s' s : ScopeState) : Prop where
  entries : s'.entries ⊆ s.entries
  declared : s'.declared = s.declared
  targets : s'.targets = s.targets
  assigned : s'.assigned = s.assigned

/-- The same, but for some names. -/
structure Gains (names : Frame) (s' s : ScopeState) : Prop where
  entries : s'.entries ⊆ names ++ s.entries
  declared : s'.declared = s.declared
  targets : s'.targets = s.targets
  assigned : s'.assigned = s.assigned

variable {s s' s₁ : ScopeState} {names names' : Frame}

theorem Within.refl (s : ScopeState) : s.Within s := ⟨fun _ h => h, rfl, rfl, rfl⟩

theorem Within.trans (h : s'.Within s₁) (h' : s₁.Within s) : s'.Within s where
  entries := List.Subset.trans h.entries h'.entries
  declared := h.declared.trans h'.declared
  targets := h.targets.trans h'.targets
  assigned := h.assigned.trans h'.assigned

theorem Within.known (h : s'.Within s) : s'.known ⊆ s.known := List.map_subset _ h.entries

theorem mem_entries {e : List Char × Decl} : e ∈ s.entries ↔
    (∃ f ∈ s.frames, e ∈ f) ∨ (∃ f ∈ s.loops, e ∈ f) ∨ ∃ w ∈ s.waiting, e ∈ w.2.names := by
  simp only [entries, List.mem_append, List.mem_flatten, List.mem_flatMap, or_assoc]

theorem within_enter (s : ScopeState) : s.enter.Within s := ⟨fun _ h => h, rfl, rfl, rfl⟩

theorem within_leave (s : ScopeState) : s.leave.Within s := by
  unfold leave
  split
  · refine ⟨fun e he => ?_, rfl, rfl, rfl⟩
    rw [mem_entries] at he ⊢
    exact he.imp_left fun ⟨f, hf, he⟩ => ⟨f, List.mem_of_mem_tail hf, he⟩
  · exact .refl s

theorem mem_modify {α : Type} {f : α → α} {l : List α} {i : Nat} {a : α} (h : a ∈ l.modify i f) :
    a ∈ l ∨ ∃ b ∈ l, a = f b := by
  induction l generalizing i with
  | nil => simp at h
  | cons b l ih =>
    cases i with
    | zero =>
      rw [List.modify_zero_cons, List.mem_cons] at h
      rcases h with rfl | h
      · exact .inr ⟨b, List.mem_cons_self, rfl⟩
      · exact .inl (List.mem_cons_of_mem _ h)
    | succ i =>
      rw [List.modify_succ_cons, List.mem_cons] at h
      rcases h with rfl | h
      · exact .inl List.mem_cons_self
      · refine (ih h).imp (List.mem_cons_of_mem _) fun ⟨c, hc, he⟩ => ?_
        exact ⟨c, List.mem_cons_of_mem _ hc, he⟩

theorem gains_modify (s : ScopeState) (i : Nat) (names : Frame) :
    Gains names { s with frames := s.frames.modify i (names.reverse ++ ·) } s := by
  refine ⟨fun e he => ?_, rfl, rfl, rfl⟩
  rw [List.mem_append]
  rcases mem_entries.mp he with ⟨f, hf, he⟩ | hrest
  · rcases mem_modify hf with hf | ⟨g, hg, rfl⟩
    · exact .inr (mem_entries.mpr (.inl ⟨f, hf, he⟩))
    · rcases List.mem_append.mp he with he | he
      · exact .inl (List.mem_reverse.mp he)
      · exact .inr (mem_entries.mpr (.inl ⟨g, hg, he⟩))
  · exact .inr (mem_entries.mpr (.inr hrest))

theorem gains_activateAt (s : ScopeState) (level : Nat) (names : Frame) :
    Gains names (s.activateAt level names) s := by
  unfold activateAt
  split
  · exact s.gains_modify _ names
  · exact ⟨List.subset_append_right _ _, rfl, rfl, rfl⟩

theorem gains_activate (s : ScopeState) (names : Frame) : Gains names (s.activate names) s := by
  rw [activate, List.modifyHead_eq_modify_zero]
  exact s.gains_modify 0 names

theorem gains_wait (s : ScopeState) (index level : Nat) (names : Frame) :
    Gains names (s.wait index (.activate level names)) s := by
  refine ⟨fun e he => ?_, rfl, rfl, rfl⟩
  rw [List.mem_append]
  rcases mem_entries.mp he with hf | hl | ⟨w, hw, he⟩
  · exact .inr (mem_entries.mpr (.inl hf))
  · exact .inr (mem_entries.mpr (.inr (.inl hl)))
  · rcases List.mem_append.mp hw with hw | hw
    · exact .inr (mem_entries.mpr (.inr (.inr ⟨w, hw, he⟩)))
    · rw [List.mem_singleton.mp hw] at he
      exact .inl he

theorem within_wait_leave (s : ScopeState) (index : Nat) : (s.wait index .leave).Within s := by
  refine ⟨fun e he => ?_, rfl, rfl, rfl⟩
  simpa [entries, wait, Waiting.names] using he

theorem gains_loops (s : ScopeState) (names : Frame) :
    Gains names { s with loops := names :: s.loops } s := by
  refine ⟨fun e he => ?_, rfl, rfl, rfl⟩
  simp only [entries, List.mem_append, List.flatten_cons] at he ⊢
  tauto

/-- Names that were known already. -/
theorem Gains.within (h : Gains names s' s₁) (hs : s₁.Within s) (hnames : names ⊆ s.entries) :
    s'.Within s where
  entries := List.Subset.trans h.entries (List.append_subset.mpr ⟨hnames, hs.entries⟩)
  declared := h.declared.trans hs.declared
  targets := h.targets.trans hs.targets
  assigned := h.assigned.trans hs.assigned

/-- The body of a loop takes the variables of its header. -/
theorem within_body (s : ScopeState) {loops : List Frame} (h : s.loops = names :: loops) :
    ({ s.enter with loops }.activate names).Within s := by
  have hloops : s.loops.flatten = names ++ loops.flatten := by rw [h, List.flatten_cons]
  refine (gains_activate _ names).within ⟨fun e he => ?_, rfl, rfl, rfl⟩ fun e he => ?_
  · simp only [entries, hloops, enter, List.mem_append, List.flatten_cons] at he ⊢
    tauto
  · exact mem_entries.mpr (.inr (.inl ⟨names, by rw [h]; exact List.mem_cons_self, he⟩))

theorem within_foldl {f : ScopeState → Waiting → ScopeState} {actions : List Waiting}
    (hf : ∀ s₁ : ScopeState, s₁.Within s → ∀ action ∈ actions, (f s₁ action).Within s) :
    ∀ s₁ : ScopeState, s₁.Within s → (actions.foldl f s₁).Within s := by
  induction actions with
  | nil => exact fun s₁ h => h
  | cons action actions ih =>
    intro s₁ h
    exact ih (fun s₂ h₂ a ha => hf s₂ h₂ a (List.mem_cons_of_mem _ ha)) _
      (hf s₁ h action List.mem_cons_self)

/-- What was waiting is known already. -/
theorem within_settle (s : ScopeState) (index : Nat) : (s.settle index).Within s := by
  have hkept : ScopeState.Within { s with waiting := s.waiting.filter (·.1 != index) } s := by
    refine ⟨fun e he => ?_, rfl, rfl, rfl⟩
    rw [mem_entries] at he ⊢
    exact he.imp_right fun h => h.imp_right fun ⟨w, hw, he⟩ => ⟨w, List.mem_of_mem_filter hw, he⟩
  have hdue : ∀ action ∈ (s.waiting.filter (·.1 == index)).map Prod.snd,
      action.names ⊆ s.entries := by
    intro action ha e he
    obtain ⟨w, hw, rfl⟩ := List.mem_map.mp ha
    exact mem_entries.mpr (.inr (.inr ⟨w, List.mem_of_mem_filter hw, he⟩))
  refine within_foldl (fun s₁ h action _ => ?_) _ (within_foldl (fun s₁ h action ha => ?_) _ hkept)
  · cases action with
    | activate level names => exact h
    | leave => exact (within_leave s₁).trans h
  · cases action with
    | activate level names => exact (gains_activateAt s₁ level names).within h (hdue _ ha)
    | leave => exact h

/-- What a name that is looked up changes, if it is a global. -/
theorem assigns_only (s : ScopeState) (n : Name) (isAssigned : Bool) :
    (if isAssigned then s.assign n else s).known = s.known ∧
      (if isAssigned then s.assign n else s).declared = s.declared ∧
      (if isAssigned then s.assign n else s).targets = s.targets ∧
      (if isAssigned then s.assign n else s).assigned =
        if isAssigned then note s.assigned n else s.assigned := by
  cases isAssigned with
  | false => exact ⟨rfl, rfl, rfl, rfl⟩
  | true =>
    simp only [if_true, assign, note, List.contains_iff_mem]
    split <;> exact ⟨rfl, rfl, rfl, rfl⟩

end ScopeState

/-! ### Steps -/

/-- From `s` to `s'` the walk passes tokens with these parts, and gives them these roles. -/
structure Takes (found : List Nat) (s : ScopeState) (sites : List Site) (ps : List Part)
    (rs : List Role) (s' : ScopeState) : Prop where
  allowed : List.Forall₂ Part.Allows ps rs
  binds : ∃ count, s'.declared = s.declared + count ∧
    Binds s.known s.declared count (taken rs.length sites) rs s'.known
  targets : ∀ k, k ∈ s'.targets ↔ k ∈ scans ps sites ∨ k ∈ s.targets
  assigned : s'.assigned = (recorded found ps rs sites).foldl note s.assigned

namespace Takes

variable {found : List Nat} {s s' s₁ : ScopeState} {sites rest : List Site} {site : Site}
  {ps ps' : List Part} {rs rs' : List Role} {names : Frame}

theorem length_eq (h : Takes found s sites ps rs s') : ps.length = rs.length :=
  h.allowed.length_eq

theorem append (h : Takes found s sites ps rs s₁)
    (h' : Takes found s₁ (sites.drop rs.length) ps' rs' s') :
    Takes found s sites (ps ++ ps') (rs ++ rs') s' where
  allowed := List.rel_append h.allowed h'.allowed
  binds := by
    obtain ⟨count, hcount, hbinds⟩ := h.binds
    obtain ⟨count', hcount', hbinds'⟩ := h'.binds
    refine ⟨count + count', by omega, ?_⟩
    rw [List.length_append, taken_add]
    exact hbinds.append hbinds' hcount
  targets := by
    intro k
    rw [h'.targets, h.targets, scans_append, List.mem_append, h.length_eq]
    tauto
  assigned := by
    rw [h'.assigned, h.assigned, recorded_append h.length_eq, List.foldl_append]

theorem after_within (h : Takes found s sites ps rs s₁) (hs : s'.Within s₁) :
    Takes found s sites ps rs s' where
  allowed := h.allowed
  binds := by
    obtain ⟨count, hcount, hbinds⟩ := h.binds
    exact ⟨count, hs.declared.trans hcount, hbinds.restrict hs.known⟩
  targets := by rw [hs.targets]; exact h.targets
  assigned := hs.assigned.trans h.assigned

theorem of_within (h : Takes found s₁ sites ps rs s') (hs : s₁.Within s) :
    Takes found s sites ps rs s' where
  allowed := h.allowed
  binds := by
    obtain ⟨count, hcount, hbinds⟩ := h.binds
    rw [hs.declared] at hcount hbinds
    exact ⟨count, hcount, hbinds.widen hs.known⟩
  targets := by rw [← hs.targets]; exact h.targets
  assigned := by rw [← hs.assigned]; exact h.assigned

/-- Where nothing is looked up. -/
theorem of_binds {count : Nat} {Γ : Env} (hps : ∀ p ∈ ps, p.looksUp = false)
    (hallowed : List.Forall₂ Part.Allows ps rs)
    (hbinds : Binds s.known s.declared count (taken rs.length sites) rs Γ)
    (hknown : s'.known ⊆ Γ) (hdeclared : s'.declared = s.declared + count)
    (htargets : s'.targets = s.targets) (hassigned : s'.assigned = s.assigned) :
    Takes found s sites ps rs s' where
  allowed := hallowed
  binds := ⟨count, hdeclared, hbinds.restrict hknown⟩
  targets := by simp [scans_eq_nil fun h => Bool.false_ne_true (hps _ h).symm, htargets]
  assigned := by rw [recorded_eq_nil hps, hassigned]; rfl

theorem others (count : Nat) (s : ScopeState) :
    Takes found s sites (List.replicate count .other) (List.replicate count .other) s := by
  have hbinds := Binds.others (Γ := s.known) (k := s.declared) (taken count sites)
  rw [List.map_const', taken_length] at hbinds
  refine of_binds (Γ := s.known) ?_ ?_ ?_ (List.Subset.refl _) (Nat.add_zero _).symm rfl rfl
  · intro p hp
    rw [List.eq_of_mem_replicate hp]
    rfl
  · rw [List.forall₂_iff_get]
    simp [Part.Allows]
  · rw [List.length_replicate]
    exact hbinds

theorem cons (h : Takes found s rest ps rs s') :
    Takes found s (site :: rest) (.other :: ps) (.other :: rs) s' :=
  append (others 1 s) h

/-- One name is declared. -/
theorem declares {p : Part} {n : Name} (hp : p.declares = true) (hn : site.token = .name n)
    (hs : ScopeState.Gains [(n, ⟨s.declared, false⟩)] s' (s.number 1)) :
    Takes found s (site :: rest) [p] [.declares ⟨s.declared, n, false⟩] s' := by
  have htaken : taken 1 (site :: rest) = [.name n] := by
    rw [← hn]
    rfl
  refine of_binds ?_ (.cons ?_ .nil) ?_ (List.map_subset _ hs.entries) hs.declared hs.targets
    hs.assigned
  · rw [List.forall_mem_singleton]
    cases p <;> first | rfl | cases hp
  · cases p <;> first | exact ⟨_, rfl, rfl⟩ | cases hp
  · rw [List.length_singleton, htaken]
    exact Binds.declares n

/-- The receiver of a method is declared behind the opening parenthesis. -/
theorem receive (method : Bool) (s : ScopeState) :
    Takes found s (site :: rest) [.other] [.other]
      (if method then
        let (d, s) := s.enter.fresh true
        s.activate [(['s', 'e', 'l', 'f'], d)]
      else s.enter) := by
  cases method with
  | false => exact (others 1 s).after_within s.within_enter
  | true =>
    let self : Variable := ⟨s.declared, ['s', 'e', 'l', 'f'], true⟩
    have hbinds : Binds s.known s.declared 1 (taken 1 (site :: rest)) [.other]
        (s.known.declare [self]) :=
      .receive (.others (taken 1 (site :: rest))) (List.forall_mem_singleton.mpr rfl)
    have hs := ScopeState.gains_activate (s.enter.number 1)
      [(['s', 'e', 'l', 'f'], ⟨s.declared, true⟩)]
    exact of_binds (by simp [Part.looksUp]) (.cons rfl .nil) hbinds (List.map_subset _ hs.entries)
      rfl rfl rfl

/-- One name is looked up, maybe after looking ahead for targets. -/
theorem looks {p : Part} {n : Name} {isAssigned : Bool} (targets : List Nat) (hp : p.looksUp = true)
    (hn : site.token = .name n) (hassigns : p.assigns found site = isAssigned)
    (htargets : ∀ k, k ∈ targets ↔ k ∈ scans [p] (site :: rest) ∨ k ∈ s.targets) :
    ∃ r, (ScopeState.reference { s with targets } n isAssigned).1 = r.binding ∧
      Takes found s (site :: rest) [p] [r]
        (ScopeState.reference { s with targets } n isAssigned).2 := by
  have htaken : taken 1 (site :: rest) = [.name n] := by
    rw [← hn]
    rfl
  unfold ScopeState.reference
  cases hlookup : ScopeState.lookup? { s with targets } n with
  | some d =>
    refine ⟨.refers ⟨d.id, n, d.implicit⟩, rfl, ?_, ⟨0, rfl, ?_⟩, htargets, ?_⟩
    · refine .cons ?_ .nil
      cases p <;> first | rfl | exact ⟨rfl, Role.noConfusion⟩ | cases hp
    · rw [List.length_singleton, htaken]
      refine .single rfl rfl fun v hv => ?_
      cases hv
      rw [ScopeState.lookup?, lookup_flatten] at hlookup
      obtain ⟨l, l', hl, -⟩ := List.lookup_eq_some_iff.mp hlookup
      refine List.mem_map.mpr ⟨(n, d), ?_, rfl⟩
      exact ScopeState.mem_entries.mpr (.inl (List.mem_flatten.mp (hl ▸ by simp)))
    · simp [recorded]
  | none =>
    obtain ⟨hknown, hdeclared, hsame, hassigned⟩ :=
      ScopeState.assigns_only { s with targets } n isAssigned
    refine ⟨.free, rfl, ?_, ⟨0, hdeclared, ?_⟩, by rw [hsame]; exact htargets, ?_⟩
    · refine .cons ?_ .nil
      cases p <;> first | rfl | exact ⟨rfl, Role.noConfusion⟩ | cases hp
    · rw [List.length_singleton, htaken, hknown]
      exact .single rfl rfl fun v hv => by cases hv
    · rw [hassigned]
      cases isAssigned <;> simp [recorded, hassigns, hn, Token.text]

end Takes

section Declaring

variable {found : List Nat} {s s' : ScopeState} {site : Site} {sites rest : List Site}
  {bs : List Binding} {n : Name}

theorem looksUp_nameParts (attribs : Bool) (sites : List Site) :
    ∀ p ∈ nameParts attribs sites, p.looksUp = false := by
  fun_induction nameParts attribs sites <;>
    simp_all [Part.looksUp, List.mem_replicate, or_imp]

theorem allows_others (count : Nat) :
    List.Forall₂ Part.Allows (List.replicate count .other) (List.replicate count .other) := by
  rw [List.forall₂_iff_get]
  simp [Part.Allows]

/-- Names that are read from `s` on are declared in the order of the text. -/
structure Lists (s : ScopeState) (sites : List Site) (ps : List Part) (bs : List Binding)
    (names : Frame) (s' : ScopeState) (rs : List Role) (vs : List Variable) : Prop where
  bindings : bs = Lua.bindings rs
  names : names = Env.entries vs
  state : s' = s.number vs.length
  allowed : List.Forall₂ Part.Allows ps rs
  binds : ∀ Γ : Env, Binds Γ s.declared vs.length (taken rs.length sites) rs (Γ.declare vs)

namespace Lists

theorem nil : Lists s sites [] [] [] s [] [] := ⟨rfl, rfl, rfl, .nil, fun _ => .nil⟩

theorem single (s : ScopeState) (rest : List Site) (skipped : Nat) (hn : site.token = .name n) :
    Lists s (site :: rest) (.localName :: List.replicate skipped .other)
      (.declared ⟨s.declared, false⟩ :: List.replicate skipped .unbound)
      [(n, ⟨s.declared, false⟩)] (s.number 1)
      (.declares ⟨s.declared, n, false⟩ :: List.replicate skipped .other)
      [⟨s.declared, n, false⟩] where
  bindings := by simp [Lua.bindings, Role.binding, Variable.decl]
  names := rfl
  state := rfl
  allowed := .cons ⟨_, rfl, rfl⟩ (allows_others skipped)
  binds := by
    intro Γ
    have hothers := Binds.others (Γ := Γ.declare [⟨s.declared, n, false⟩]) (k := s.declared + 1)
      (taken skipped rest)
    have htaken : taken (skipped + 1) (site :: rest) = .name n :: taken skipped rest := by
      rw [← hn]
      rfl
    have hlength : (.declares ⟨s.declared, n, false⟩ :: List.replicate skipped Role.other).length =
        skipped + 1 := by rw [List.length_cons, List.length_replicate]
    rw [List.map_const', taken_length] at hothers
    rw [hlength, htaken]
    exact (Binds.declares n).append hothers rfl

theorem comma {ps ps' : List Part} {bs bs' : List Binding} {names names' : Frame}
    {s₁ s' : ScopeState} {rs rs' : List Role} {vs vs' : List Variable} {after : List Site}
    (h : Lists s sites ps bs names s₁ rs vs)
    (hafter : sites.drop (rs.length + 1) = after) (h' : Lists s₁ after ps' bs' names' s' rs' vs') :
    Lists s sites (ps ++ .other :: ps') (bs ++ .unbound :: bs') (names ++ names') s'
      (rs ++ .other :: rs') (vs ++ vs') where
  bindings := by rw [h.bindings, h'.bindings, bindings_append]; rfl
  names := by rw [h.names, h'.names, Env.entries, Env.entries, Env.entries, List.map_append]
  state := by
    rw [h'.state, h.state, List.length_append, ScopeState.number, ScopeState.number,
      ScopeState.number, Nat.add_assoc]
  allowed := List.rel_append h.allowed (.cons rfl h'.allowed)
  binds := by
    intro Γ
    have hcomma : Binds (Γ.declare vs) (s.declared + vs.length) 0 (taken 1 (sites.drop rs.length))
        [.other] (Γ.declare vs) := .others _
    have hnumber : s₁.declared = s.declared + vs.length + 0 := by rw [h.state]; rfl
    have hrest := (h.binds Γ).append (hcomma.append (h'.binds _) hnumber) rfl
    have htaken : taken (rs ++ .other :: rs').length sites = taken rs.length sites ++
        (taken 1 (sites.drop rs.length) ++ taken rs'.length after) := by
      rw [List.length_append, List.length_cons, Nat.add_comm rs'.length 1, taken_add, taken_add,
        List.drop_drop, hafter]
    rw [htaken, List.length_append, ← Binds.declare_append, ← Nat.zero_add vs'.length]
    exact hrest

/-- What a list declares is known where it has taken effect. -/
theorem passes {ps : List Part} {bs : List Binding} {names : Frame} {s₁ : ScopeState}
    {rs : List Role} {vs : List Variable} (h : Lists s sites ps bs names s₁ rs vs)
    (hps : ∀ p ∈ ps, p.looksUp = false) (hs : ScopeState.Gains names s' s₁) :
    Takes found s sites ps rs s' := by
  have hstate := h.state
  refine .of_binds hps h.allowed (h.binds s.known) ?_ ?_ ?_ ?_
  · intro v hv
    obtain ⟨e, he, rfl⟩ := List.mem_map.mp hv
    rcases List.mem_append.mp (hs.entries he) with he | he
    · rw [h.names] at he
      obtain ⟨w, hw, rfl⟩ := List.mem_map.mp he
      exact List.mem_append_left _ (List.mem_reverse.mpr hw)
    · rw [hstate] at he
      exact List.mem_append_right _ (List.mem_map_of_mem he)
  · rw [hs.declared, hstate]
    rfl
  · rw [hs.targets, hstate]
    rfl
  · rw [hs.assigned, hstate]
    rfl

end Lists

/-- The parts of a list behind its first name. -/
def moreParts (attribs : Bool) (own : List Part) : List Site → List Part
  | [] => own
  | c :: after =>
    if c.token = .symbol .comma then own ++ .other :: nameParts attribs after else own

theorem nameParts_name {attribs : Bool} {skipped : Nat} (hn : site.token = .name n)
    (hskip : (if attribs = true ∧ startsWith .less rest = true then 3 else 0) = skipped) :
    nameParts attribs (site :: rest) =
      moreParts attribs (.localName :: List.replicate skipped .other) (rest.drop skipped) := by
  have hname : site.token.isName = true := by rw [hn]; rfl
  rw [nameParts, if_pos hname]
  simp only [moreParts]
  split <;> rename_i heq <;> rw [hskip] at heq <;> simp only [heq, hskip]

theorem nameParts_other (attribs : Bool) (hn : ∀ n, site.token ≠ .name n) :
    nameParts attribs (site :: rest) = [] := by
  rw [nameParts, if_neg]
  intro hname
  exact hn _ (Token.eq_name hname)

theorem lists_declareNames (attribs : Bool) (s : ScopeState) (sites : List Site) :
    ∃ rs vs, Lists s sites (nameParts attribs sites) (declareNames attribs s sites).1
      (declareNames attribs s sites).2.1 (declareNames attribs s sites).2.2.1 rs vs := by
  induction hlength : sites.length using Nat.strongRecOn generalizing s sites with
  | _ length ih =>
    cases sites with
    | nil => exact ⟨[], [], by rw [declareNames, nameParts]; exact .nil⟩
    | cons site rest =>
      by_cases hname : ∃ n, site.token = .name n
      · obtain ⟨n, hn⟩ := hname
        let skipped := if attribs = true ∧ startsWith .less rest = true then 3 else 0
        have hskipped :
            (if attribs = true ∧ startsWith .less rest = true then 3 else 0) = skipped := rfl
        have hfirst := Lists.single s rest skipped hn
        rw [declareNames_name site hn hskipped, nameParts_name hn hskipped]
        cases hdrop : rest.drop skipped with
        | nil => exact ⟨_, _, hfirst⟩
        | cons c after =>
          have hshort := congrArg List.length hdrop
          rw [List.length_drop, List.length_cons] at hshort
          rw [List.length_cons] at hlength
          rw [declareMore, moreParts]
          split
          · obtain ⟨rs, vs, hrest⟩ := ih after.length (by omega) (s.number 1) after rfl
            refine ⟨_, _, hfirst.comma ?_ hrest⟩
            rw [List.length_cons, List.length_replicate, List.drop_succ_cons, ← List.drop_drop,
              hdrop, List.drop_one, List.tail_cons]
          · exact ⟨_, _, hfirst⟩
      · have hnot : ∀ n, site.token ≠ .name n := fun n hn => hname ⟨n, hn⟩
        rw [declareNames_other attribs hnot, nameParts_other attribs hnot]
        exact ⟨[], [], .nil⟩

end Declaring

/-- Where a part of a step succeeds, it passes tokens with these parts. -/
def Steps (found : List Nat) (s : ScopeState) (sites : List Site) (ps : List Part)
    (passed : Except ScopeFault Passed) : Prop :=
  ∀ bs s', passed = .ok (bs, s') → ∃ rs, bs = bindings rs ∧ Takes found s sites ps rs s'

namespace Steps

variable {found : List Nat} {s s' s₁ : ScopeState} {site : Site} {sites rest : List Site}
  {ps ps' : List Part} {passed : Except ScopeFault Passed}

theorem error (e : ScopeFault) : Steps found s sites ps (.error e) := nofun

theorem pass (count : Nat) (hs : s'.Within s) :
    Steps found s sites (List.replicate count .other) (.ok (Lua.pass count s')) := by
  intro bs s₁ h
  cases h
  exact ⟨List.replicate count .other, by simp [bindings, Role.binding],
    (Takes.others count s).after_within hs⟩

theorem after (h : Steps found s rest ps passed) :
    Steps found s (site :: rest) (.other :: ps) (after .unbound passed) := by
  intro bs s₁ hafter
  cases passed with
  | error e => cases hafter
  | ok p =>
    cases hafter
    obtain ⟨rs, hbs, hpasses⟩ := h _ _ rfl
    exact ⟨.other :: rs, by rw [hbs]; rfl, hpasses.cons⟩

end Steps

section Handlers

variable {found : List Nat} {s s' : ScopeState} {site : Site} {sites rest : List Site}
  {bs : List Binding} {n : Name}

theorem steps_parameters (s : ScopeState) (sites : List Site) :
    Steps found s sites (listParts sites) (parameters s sites) := by
  intro bs s' h
  fun_induction parameters s sites generalizing bs s' with
  | case1 => cases h
  | case2 s site rest hclose =>
    rw [listParts, hclose]
    exact Steps.pass 1 (.refl s) bs s' h
  | case3 s site rest n hn d s₁ hfresh bs₁ s₂ hrest ih =>
    cases h
    cases hfresh
    obtain ⟨rs, hbs, hpasses⟩ := ih _ _ hrest
    rw [listParts, hn]
    refine ⟨.declares ⟨s.declared, n, false⟩ :: rs, by rw [hbs]; rfl, ?_⟩
    exact (Takes.declares rfl hn (ScopeState.gains_activate _ _)).append hpasses
  | case4 => cases h
  | case5 s site rest bs₁ s₂ hrest hclose hn ih =>
    cases h
    obtain ⟨rs, hbs, hpasses⟩ := ih _ _ hrest
    have hparts : listParts (site :: rest) = .other :: listParts rest := by
      rw [listParts]
      split
      · exact absurd ‹_› hclose
      · exact absurd ‹_› (hn _)
      · rfl
    rw [hparts]
    exact ⟨.other :: rs, by rw [hbs]; rfl, hpasses.cons⟩
  | case6 => cases h

theorem steps_functionParams (method : Bool) (s : ScopeState) (sites : List Site) :
    Steps found s sites (openParts sites) (functionParams method s sites) := by
  intro bs s' h
  unfold functionParams at h
  split at h
  · rename_i site rest
    split at h
    · dsimp only at h
      split at h
      · rename_i hparams
        cases h
        obtain ⟨rs, hbs, hpasses⟩ := steps_parameters _ rest _ _ hparams
        exact ⟨.other :: rs, by rw [hbs]; rfl, (Takes.receive method s).append hpasses⟩
      · cases h
    · cases h
  · cases h

/-- A function from its first name on, which is bound already or here. -/
theorem steps_header {known : Option Binding} {s₀ s₁ : ScopeState} {p : Part} {r : Role}
    (hn : site.token = .name n)
    (hb : known = some r.binding ∧ s₁ = s ∨
      known = none ∧
        s.reference n (!(startsWith .dot rest || startsWith .colon rest)) = (r.binding, s₁))
    (hfirst : Takes found s₀ (site :: rest) [p] [r] s₁) :
    Steps found s₀ (site :: rest) (p :: pathParts rest)
      (functionHeader known s (site :: rest)) := by
  intro bs s' h
  cases hparams : functionParams (namePath false rest).2.1 s₁ (namePath false rest).2.2 with
  | error e =>
    rcases hb with ⟨rfl, rfl⟩ | ⟨rfl, hb⟩
    · simp only [functionHeader, hn, hparams] at h
      cases h
    · simp only [functionHeader, hn, hb, hparams] at h
      cases h
  | ok result =>
    rw [functionHeader_name site hn hb rfl hparams] at h
    cases h
    obtain ⟨rs, hbs, hopen⟩ := steps_functionParams _ _ _ _ _ hparams
    have hpath : Takes found s₁ rest (pathParts rest)
        (List.replicate (namePath false rest).1 .other ++ rs) result.2 := by
      refine (Takes.others _ s₁).append ?_
      rw [List.length_replicate, ← namePath_drop]
      exact hopen
    refine ⟨_, ?_, hfirst.append hpath⟩
    simp [hbs, bindings, Role.binding]

theorem steps_functionHeader (s : ScopeState) (sites : List Site) :
    Steps found s sites (headerParts false sites) (functionHeader none s sites) := by
  cases sites with
  | nil => exact .error _
  | cons site rest =>
    by_cases hname : ∃ n, site.token = .name n
    · obtain ⟨n, hn⟩ := hname
      let p : Part := .callee !(startsWith .dot rest || startsWith .colon rest)
      have hscans : ∀ k, k ∈ s.targets ↔ k ∈ scans [p] (site :: rest) ∨ k ∈ s.targets := by
        simp [p, scans]
      obtain ⟨r, hr, hfirst⟩ := Takes.looks s.targets rfl hn rfl hscans
      have hparts : headerParts false (site :: rest) =
          Part.callee (!(startsWith .dot rest || startsWith .colon rest)) :: pathParts rest := by
        simp [headerParts, hn, Token.isName]
      rw [hparts]
      exact steps_header hn (.inr ⟨rfl, Prod.ext hr rfl⟩) hfirst
    · have hnot : site.token.isName = false := by
        rw [Bool.eq_false_iff]
        exact fun h => hname ⟨_, Token.eq_name h⟩
      have hheader :
          functionHeader none s (site :: rest) = functionParams false s (site :: rest) := by
        rw [functionHeader]
        split
        · exact absurd ⟨_, ‹_›⟩ hname
        · rfl
      rw [headerParts, hnot, hheader]
      exact steps_functionParams false s (site :: rest)

theorem steps_localFunction (s : ScopeState) (sites : List Site) :
    Steps found s sites (headerParts true sites) (localFunction s sites) := by
  intro bs s' h
  unfold localFunction at h
  split at h
  · rename_i site rest
    split at h
    · rename_i n hn
      have hparts : headerParts true (site :: rest) = .localName :: pathParts rest := by
        simp [headerParts, hn, Token.isName]
      rw [hparts]
      have hfirst : Takes found s (site :: rest) [.localName] [.declares ⟨s.declared, n, false⟩]
          ((s.number 1).activate [(n, ⟨s.declared, false⟩)]) :=
        .declares rfl hn (ScopeState.gains_activate _ _)
      exact steps_header hn (.inl ⟨rfl, rfl⟩) hfirst bs s' h
    · cases h
  · cases h

theorem steps_localStatement (s : ScopeState) (site : Site) (sites : List Site) :
    Steps found s sites (nameParts true sites) (localStatement s site sites) := by
  obtain ⟨rs, vs, hlist⟩ := lists_declareNames true s sites
  intro bs s' h
  have hpass : ScopeState.Gains (declareNames true s sites).2.1 s'
      (declareNames true s sites).2.2.1 ∧ bs = (declareNames true s sites).1 := by
    unfold localStatement at h
    dsimp only at h
    split at h
    · cases h
    · split at h
      · split at h <;> cases h
        · exact ⟨ScopeState.gains_wait _ _ _ _, rfl⟩
        · exact ⟨⟨List.subset_append_right _ _, rfl, rfl, rfl⟩, rfl⟩
      · cases h
        exact ⟨ScopeState.gains_activate _ _, rfl⟩
  obtain ⟨hgains, rfl⟩ := hpass
  exact ⟨rs, hlist.bindings, hlist.passes (looksUp_nameParts true sites) hgains⟩

theorem steps_stepKeyword (s : ScopeState) (rest : List Site) {k : Keyword}
    (hk : site.token = .keyword k) :
    Steps found s (site :: rest) (stepParts site rest) (stepKeyword s site rest k) := by
  have single : ∀ s' : ScopeState, s'.Within s →
      Steps found s (site :: rest) [.other] (.ok (pass 1 s')) := fun s' hs => .pass 1 hs
  unfold stepParts
  rw [hk]
  cases k with
  | localKw =>
    cases rest with
    | nil => exact .error _
    | cons f rest =>
      simp only [stepKeyword]
      split
      · exact .after (.after (steps_localFunction s rest))
      · exact .after (steps_localStatement s site _)
  | functionKw => exact .after (steps_functionHeader s rest)
  | forKw =>
    obtain ⟨rs, vs, hlist⟩ := lists_declareNames false s rest
    intro bs s' h
    cases h
    refine ⟨.other :: rs, by rw [hlist.bindings]; rfl, ?_⟩
    exact (hlist.passes (looksUp_nameParts false rest) (ScopeState.gains_loops _ _)).cons
  | whileKw => exact single _ ⟨fun _ h => h, rfl, rfl, rfl⟩
  | doKw =>
    simp only [stepKeyword]
    split
    · exact single _ (s.within_body ‹_›)
    · exact single _ s.within_enter
  | thenKw | repeatKw => exact single _ s.within_enter
  | elseKw => exact single _ (s.leave.within_enter.trans s.within_leave)
  | elseifKw | endKw => exact single _ s.within_leave
  | untilKw =>
    simp only [stepKeyword]
    split
    · exact single _ (s.within_wait_leave _)
    · exact single _ (.refl s)
  | gotoKw => exact .pass 2 (.refl s)
  | _ => exact single _ (.refl s)

theorem isSelected_iff (site : Site) : site.isSelected = true ↔
    site.before = some (.symbol .dot) ∨ site.before = some (.symbol .colon) := by
  rw [Site.isSelected]
  cases site.before with
  | none => simp
  | some t =>
    cases t with
    | symbol m => cases m <;> simp [Token.selects]
    | _ => simp [Token.selects]

/-- A name that begins a step. -/
theorem steps_name (s : ScopeState) (rest : List Site) (hn : site.token = .name n)
    (hfound : site.index ∈ found ↔ site.index ∈ scans (stepParts site rest) (site :: rest) ∨
      site.index ∈ s.targets) :
    Steps found s (site :: rest) (stepParts site rest)
      (.ok ([(nameUse s site n rest).1], (nameUse s site n rest).2)) := by
  have hparts : stepParts site rest = if site.isSelected then [.other] else [.use] := by
    simp only [stepParts, hn]
  have hselected := isSelected_iff site
  rw [hparts] at hfound ⊢
  intro bs s' h
  cases h
  unfold nameUse
  split
  · rw [if_pos (hselected.mpr ‹_›)]
    exact ⟨[.other], rfl, .others 1 s⟩
  · have hnot : ¬ site.isSelected = true := fun h => absurd (hselected.mp h) ‹_›
    rw [if_neg hnot] at hfound ⊢
    split
    · rename_i hkey
      have hscans : scans [.use] (site :: rest) = [] := by simp [scans, hkey.2.1]
      refine ⟨[.other], rfl, .cons rfl .nil, ⟨0, rfl, ?_⟩, by simp [hscans], ?_⟩
      · exact Binds.others (taken 1 (site :: rest))
      · simp [recorded]
    · let targets := if site.mark.start then assignmentTargets site rest ++ s.targets else s.targets
      have htargets : ∀ k, k ∈ targets ↔ k ∈ scans [.use] (site :: rest) ∨ k ∈ s.targets := by
        intro k
        cases hstart : site.mark.start <;> simp [targets, scans, hstart]
      have hstate : (if site.mark.start = true then
          { s with targets := assignmentTargets site rest ++ s.targets } else s) =
          { s with targets } := by
        dsimp only [targets]
        split <;> rfl
      have hassigns : Part.assigns found site .use = decide (site.index ∈ targets) :=
        decide_eq_decide.mpr (hfound.trans (htargets _).symm)
      rw [hstate]
      obtain ⟨r, hr, hlooks⟩ := Takes.looks targets rfl hn hassigns htargets
      exact ⟨[r], congrArg (fun b => [b]) hr, hlooks⟩

theorem steps_step (s : ScopeState) (site : Site) (rest : List Site)
    (hfound : site.index ∈ found ↔ site.index ∈ scans (stepParts site rest) (site :: rest) ∨
      site.index ∈ s.targets) :
    Steps found s (site :: rest) (stepParts site rest) (step s site rest) := by
  have single : ∀ s' : ScopeState, s'.Within s →
      Steps found s (site :: rest) [.other] (.ok (pass 1 s')) := fun s' hs => .pass 1 hs
  have hstep := step.eq_def s site rest
  have hparts := stepParts.eq_def site rest
  cases htoken : site.token with
  | keyword k =>
    rw [hstep, htoken]
    exact steps_stepKeyword s rest htoken
  | name n =>
    rw [hstep, htoken]
    exact steps_name s rest htoken hfound
  | number _ | string _ | comment _ =>
    rw [hstep, hparts, htoken]
    exact single s (.refl s)
  | symbol m =>
    rw [hstep, hparts, htoken]
    cases m with
    | doubleColon =>
      match rest with
      | [] | [_] => exact single s (.refl s)
      | n :: c :: _ =>
        dsimp only
        split
        · exact .pass 3 (.refl s)
        · exact single s (.refl s)
    | parenOpen | bracketOpen | braceOpen | parenClose | bracketClose | braceClose =>
      exact single _ ⟨fun _ h => h, rfl, rfl, rfl⟩
    | _ => exact single s (.refl s)

end Handlers

/-- Sites in the order of the text. -/
abbrev Ordered (sites : List Site) : Prop := sites.Pairwise (·.index < ·.index)

theorem parts_cons (site : Site) (rest : List Site) :
    parts (site :: rest) =
      stepParts site rest ++ parts (rest.drop ((stepParts site rest).length - 1)) := by
  rw [parts]

theorem stepParts_length (site : Site) (rest : List Site) : 0 < (stepParts site rest).length := by
  unfold stepParts
  repeat' split
  all_goals simp

theorem drop_stepParts (site : Site) (rest : List Site) :
    (site :: rest).drop (stepParts site rest).length =
      rest.drop ((stepParts site rest).length - 1) := by
  have hpos := stepParts_length site rest
  obtain ⟨count, hcount⟩ := Nat.exists_eq_add_one.mpr hpos
  rw [hcount, List.drop_succ_cons, Nat.add_sub_cancel]

theorem mem_targetsAhead {depth k : Nat} {found : List Nat} {sites : List Site}
    (h : k ∈ targetsAhead depth found sites) : k ∈ found ∨ ∃ site ∈ sites, site.index = k := by
  have later : ∀ {found : List Nat} {site : Site} {rest : List Site},
      (k ∈ found ∨ ∃ site ∈ rest, site.index = k) →
        k ∈ found ∨ ∃ site' ∈ site :: rest, site'.index = k :=
    fun h => h.imp_right fun ⟨site', hmem, heq⟩ => ⟨site', List.mem_cons_of_mem _ hmem, heq⟩
  fun_induction targetsAhead depth found sites with
  | case1 | case2 | case13 | case14 => cases h
  | case9 => exact .inl h
  | case11 depth found site _ _ n after _ ih =>
    -- a target is found behind the comma
    rcases ih h with hfound | hrest
    · refine (List.mem_append.mp hfound).imp_right fun hn => ?_
      exact ⟨n, by simp, (List.mem_singleton.mp hn).symm⟩
    · exact later (.inr hrest)
  | case3 _ _ _ _ _ _ ih | case4 _ _ _ _ _ _ ih | case5 _ _ _ _ _ _ ih | case6 _ _ _ _ _ _ ih
  | case7 _ _ _ _ _ _ ih | case8 _ _ _ _ _ _ ih => exact later (ih h)
  | case10 _ _ _ _ _ _ _ ih => exact later (ih h)
  | case12 _ _ _ _ _ _ _ _ ih => exact later (ih h)
  | case15 _ _ _ _ _ _ _ _ _ _ _ _ _ _ ih => exact later (ih h)

/-- What is found lies ahead. -/
theorem mem_scans {k : Nat} {ps : List Part} {sites : List Site} (h : k ∈ scans ps sites) :
    ∃ site ∈ sites, site.index = k := by
  induction ps generalizing sites with
  | nil => cases h
  | cons p ps ih =>
    cases sites with
    | nil => cases h
    | cons site rest =>
      rw [scans, List.mem_append] at h
      rcases h with h | h
      · split at h
        · rcases mem_targetsAhead h with hfirst | ⟨later, hlater, rfl⟩
          · split at hfirst
            · exact ⟨site, List.mem_cons_self, (List.mem_singleton.mp hfirst).symm⟩
            · cases hfirst
          · exact ⟨later, List.mem_cons_of_mem _ hlater, rfl⟩
        · cases h
      · obtain ⟨later, hlater, rfl⟩ := ih h
        exact ⟨later, List.mem_cons_of_mem _ hlater, rfl⟩

/-- The walk takes the tokens of any stream for what they are taken for by themselves. -/
theorem takes_walk {s s' : ScopeState} {sites : List Site} {bs : List Binding} {found : List Nat}
    (h : walk s sites = .ok (bs, s')) (hordered : Ordered sites)
    (hfound : ∀ site ∈ sites, site.index ∈ found ↔
      site.index ∈ scans (parts sites) sites ∨ site.index ∈ s.targets) :
    ∃ rs, bs = bindings rs ∧ Takes found s sites (parts sites) rs s' := by
  fun_induction walk s sites generalizing bs s' with
  | case1 s =>
    cases h
    exact ⟨[], rfl, by rw [parts]; exact .others 0 s⟩
  | case2 => cases h
  | case3 => cases h
  | case4 s site rest bs₁ s₁ hstep more s₂ hwalk ih =>
    cases h
    obtain ⟨hfirst, hrest⟩ := List.pairwise_cons.mp hordered
    have hsettle := s.within_settle site.index
    rw [parts_cons] at hfound
    simp only [scans_append, List.mem_append] at hfound
    -- what is found later on lies behind
    have hlater : site.index ∉ scans (parts (rest.drop ((stepParts site rest).length - 1)))
        ((site :: rest).drop (stepParts site rest).length) := by
      intro hmem
      obtain ⟨later, hmem, heq⟩ := mem_scans hmem
      rw [drop_stepParts] at hmem
      have := hfirst later (List.mem_of_mem_drop hmem)
      omega
    have hsite : site.index ∈ found ↔ site.index ∈ scans (stepParts site rest) (site :: rest) ∨
        site.index ∈ (s.settle site.index).targets := by
      rw [hsettle.targets, hfound site List.mem_cons_self]
      tauto
    obtain ⟨rs, rfl, htakes⟩ := steps_step _ site rest hsite _ _ hstep
    have hlength : (stepParts site rest).length = rs.length := htakes.length_eq
    have hdrop : (site :: rest).drop rs.length = rest.drop ((bindings rs).length - 1) := by
      rw [bindings, List.length_map, ← hlength, drop_stepParts]
    rw [hlength, hdrop] at hfound
    obtain ⟨rs', rfl, htakes'⟩ := ih hwalk (hrest.sublist (List.drop_sublist _ _)) (by
      intro later hmem
      rw [hfound later (List.mem_cons_of_mem _ (List.mem_of_mem_drop hmem)), htakes.targets,
        hsettle.targets]
      simp only [bindings, List.length_map]
      tauto)
    refine ⟨rs ++ rs', (bindings_append rs rs').symm, ?_⟩
    rw [parts_cons, hlength]
    refine (htakes.of_within hsettle).append ?_
    rw [hdrop]
    simpa [bindings] using htakes'

theorem Cursor.ordered (c : Cursor) (ts : List Token) : Ordered (c.sites ts) := by
  induction ts generalizing c with
  | nil => exact .nil
  | cons t ts ih =>
    refine List.pairwise_cons.mpr ⟨fun later hlater => ?_, ih (c.next t)⟩
    have := Cursor.index_le hlater
    rw [next_index] at this
    exact this

theorem Cursor.map_token_sites (c : Cursor) (ts : List Token) :
    (c.sites ts).map (·.token) = ts := by
  induction ts generalizing c with
  | nil => rfl
  | cons t ts ih => exact congrArg (t :: ·) (ih (c.next t))

/-- The indices found in a whole stream. -/
def scanned (sites : List Site) : List Nat := scans (parts sites) sites

theorem takes_tokens {tokens : List Token} {bs : List Binding} {s : ScopeState}
    (h : walk .initial (sites tokens) = .ok (bs, s)) :
    ∃ rs, bs = bindings rs ∧ Takes (scanned (sites tokens)) .initial (sites tokens)
      (parts (sites tokens)) rs s := by
  refine takes_walk h ?_ fun site _ => (or_iff_left List.not_mem_nil).symm
  rw [Cursor.sites_start]
  exact Cursor.start.ordered tokens

end LuaBundle.Lua
