import LuaBundle.Proofs.FileTree.Adding
import LuaBundle.Proofs.Module.Naming

/-!
# What decides a resolution

`Answers` states the rules of resolution by their precedence: the ignore list, an override with a
path, and the search roots in their order, with two places for a file at each. A resolution gives
just the answer of these rules. So an added file leaves every answer as it is, or it is the answer.
-/
namespace LuaBundle

/-! ### Two trees -/

/-- If more is accepted, a search ends as before or at something that is accepted only now. -/
theorem find?_of_imp {α : Type} {p q : α → Bool} {xs : List α}
    (h : ∀ x ∈ xs, p x = true → q x = true) :
    xs.find? q = xs.find? p ∨ ∃ x ∈ xs, xs.find? q = some x ∧ q x = true ∧ p x = false := by
  induction xs with
  | nil => exact .inl rfl
  | cons x xs ih =>
    by_cases hq : q x = true
    · rw [List.find?_cons_of_pos hq]
      by_cases hp : p x = true
      · exact .inl (List.find?_cons_of_pos hp).symm
      · exact .inr ⟨x, List.mem_cons_self .., rfl, hq, Bool.eq_false_iff.mpr hp⟩
    · have hp : ¬ p x = true := fun hp => hq (h x (List.mem_cons_self ..) hp)
      rw [List.find?_cons_of_neg hq, List.find?_cons_of_neg hp]
      rcases ih fun y hy => h y (List.mem_cons_of_mem x hy) with heq | ⟨y, hy, hnew⟩
      · exact .inl heq
      · exact .inr ⟨y, List.mem_cons_of_mem x hy, hnew⟩

namespace Resolver

variable {r : Resolver} {t t' : FileTree} {id : String} {requesting base file : Path}

/-! ### The rules -/

/-- The file of a module: a script, or else the `init.lua` of a directory. -/
inductive ModuleFile (t : FileTree) (base : Path) : Path → Prop
  | script (found : t.isFile ⟨base.text ++ ".lua"⟩ = true) :
      ModuleFile t base ⟨base.text ++ ".lua"⟩
  | package (noScript : t.isFile ⟨base.text ++ ".lua"⟩ = false)
      (found : t.isFile (base.join ⟨"init.lua"⟩) = true) :
      ModuleFile t base (base.join ⟨"init.lua"⟩)

/-- Neither is there. -/
def Vacant (t : FileTree) (base : Path) : Prop :=
  t.isFile ⟨base.text ++ ".lua"⟩ = false ∧ t.isFile (base.join ⟨"init.lua"⟩) = false

/-- The answer to a required identifier, rule by rule. -/
inductive Answers (r : Resolver) (t : FileTree) (id : String) (requesting : Path) :
    Except Failure ModuleRecord → Prop
  | ignored (listed : id ∈ r.ignore) : Answers r t id requesting (.ok (.ignored id))
  | overridden {rule : OverrideRule} {target file : Path} (unlisted : id ∉ r.ignore)
      (rule_eq : r.overrides.get? id = some rule) (target_eq : rule.path = some target)
      (found : ModuleFile t (r.overrideBase target) file) :
      Answers r t id requesting (.ok (r.record id file true (some rule)))
  | overrideMissing {rule : OverrideRule} {target : Path} (unlisted : id ∉ r.ignore)
      (rule_eq : r.overrides.get? id = some rule) (target_eq : rule.path = some target)
      (vacant : Vacant t (r.overrideBase target)) :
      Answers r t id requesting (.error (.overrideNotFound id target.text))
  | searched {front back : List Path} {root file : Path} (unlisted : id ∉ r.ignore)
      (free : ∀ rule, r.overrides.get? id = some rule → rule.path = none)
      (roots : requesting :: r.sourceRoot :: r.external.paths.map r.sourceRoot.resolve ++
        r.roots.all = front ++ root :: back)
      (earlier : ∀ q ∈ front, Vacant t (q.resolve (relativePath id)))
      (found : ModuleFile t (root.resolve (relativePath id)) file) :
      Answers r t id requesting (.ok (r.record id file false (r.overrides.get? id)))
  | missing (unlisted : id ∉ r.ignore)
      (free : ∀ rule, r.overrides.get? id = some rule → rule.path = none)
      (vacant : ∀ root ∈ requesting :: r.sourceRoot ::
        r.external.paths.map r.sourceRoot.resolve ++ r.roots.all,
        Vacant t (root.resolve (relativePath id))) :
      Answers r t id requesting (.error (.moduleNotFound id))

theorem find?_candidates_eq_some_iff :
    (candidates base).find? t.isFile = some file ↔ ModuleFile t base file := by
  unfold candidates
  cases hscript : t.isFile ⟨base.text ++ ".lua"⟩ with
  | true =>
    rw [List.find?_cons_of_pos hscript, Option.some.injEq]
    constructor
    · rintro rfl
      exact .script hscript
    · rintro (_ | ⟨hnone, -⟩)
      · rfl
      · rw [hscript] at hnone
        cases hnone
  | false =>
    rw [List.find?_cons_of_neg (by simp [hscript])]
    constructor
    · intro h
      obtain ⟨rfl, hfound⟩ : file = base.join ⟨"init.lua"⟩ ∧ t.isFile file = true := by
        have hmem := List.mem_of_find?_eq_some h
        exact ⟨List.mem_singleton.mp hmem, List.find?_some h⟩
      exact .package hscript hfound
    · rintro (hfound | ⟨-, hfound⟩)
      · rw [hscript] at hfound
        cases hfound
      · exact List.find?_cons_of_pos hfound

theorem find?_candidates_eq_none_iff :
    (candidates base).find? t.isFile = none ↔ Vacant t base := by
  simp [candidates, Vacant, List.find?_eq_none]

/-! ### Resolutions -/

variable {requireId : String}

theorem resolve_of_ignored (listed : normalizeId requireId ∈ r.ignore) :
    r.resolve t requireId requesting = .ok (.ignored (normalizeId requireId)) := by
  simp only [resolve, if_pos listed]

theorem resolve_of_found (unlisted : normalizeId requireId ∉ r.ignore)
    (found : (r.probes (normalizeId requireId) requesting).find? t.isFile = some file) :
    r.resolve t requireId requesting = .ok (r.record (normalizeId requireId) file
      ((r.overrides.get? (normalizeId requireId)).bind OverrideRule.path).isSome
      (r.overrides.get? (normalizeId requireId))) := by
  simp only [resolve, if_neg unlisted, found]

theorem resolve_of_vacant (unlisted : normalizeId requireId ∉ r.ignore)
    (vacant : (r.probes (normalizeId requireId) requesting).find? t.isFile = none) :
    r.resolve t requireId requesting = .error
      (((r.overrides.get? (normalizeId requireId)).bind OverrideRule.path).elim
        (.moduleNotFound (normalizeId requireId))
        fun target => .overrideNotFound (normalizeId requireId) target.text) := by
  simp only [resolve, if_neg unlisted, vacant]
  cases (r.overrides.get? (normalizeId requireId)).bind OverrideRule.path <;> rfl

theorem probes_of_target (requesting : Path) {target : Path}
    (h : (r.overrides.get? id).bind OverrideRule.path = some target) :
    r.probes id requesting = candidates (r.overrideBase target) := by
  rw [probes, h]

theorem probes_of_free (h : (r.overrides.get? id).bind OverrideRule.path = none) :
    r.probes id requesting =
      (r.searchRoots requesting).flatMap fun root => candidates (root.resolve (relativePath id)) := by
  rw [probes, h]

theorem find?_probes_eq_some_iff (h : (r.overrides.get? id).bind OverrideRule.path = none) :
    (r.probes id requesting).find? t.isFile = some file ↔
      ∃ front root back, r.searchRoots requesting = front ++ root :: back ∧
        ModuleFile t (root.resolve (relativePath id)) file ∧
        ∀ q ∈ front, Vacant t (q.resolve (relativePath id)) := by
  simp only [probes_of_free h, List.find?_flatMap, List.findSome?_eq_some_iff,
    find?_candidates_eq_some_iff, find?_candidates_eq_none_iff]

theorem find?_probes_eq_none_iff (h : (r.overrides.get? id).bind OverrideRule.path = none) :
    (r.probes id requesting).find? t.isFile = none ↔
      ∀ root ∈ r.searchRoots requesting, Vacant t (root.resolve (relativePath id)) := by
  simp only [probes_of_free h, List.find?_flatMap, List.findSome?_eq_none_iff,
    find?_candidates_eq_none_iff]

theorem free_iff : (r.overrides.get? id).bind OverrideRule.path = none ↔
    ∀ rule, r.overrides.get? id = some rule → rule.path = none := Option.bind_eq_none_iff

theorem answers_resolve : r.Answers t (normalizeId requireId) requesting
    (r.resolve t requireId requesting) := by
  by_cases listed : normalizeId requireId ∈ r.ignore
  · rw [resolve_of_ignored listed]
    exact .ignored listed
  cases htarget : (r.overrides.get? (normalizeId requireId)).bind OverrideRule.path with
  | some target =>
    obtain ⟨rule, rule_eq, target_eq⟩ := Option.bind_eq_some_iff.mp htarget
    cases hfind : (r.probes (normalizeId requireId) requesting).find? t.isFile with
    | some file =>
      rw [resolve_of_found listed hfind, htarget, rule_eq]
      rw [probes_of_target _ htarget] at hfind
      exact .overridden listed rule_eq target_eq (find?_candidates_eq_some_iff.mp hfind)
    | none =>
      rw [resolve_of_vacant listed hfind, htarget]
      rw [probes_of_target _ htarget] at hfind
      exact .overrideMissing listed rule_eq target_eq (find?_candidates_eq_none_iff.mp hfind)
  | none =>
    have free := free_iff.mp htarget
    cases hfind : (r.probes (normalizeId requireId) requesting).find? t.isFile with
    | some file =>
      rw [resolve_of_found listed hfind, htarget]
      obtain ⟨front, root, back, hroots, hfound, hearlier⟩ :=
        (find?_probes_eq_some_iff htarget).mp hfind
      exact .searched listed free hroots hearlier hfound
    | none =>
      rw [resolve_of_vacant listed hfind, htarget]
      exact .missing listed free ((find?_probes_eq_none_iff htarget).mp hfind)

/-- The rules give one answer, and a resolution gives it. -/
theorem resolve_eq_iff {answer : Except Failure ModuleRecord} :
    r.resolve t requireId requesting = answer ↔
      r.Answers t (normalizeId requireId) requesting answer := by
  constructor
  · rintro rfl
    exact answers_resolve
  · intro h
    cases h with
    | ignored listed => exact resolve_of_ignored listed
    | overridden unlisted rule_eq target_eq found =>
      have htarget := Option.bind_eq_some_iff.mpr ⟨_, rule_eq, target_eq⟩
      have hfind := find?_candidates_eq_some_iff.mpr found
      rw [← probes_of_target requesting htarget] at hfind
      rw [resolve_of_found unlisted hfind, htarget, rule_eq]
      rfl
    | overrideMissing unlisted rule_eq target_eq vacant =>
      have htarget := Option.bind_eq_some_iff.mpr ⟨_, rule_eq, target_eq⟩
      have hfind := find?_candidates_eq_none_iff.mpr vacant
      rw [← probes_of_target requesting htarget] at hfind
      rw [resolve_of_vacant unlisted hfind, htarget]
      rfl
    | searched unlisted free roots earlier found =>
      have htarget := free_iff.mpr free
      have hfind := (find?_probes_eq_some_iff htarget).mpr ⟨_, _, _, roots, found, earlier⟩
      rw [resolve_of_found unlisted hfind, htarget]
      rfl
    | missing unlisted free vacant =>
      have htarget := free_iff.mpr free
      have hfind := (find?_probes_eq_none_iff htarget).mpr vacant
      rw [resolve_of_vacant unlisted hfind, htarget]
      rfl

/-- When a file is added, the answer stays, or it is a record of the added file. -/
theorem resolve_of_gains {l : Location} (ht : t.Closed) (h : t.Gains t' l) :
    r.resolve t' requireId requesting = r.resolve t requireId requesting ∨
      ∃ m, r.resolve t' requireId requesting = .ok (.resolved m) ∧
        t'.locate m.filePath = .ok l := by
  by_cases listed : normalizeId requireId ∈ r.ignore
  · exact .inl (by rw [resolve_of_ignored listed, resolve_of_ignored listed])
  have hkept : ∀ p ∈ r.probes (normalizeId requireId) requesting,
      t.isFile p = true → t'.isFile p = true := fun p _ => h.isFile
  rcases find?_of_imp hkept with heq | ⟨file, hfile, hfind, hnew, hold⟩
  · left
    cases hfind : (r.probes (normalizeId requireId) requesting).find? t.isFile with
    | some file => rw [resolve_of_found listed hfind, resolve_of_found listed (heq.trans hfind)]
    | none => rw [resolve_of_vacant listed hfind, resolve_of_vacant listed (heq.trans hfind)]
  · right
    obtain ⟨m, hm, rfl, -, -⟩ := record_resolved r (normalizeId requireId) file
      ((r.overrides.get? (normalizeId requireId)).bind OverrideRule.path).isSome
      (r.overrides.get? (normalizeId requireId))
    refine ⟨m, ?_, h.locate_new ht (probes_plain hfile) hnew hold⟩
    rw [resolve_of_found listed hfind, hm]

/-- A resolution follows the rules: an ignored identifier is left alone, an override with a path
decides alone, and otherwise the first file on the search roots is taken. An added file turns no
success into a failure, and if it changes the answer, it is the answer. -/
theorem resolve_first_match (r : Resolver) (t : FileTree) (requireId : String) (requesting : Path) :
    (∀ answer, r.resolve t requireId requesting = answer ↔
      r.Answers t (normalizeId requireId) requesting answer) ∧
    ∀ t' l, t.Closed → t.Gains t' l →
      (∀ record, r.resolve t requireId requesting = .ok record →
        ∃ record', r.resolve t' requireId requesting = .ok record') ∧
      (r.resolve t' requireId requesting ≠ r.resolve t requireId requesting →
        ∃ m, r.resolve t' requireId requesting = .ok (.resolved m) ∧
          t'.locate m.filePath = .ok l) := by
  refine ⟨fun answer => resolve_eq_iff, fun t' l ht hgains => ⟨?_, ?_⟩⟩
  · intro record hrecord
    rcases resolve_of_gains ht hgains with heq | ⟨m, hm, -⟩
    · exact ⟨record, heq.trans hrecord⟩
    · exact ⟨_, hm⟩
  · intro hchanged
    exact (resolve_of_gains ht hgains).resolve_left hchanged

/-- A file comes into the requiring directory, which is searched before the source root. -/
theorem nearer_file_taken :
    let r := Resolver.ofConfig (.forEntry ⟨"/"⟩ ⟨"src/main.lua"⟩) fun _ => none
    let t : FileTree := ⟨[(["src"], .directory), (["src", "a.lua"], .file (.text ""))], []⟩
    let t' := t.place ["src", "app", "a.lua"] (.file (.text ""))
    t.Closed ∧ t.Gains t' ["src", "app", "a.lua"] ∧
      ∃ m, r.resolve t' "a" ⟨"/src/app"⟩ = .ok (.resolved m) ∧
        t'.locate m.filePath = .ok ["src", "app", "a.lua"] := by
  intro r t t'
  have ht : t.Closed := .of_entries (by decide) rfl
  have hgains : t.Gains t' ["src", "app", "a.lua"] :=
    t.gains_place (.text "") (by decide) rfl (by decide)
  exact ⟨ht, hgains,
    ((resolve_first_match r t "a" ⟨"/src/app"⟩).2 t' _ ht hgains).2 (by decide +kernel)⟩

end Resolver

end LuaBundle
