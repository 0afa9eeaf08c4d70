import LuaBundle.Proofs.Path.Plain
import Mathlib.Logic.Function.Iterate

/-!
# Climbing paths

Where a path leads from any directory is said by two things: how many levels it climbs above its
start, and by which names it goes down from there. Normalizing keeps the names. Of the climb it
keeps at most one level, since at the front of a relative path a second `..` folds with the first;
so a normalized path leads to the same place exactly if the path climbs no further than that.
-/
namespace LuaBundle

/-- The levels that a path climbs above its start, at its highest point. -/
def climb : List Component → Nat
  | [] => 0
  | .up :: cs => climb cs + 1
  | .name _ :: cs => climb cs - 1
  | .root :: cs | .here :: cs => climb cs

/-- The names by which a path goes down from its highest point, innermost first. -/
def landing : List Component → List Component
  | [] => []
  | .name s :: cs => if climb cs = 0 then landing cs ++ [.name s] else landing cs
  | .root :: cs | .here :: cs | .up :: cs => landing cs

theorem mem_landing {cs : List Component} {c : Component} (h : c ∈ landing cs) :
    ∃ s, c = .name s := by
  induction cs with
  | nil => cases h
  | cons d cs ih =>
    cases d with
    | name s =>
      rw [landing] at h
      split at h
      · rcases List.mem_append.mp h with h | h
        · exact ih h
        · exact ⟨s, List.mem_singleton.mp h⟩
      · exact ih h
    | root | here | up => exact ih h

namespace Path

/-! ### Folding -/

def pop (stack : List Component) : List Component := fold stack .up

/-- A stack is popped as often as the path climbs; then the names are put on it. -/
theorem foldl_fold (cs stack : List Component) :
    cs.foldl fold stack = landing cs ++ pop^[climb cs] stack := by
  induction cs generalizing stack with
  | nil => rfl
  | cons c cs ih =>
    rw [List.foldl_cons, ih]
    cases c with
    | name s =>
      rw [landing, climb]
      cases hc : climb cs with
      | zero => simp [fold]
      | succ k => simp [fold, pop]
    | root | here | up => rfl

theorem pop_iterate {k : Nat} {stack : List Component} (h : k ≤ stack.length) :
    pop^[k] stack = stack.drop k := by
  induction k generalizing stack with
  | zero => rfl
  | succ k ih =>
    obtain ⟨c, rest, rfl⟩ := List.exists_cons_of_length_pos (Nat.lt_of_lt_of_le k.succ_pos h)
    rw [Function.iterate_succ_apply, List.drop_succ_cons]
    exact ih (Nat.le_of_succ_le_succ h)

/-- With nothing to pop, every second `..` folds with the one before. -/
theorem pop_iterate_nil (k : Nat) : pop^[k] [] = List.replicate (k % 2) .up := by
  induction k with
  | zero => rfl
  | succ k ih =>
    rw [Function.iterate_succ_apply', ih]
    rcases Nat.mod_two_eq_zero_or_one k with h | h
    · have hodd : (k + 1) % 2 = 1 := by omega
      rw [h, hodd]
      rfl
    · have heven : (k + 1) % 2 = 0 := by omega
      rw [h, heven]
      rfl

theorem foldl_fold_names {names : List Component} (h : ∀ c ∈ names, ∃ s, c = .name s)
    (stack : List Component) : names.foldl fold stack = names.reverse ++ stack := by
  induction names generalizing stack with
  | nil => rfl
  | cons c names ih =>
    obtain ⟨s, rfl⟩ := h c (List.mem_cons_self ..)
    rw [List.foldl_cons, ih fun d hd => h d (List.mem_cons_of_mem _ hd)]
    simp [fold]

/-- What folding leaves of a path, folded once more from another directory. -/
theorem foldl_fold_folded (p : Path) (stack : List Component) :
    p.folded.foldl fold stack = landing p.components ++ pop^[climb p.components % 2] stack := by
  rw [folded, foldl_fold p.components [], pop_iterate_nil, List.reverse_append, List.reverse_replicate,
    List.foldl_append, foldl_fold_names, List.reverse_reverse]
  · rcases Nat.mod_two_eq_zero_or_one (climb p.components) with h | h <;> rw [h] <;> rfl
  · intro c hc
    exact mem_landing (List.mem_reverse.mp hc)

/-- A path without `..` only goes down, so it makes good for what a later one climbs. -/
theorem exists_descent {cs : List Component} (h : .up ∉ cs) :
    ∃ names : List Component, ∀ ds stack,
      cs.foldl fold stack = names ++ stack ∧ climb (cs ++ ds) = climb ds - names.length := by
  induction cs with
  | nil => exact ⟨[], fun ds stack => ⟨rfl, rfl⟩⟩
  | cons c cs ih =>
    obtain ⟨names, hnames⟩ := ih fun hup => h (List.mem_cons_of_mem _ hup)
    cases c with
    | root | here => exact ⟨names, hnames⟩
    | up => exact absurd (List.mem_cons_self ..) h
    | name s =>
      refine ⟨names ++ [.name s], fun ds stack => ⟨?_, ?_⟩⟩
      · rw [List.foldl_cons, (hnames ds _).1]
        simp [fold]
      · rw [List.cons_append, climb, (hnames ds []).2, List.length_append, List.length_singleton]
        omega

/-! ### Joining -/

/-- A relative path that is joined to a directory comes behind it. -/
theorem join_eq (base : Path) {p : Path} (hbase : base.isAbsolute = true)
    (hp : p.isAbsolute = false) :
    ∃ front, (base.text.toList = front ∨ base.text.toList = front ++ ['/']) ∧
      (base.join p).text.toList = front ++ '/' :: p.text.toList := by
  unfold join
  rw [if_neg (by simp [hp])]
  have hne : base.text.isEmpty = false := by
    rw [Bool.eq_false_iff]
    intro hempty
    rw [isAbsolute, String.isEmpty_iff.mp hempty] at hbase
    exact absurd hbase (by decide)
  split
  · next hslash =>
    rw [hne, Bool.false_or, beq_iff_eq] at hslash
    obtain ⟨front, hfront⟩ := List.getLast?_eq_some_iff.mp hslash
    exact ⟨front, .inr hfront, by simp [hfront]⟩
  · exact ⟨base.text.toList, .inl rfl, by simp⟩

theorem components_join {base p : Path} (hbase : base.isAbsolute = true)
    (hp : p.isAbsolute = false) :
    (base.join p).components = base.components ++ p.segments.filterMap Component.ofSegment? ∧
      (base.join p).isAbsolute = true := by
  obtain ⟨front, hfront, hjoin⟩ := join_eq base hbase hp
  have habsolute : (base.join p).isAbsolute = true := by
    rw [isAbsolute, hjoin]
    rw [isAbsolute] at hbase
    rcases hfront with h | h <;> rw [h] at hbase <;> cases front <;> simp_all
  refine ⟨?_, habsolute⟩
  have hsegments : base.segments.filterMap Component.ofSegment? =
      (Text.split '/' front).filterMap Component.ofSegment? := by
    rcases hfront with h | h <;> rw [segments, h]
    rw [Text.split_append_separator, List.filterMap_append]
    simp [Text.split, Component.ofSegment?]
  rw [components, components, habsolute, hbase, hsegments, segments, hjoin,
    Text.split_append_separator, List.filterMap_append, List.append_assoc]
  rfl

/-- A dot in front has no part in where a path leads. -/
theorem exists_front (p : Path) (hp : p.isAbsolute = false) :
    p.components = p.segments.filterMap Component.ofSegment? ∨
      p.components = .here :: p.segments.filterMap Component.ofSegment? := by
  rw [components, hp]
  by_cases h : p.segments.head? = some ['.']
  · exact .inr (by simp [h])
  · exact .inl (by simp [h])

theorem foldl_fold_segments {p : Path} (hp : p.isAbsolute = false) (stack : List Component) :
    (p.segments.filterMap Component.ofSegment?).foldl fold stack = p.components.foldl fold stack ∧
      climb (p.segments.filterMap Component.ofSegment?) = climb p.components := by
  rcases exists_front p hp with h | h <;> rw [h]
  · exact ⟨rfl, rfl⟩
  · exact ⟨rfl, rfl⟩

/-! ### Resolving -/

/-- Where a relative path leads from an absolute directory. -/
theorem resolve_eq {base p : Path} (hbase : base.isAbsolute = true) (hp : p.isAbsolute = false) :
    base.resolve p =
      ofNames true (p.components.foldl fold (base.components.foldl fold [])).reverse := by
  obtain ⟨hcomponents, habsolute⟩ := components_join hbase hp
  rw [resolve, if_neg (by simp [hp]), normalize, habsolute, folded, hcomponents,
    List.foldl_append, (foldl_fold_segments hp _).1]

theorem normalize_components {p : Path} (hp : p.isAbsolute = false) :
    p.normalize.isAbsolute = false ∧ p.normalize.components = p.folded := by
  have hfolded := folded_is_folded p
  rw [normalize, hp]
  exact ⟨isAbsolute_ofNames false hfolded, components_ofNames false hfolded⟩

/-- Resolved paths are equal if the foldings of their components are. -/
theorem resolve_inj {base p q : Path} (hbase : base.isAbsolute = true) (hp : p.isAbsolute = false)
    (hq : q.isAbsolute = false) : base.resolve p = base.resolve q ↔
      p.components.foldl fold (base.components.foldl fold []) =
        q.components.foldl fold (base.components.foldl fold []) := by
  have hjoined : ∀ p : Path, p.isAbsolute = false →
      Folded (p.components.foldl fold (base.components.foldl fold [])).reverse := by
    intro p hp
    have hfolded := folded_is_folded (base.join p)
    rwa [folded, (components_join hbase hp).1, List.foldl_append,
      (foldl_fold_segments hp _).1] at hfolded
  constructor
  · intro h
    rw [resolve_eq hbase hp, resolve_eq hbase hq] at h
    have hcomponents := congrArg components h
    rw [components_ofNames true (hjoined p hp), components_ofNames true (hjoined q hq)] at hcomponents
    exact List.reverse_injective (List.append_cancel_left hcomponents)
  · intro h
    rw [resolve_eq hbase hp, resolve_eq hbase hq, h]

/-- Normalizing twice is normalizing once. From a directory without `..` a relative path that stays
below the root leads to the same place before and after, exactly if it climbs at most one level. -/
theorem normalize_meaning_iff (p : Path) : p.normalize.normalize = p.normalize ∧
    ∀ base : Path, base.isAbsolute = true → .up ∉ base.components → p.isAbsolute = false →
      climb (base.join p).components = 0 →
      (base.resolve p.normalize = base.resolve p ↔ climb p.components ≤ 1) := by
  refine ⟨(normalize_plain p).normalize_eq, ?_⟩
  intro base hbase hup hp hroot
  obtain ⟨names, hnames⟩ := exists_descent hup
  have hbelow : climb p.components ≤ names.length := by
    rw [(components_join hbase hp).1, (hnames _ []).2, (foldl_fold_segments hp []).2] at hroot
    omega
  have hstack : base.components.foldl fold [] = names := by simpa using (hnames [] []).1
  obtain ⟨hnormal, hfolded⟩ := normalize_components hp
  rw [resolve_inj hbase hnormal hp, hfolded, hstack, foldl_fold_folded, foldl_fold,
    List.append_cancel_left_eq, pop_iterate hbelow,
    pop_iterate (Nat.le_trans (Nat.mod_le ..) hbelow)]
  constructor
  · intro h
    have hlength := congrArg List.length h
    rw [List.length_drop, List.length_drop] at hlength
    omega
  · intro h
    rw [Nat.mod_eq_of_lt (Nat.lt_succ_of_le h)]

/-- A path that climbs one level, from a directory two levels below the root. -/
theorem sibling_resolved :
    climb ((⟨"/a/b"⟩ : Path).join ⟨"../x/./y"⟩).components = 0 ∧
      (⟨"/a/b"⟩ : Path).resolve (⟨"../x/./y"⟩ : Path).normalize =
        (⟨"/a/b"⟩ : Path).resolve ⟨"../x/./y"⟩ := by
  have hroot : climb ((⟨"/a/b"⟩ : Path).join ⟨"../x/./y"⟩).components = 0 := rfl
  have hbase : .up ∉ (⟨"/a/b"⟩ : Path).components := by decide
  exact ⟨hroot, ((normalize_meaning_iff ⟨"../x/./y"⟩).2 ⟨"/a/b"⟩ rfl hbase rfl hroot).mpr
    (by decide)⟩

/-- Two levels up are folded away. -/
example : (⟨"../.."⟩ : Path).normalize = ⟨""⟩ ∧
    (⟨"/a/b"⟩ : Path).resolve ⟨""⟩ = ⟨"/a/b"⟩ ∧
    (⟨"/a/b"⟩ : Path).resolve ⟨"../.."⟩ = ⟨"/"⟩ := by decide

end Path

end LuaBundle
