import LuaBundle.FileTree
import Mathlib.Data.List.Basic

/-!
# What becomes of a file tree

Creating directories leaves alone whatever is there. A text that has been written is read back from
the same path, and nothing but its file has changed.
-/
namespace LuaBundle.FileTree

variable {t t' t'' : FileTree} {l l' : Location} {e : Entry}

theorem lookup_filter_ne {entries : List (Location × Entry)} (h : l' ≠ l) :
    (entries.filter (·.1 ≠ l)).lookup l' = entries.lookup l' := by
  induction entries with
  | nil => rfl
  | cons head rest ih =>
    obtain ⟨k, v⟩ := head
    by_cases hk : k = l
    · rw [List.filter_cons_of_neg (by simp [hk]), ih, List.lookup_cons,
        beq_eq_false_iff_ne.mpr (hk ▸ h)]
    · rw [List.filter_cons_of_pos (by simp [hk]), List.lookup_cons, List.lookup_cons, ih]

theorem get?_set_of_ne (t : FileTree) (e : Entry) (h : l' ≠ l) :
    (t.set l e).get? l' = t.get? l' := by
  by_cases hroot : l' = []
  · rw [hroot]
    rfl
  · simp only [get?, hroot, if_false, set, List.lookup_cons]
    rw [beq_eq_false_iff_ne.mpr h]
    exact lookup_filter_ne h

theorem get?_set (t : FileTree) (hl : l ≠ []) (e : Entry) (l' : Location) :
    (t.set l e).get? l' = if l' = l then some e else t.get? l' := by
  by_cases hne : l' = l
  · rw [hne, if_pos rfl, get?, if_neg hl]
    simp [set]
  · rw [if_neg hne, get?_set_of_ne t e hne]

/-- The root is a directory anyway. -/
theorem get?_set_directory (t : FileTree) (l l' : Location) :
    (t.set l .directory).get? l' = if l' = l then some .directory else t.get? l' := by
  by_cases hl : l = []
  · by_cases hne : l' = l
    · rw [if_pos hne, hne, hl]
      rfl
    · rw [if_neg hne, get?_set_of_ne t _ hne]
  · exact get?_set t hl .directory l'

theorem get?_directories (t : FileTree) (l l' : Location) (k : Nat) :
    ((List.range k).foldl (fun t n => t.set (l.take n) .directory) t).get? l' =
      if ∃ n < k, l' = l.take n then some .directory else t.get? l' := by
  induction k with
  | zero => simp
  | succ k ih =>
    rw [List.range_succ, List.foldl_concat, get?_set_directory, ih]
    by_cases hlast : l' = l.take k
    · rw [if_pos hlast, if_pos ⟨k, Nat.lt_succ_self k, hlast⟩]
    · rw [if_neg hlast]
      refine if_congr ⟨?_, ?_⟩ rfl rfl
      · rintro ⟨n, hn, hl'⟩
        exact ⟨n, Nat.lt_succ_of_lt hn, hl'⟩
      · rintro ⟨n, hn, rfl⟩
        rcases Nat.lt_succ_iff_lt_or_eq.mp hn with hn | rfl
        · exact ⟨n, hn, rfl⟩
        · exact absurd rfl hlast

/-- What is placed is there, and above it there are directories. -/
theorem get?_place (t : FileTree) (hl : l ≠ []) (e : Entry) (l' : Location) :
    (t.place l e).get? l' =
      if l' = l then some e
      else if ∃ n < l.length, l' = l.take n then some .directory else t.get? l' := by
  rw [place, get?_set _ hl, get?_directories]

theorem working_place (t : FileTree) (l : Location) (e : Entry) :
    (t.place l e).working = t.working := by
  have hdirectories : ∀ (ns : List Nat) (t : FileTree),
      (ns.foldl (fun t n => t.set (l.take n) .directory) t).working = t.working := by
    intro ns
    induction ns with
    | nil => exact fun t => rfl
    | cons n ns ih => exact fun t => ih _
  exact hdirectories _ t

/-! ### What is kept -/

/-- What is at a location stays there. Only a directory may come where nothing was. -/
def Keeps (t t' : FileTree) (l : Location) : Prop :=
  t'.get? l = t.get? l ∨ t.get? l = none ∧ t'.get? l = some .directory

namespace Keeps

theorem refl (t : FileTree) (l : Location) : t.Keeps t l := .inl rfl

theorem trans (h : t.Keeps t' l) (h' : t'.Keeps t'' l) : t.Keeps t'' l := by
  rcases h with h | ⟨hnone, hnew⟩
  · rcases h' with h' | ⟨hnone, hnew⟩
    · exact .inl (h'.trans h)
    · exact .inr ⟨h ▸ hnone, hnew⟩
  · rcases h' with h' | ⟨hnone', -⟩
    · exact .inr ⟨hnone, h'.trans hnew⟩
    · rw [hnew] at hnone'
      cases hnone'

theorem of_some (h : t.Keeps t' l) (he : t.get? l = some e) : t'.get? l = some e := by
  rcases h with h | ⟨hnone, -⟩
  · exact h.trans he
  · rw [he] at hnone
    cases hnone

/-- No file is created, removed or changed. -/
theorem file_iff (h : t.Keeps t' l) {c : Content} :
    t'.get? l = some (.file c) ↔ t.get? l = some (.file c) := by
  rcases h with h | ⟨hnone, hnew⟩
  · rw [h]
  · simp [hnone, hnew]

end Keeps

theorem ne_nil_of_get? (h : t.get? l ≠ some .directory) : l ≠ [] := by
  rintro rfl
  exact h rfl

theorem keeps_set_directory (h : t.get? l = none) (l' : Location) :
    t.Keeps (t.set l .directory) l' := by
  have hl : l ≠ [] := ne_nil_of_get? (t := t) (by rw [h]; nofun)
  rw [Keeps, get?_set t hl]
  by_cases hl' : l' = l
  · exact .inr ⟨hl' ▸ h, if_pos hl'⟩
  · exact .inl (if_neg hl')

theorem keeps_makeWay (t : FileTree) (l : Location) (cs : List Component) (l' : Location) :
    t.Keeps (t.makeWay l cs).1 l' := by
  induction t, l, cs using makeWay.induct with
  | case1 t l => exact .refl t l'
  | case2 t l c cs hdirectory ih =>
    rw [makeWay, hdirectory]
    exact ih
  | case3 t l c cs content hfile =>
    rw [makeWay, hfile]
    exact .refl t l'
  | case4 t l c cs hnone ih =>
    rw [makeWay, hnone]
    exact (keeps_set_directory hnone l').trans ih

theorem keeps_createDirectories (t : FileTree) (p : Path) (l : Location) :
    t.Keeps (t.createDirectories p).1 l := keeps_makeWay ..

/-! ### Writing a file -/

/-- Setting a location that is no directory changes no way to it. -/
theorem follow_set (h : t.get? l ≠ some .directory) (e : Entry) {start : Location}
    {cs : List Component} (hf : t.follow start cs = .ok l) :
    (t.set l e).follow start cs = .ok l := by
  induction cs generalizing start with
  | nil => exact hf
  | cons c cs ih =>
    rw [follow] at hf ⊢
    split at hf
    · next hdirectory =>
      have hne : start ≠ l := by
        rintro rfl
        exact h hdirectory
      rw [get?_set t (ne_nil_of_get? h), if_neg hne, hdirectory]
      exact ih hf
    · cases hf
    · cases hf

theorem locate_set {p : Path} (h : t.get? l ≠ some .directory) (e : Entry)
    (hp : t.locate p = .ok l) : (t.set l e).locate p = .ok l := by
  unfold locate at hp ⊢
  split at hp
  · cases hp
  · next hne =>
    rw [if_neg hne]
    exact follow_set h e hp

theorem writeText_cases {p : Path} {text : String} (h : t.writeText p text = .ok t') :
    ∃ l, t.locate p = .ok l ∧ t.get? l ≠ some .directory ∧ asksDirectory p = false ∧
      t' = t.set l (.file (.text text)) := by
  unfold writeText at h
  cases hl : t.locate p with
  | error fault => rw [hl] at h; cases h
  | ok l =>
    rw [hl] at h
    simp only [bind, Except.bind] at h
    split at h
    · cases h
    · next hfree =>
      obtain ⟨hdirectory, hasks⟩ := not_or.mp hfree
      cases h
      exact ⟨l, rfl, hdirectory, by simpa using hasks, rfl⟩

/-- What is written can be read, and all other locations are as they were. -/
theorem writeText_spec {p : Path} {text : String} (h : t.writeText p text = .ok t') :
    ∃ l, t.get? l ≠ some .directory ∧ t'.locate p = .ok l ∧
      t'.get? l = some (.file (.text text)) ∧ t'.readText p = .ok text ∧
      ∀ l', l' ≠ l → t'.get? l' = t.get? l' := by
  obtain ⟨l, hl, hdirectory, hasks, rfl⟩ := writeText_cases h
  have hlocate := locate_set hdirectory (.file (.text text)) hl
  have hget : (t.set l (.file (.text text))).get? l = some (.file (.text text)) := by
    rw [get?_set t (ne_nil_of_get? hdirectory), if_pos rfl]
  refine ⟨l, hdirectory, hlocate, hget, ?_, fun l' hne => ?_⟩
  · simp [readText, entry, hlocate, hget, hasks, bind, Except.bind, pure, Except.pure]
  · rw [get?_set t (ne_nil_of_get? hdirectory), if_neg hne]

end LuaBundle.FileTree
