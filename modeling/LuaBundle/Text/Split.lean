/-!
# Splitting and joining

`split` cuts a text at every separator; `join` is its inverse.
-/
namespace LuaBundle.Text

/-- The parts between separators. There is always at least one. -/
def split (separator : Char) : List Char → List (List Char)
  | [] => [[]]
  | c :: cs =>
    if c = separator then [] :: split separator cs
    else (split separator cs).modifyHead (c :: ·)

def join (separator : Char) (parts : List (List Char)) : List Char := [separator].intercalate parts

theorem split_ne_nil (separator : Char) (text : List Char) : split separator text ≠ [] := by
  cases text with
  | nil => simp [split]
  | cons c cs =>
    by_cases h : c = separator
    · simp [split, h]
    · have := split_ne_nil separator cs
      cases hs : split separator cs <;> simp_all [split]

@[simp] theorem join_split (separator : Char) (text : List Char) :
    join separator (split separator text) = text := by
  induction text with
  | nil => rfl
  | cons c cs ih =>
    have hne := split_ne_nil separator cs
    by_cases h : c = separator
    · cases hs : split separator cs with
      | nil => exact absurd hs hne
      | cons p ps =>
        rw [hs] at ih
        simp [split, h, hs, join, List.intercalate] at ih ⊢
        exact ih
    · cases hs : split separator cs with
      | nil => exact absurd hs hne
      | cons p ps =>
        rw [hs] at ih
        cases ps <;> simp_all [split, join, List.intercalate, List.intersperse]

def dropSuffix? (suffix text : List Char) : Option (List Char) :=
  if suffix.isSuffixOf text then some (text.take (text.length - suffix.length)) else none

theorem dropSuffix?_eq_some_iff {suffix text rest : List Char} :
    dropSuffix? suffix text = some rest ↔ text = rest ++ suffix := by
  unfold dropSuffix?
  constructor
  · intro h
    split at h
    · next hs =>
      obtain ⟨front, rfl⟩ := List.isSuffixOf_iff_suffix.mp hs
      simp only [Option.some.injEq, List.length_append, Nat.add_sub_cancel] at h
      rw [← h, List.take_left]
    · cases h
  · rintro rfl
    have hs : suffix.isSuffixOf (rest ++ suffix) = true :=
      List.isSuffixOf_iff_suffix.mpr (List.suffix_append ..)
    simp [hs]

def replace (old new : Char) (text : List Char) : List Char :=
  text.map fun c => if c = old then new else c

end LuaBundle.Text
