import LuaBundle.Proofs.Path.Climbing

/-!
# Rooted paths

A rooted path leads from the root down, by names alone: resolving leaves it as it is. From an
absolute directory, every path that stays below the root resolves to a rooted one, and so do its
parent and the default place of a bundle beside it.
-/
namespace LuaBundle.Path

def Rooted (p : Path) : Prop := ∃ names, (∀ c ∈ names, c.IsName) ∧ p = ofNames true names

namespace Rooted

variable {p : Path}

theorem plain (h : p.Rooted) : p.Plain := by
  obtain ⟨names, hnames, rfl⟩ := h
  exact ⟨true, names, .of_names hnames, rfl⟩

theorem isAbsolute (h : p.Rooted) : p.isAbsolute = true := by
  obtain ⟨names, hnames, rfl⟩ := h
  exact isAbsolute_ofNames true (.of_names hnames)

theorem resolve_eq (h : p.Rooted) (base : Path) : base.resolve p = p := by
  rw [resolve, if_pos h.isAbsolute, h.plain.normalize_eq]

end Rooted

/-! ### Resolving -/

theorem resolve_eq_normalize (base p : Path) : base.resolve p = (base.join p).normalize := by
  rw [resolve, join]
  split <;> rfl

theorem isAbsolute_join {base : Path} (hbase : base.isAbsolute = true) (p : Path) :
    (base.join p).isAbsolute = true := by
  cases hp : p.isAbsolute with
  | true => rwa [join, if_pos hp]
  | false => exact (components_join hbase hp).2

theorem isAbsolute_resolve {base : Path} (hbase : base.isAbsolute = true) (p : Path) :
    (base.resolve p).isAbsolute = true := by
  rw [resolve_eq_normalize, normalize, isAbsolute_join hbase]
  exact isAbsolute_ofNames true (folded_is_folded _)

/-- A resolved path is absolute, so it resolves to itself from wherever. -/
theorem resolve_resolve {base : Path} (hbase : base.isAbsolute = true) (second p : Path) :
    second.resolve (base.resolve p) = base.resolve p := by
  rw [resolve, if_pos (isAbsolute_resolve hbase p), (resolve_plain base p).normalize_eq]

theorem rooted_resolve {base p : Path} (hbase : base.isAbsolute = true)
    (hbelow : climb (base.join p).components = 0) : (base.resolve p).Rooted := by
  refine ⟨(base.join p).folded, fun c hc => ?_, ?_⟩
  · have hlanding : c ∈ landing (base.join p).components := by
      rw [folded, foldl_fold, hbelow] at hc
      simpa using hc
    obtain ⟨s, rfl⟩ := mem_landing hlanding
    exact ((folded_is_folded _).of_mem hc).resolve_left (by simp)
  · rw [resolve_eq_normalize, normalize, isAbsolute_join hbase]

/-! ### Beside a rooted path -/

theorem dropTrivial_texts {names : List Component} (h : ∀ c ∈ names, c.IsName) :
    dropTrivial (names.map fun c => c.text.toList) = names.map fun c => c.text.toList := by
  cases names with
  | nil => rfl
  | cons c names =>
    obtain ⟨-, hne, hdot⟩ := Component.text_chars (.inr (h c (List.mem_cons_self ..)))
    rw [List.map_cons, dropTrivial, if_neg (by simp [hne, hdot])]

theorem parent?_ofNames {front : List Component} {c : Component} (hfront : ∀ d ∈ front, d.IsName)
    (hc : c.IsName) : (ofNames true (front ++ [c])).parent? = some (ofNames true front) := by
  have hnames : ∀ d ∈ front ++ [c], d.IsName :=
    List.forall_mem_append.mpr ⟨hfront, List.forall_mem_singleton.mpr hc⟩
  have hsegments := segments_ofNames true (by simp) (.of_names hnames)
  obtain ⟨first, rest, hcons⟩ := List.exists_cons_of_ne_nil
    (l := (front ++ [c]).map fun d => d.text.toList) (by simp)
  have hlast : dropTrivial ((first :: rest).reverse) =
      c.text.toList :: (front.reverse.map fun d => d.text.toList) := by
    rw [← hcons, ← List.map_reverse,
      dropTrivial_texts fun d hd => hnames d (List.mem_reverse.mp hd)]
    simp
  have hkept : (dropTrivial (front.reverse.map fun d => d.text.toList)).reverse =
      front.map fun d => d.text.toList := by
    rw [dropTrivial_texts fun d hd => hfront d (List.mem_reverse.mp hd), List.map_reverse,
      List.reverse_reverse]
  rw [parent?, hsegments, hcons, if_pos rfl, List.singleton_append]
  simp only [hlast, hkept]
  have htext := toList_ofNames true front
  rw [if_pos rfl, List.singleton_append] at htext
  rw [if_neg (by simp), List.singleton_append, ← htext, String.ofList_toList]

theorem splitName_front (name : String) : (splitName name).1.toList <+: name.toList := by
  unfold splitName
  split
  · next extension stem more hsplit =>
    have hparts : Text.split '.' name.toList = (stem :: more).reverse ++ [extension] := by
      simpa using congrArg List.reverse hsplit
    have hname : name.toList = Text.join '.' (stem :: more).reverse ++ '.' :: extension := by
      rw [← Text.join_split '.' name.toList, hparts, Text.join_concat (by simp)]
    dsimp only
    split
    · exact List.prefix_refl _
    · rw [String.toList_ofList]
      exact ⟨_, hname.symm⟩
  · exact List.prefix_refl _

theorem rooted_join {front : List Component} {name : String} (hfront : ∀ d ∈ front, d.IsName)
    (hname : (Component.name name).IsName) : ((ofNames true front).join ⟨name⟩).Rooted := by
  have hrelative : (⟨name⟩ : Path).isAbsolute = false := by
    rw [isAbsolute, beq_eq_false_iff_ne]
    exact fun hslash => hname.1 (List.mem_of_mem_head? hslash)
  refine ⟨front ++ [.name name],
    List.forall_mem_append.mpr ⟨hfront, List.forall_mem_singleton.mpr hname⟩, ?_⟩
  cases front with
  | nil => exact if_neg (by simp [hrelative])
  | cons d front => exact ofNames_join true (by simp) (.of_names hfront) hrelative

theorem rooted_packed {front : List Component} {c : Component} (hfront : ∀ d ∈ front, d.IsName)
    (hc : c.IsName) : (ofNames true (front ++ [c])).packed.Rooted := by
  obtain ⟨s, rfl⟩ := hc.exists_name
  have hnames : ∀ d ∈ front ++ [.name s], d.IsName :=
    List.forall_mem_append.mpr ⟨hfront, List.forall_mem_singleton.mpr hc⟩
  have hfile : (ofNames true (front ++ [.name s])).fileName? = some s := by
    rw [fileName?, components_ofNames true (.of_names hnames), if_pos rfl, ← List.append_assoc,
      List.getLast?_concat]
  have hstem : (Component.name ((splitName s).1 ++ "_packed.lua")).IsName :=
    isName_append (fun h => hc.1 ((splitName_front s).subset h)) (by decide) (by decide)
  rw [packed, parent?_ofNames hfront hc, stem?, hfile]
  exact rooted_join hfront hstem

/-- Only the root has no parent. -/
theorem Rooted.beside {p : Path} (h : p.Rooted) (hroot : p ≠ ⟨"/"⟩) :
    (∃ q, p.parent? = some q ∧ q.Rooted) ∧ p.packed.Rooted := by
  obtain ⟨names, hnames, rfl⟩ := h
  rcases List.eq_nil_or_concat names with rfl | ⟨front, c, rfl⟩
  · exact absurd rfl hroot
  · rw [List.concat_eq_append] at hnames ⊢
    obtain ⟨hfront, hc⟩ := List.forall_mem_append.mp hnames
    have hc := List.forall_mem_singleton.mp hc
    exact ⟨⟨_, parent?_ofNames hfront hc, front, hfront, rfl⟩, rooted_packed hfront hc⟩

/-! ### What a rooted path looks like -/

/-- Absolute, and without dots. -/
structure Clean (p : Path) : Prop where
  isAbsolute : p.isAbsolute = true
  components : ∀ c ∈ p.components, c ≠ .here ∧ c ≠ .up
  /-- Components leave out dots in the middle; the text has none there either. -/
  segments : ['.'] ∉ p.segments

theorem Rooted.clean {p : Path} (h : p.Rooted) : p.Clean := by
  obtain ⟨names, hnames, rfl⟩ := h
  have hfolded : Folded names := .of_names hnames
  refine ⟨isAbsolute_ofNames true hfolded, ?_, ?_⟩
  · rw [components_ofNames true hfolded]
    intro c hc
    rcases List.mem_cons.mp hc with rfl | hc
    · decide
    · obtain ⟨s, rfl⟩ := (hnames c hc).exists_name
      exact ⟨nofun, nofun⟩
  · by_cases hne : names = []
    · subst hne
      decide
    · rw [segments_ofNames true hne hfolded]
      intro hdot
      obtain hdot | hdot := List.mem_cons.mp hdot
      · cases hdot
      · obtain ⟨c, hc, htext⟩ := List.mem_map.mp hdot
        exact (Component.text_chars (.inr (hnames c hc))).2.2 htext

end LuaBundle.Path
