import LuaBundle.Proofs.FileTree
import LuaBundle.Proofs.Path.Plain

/-!
# Adding a file

A file is added where nothing was, and at most the directories above it come with it. What could be
found is found as before. A plain path that leads to a file only now leads to the added one: what it
leads through lay above another file already.
-/
namespace LuaBundle

namespace Path

theorem ofNames_ne_empty (parts : List Component) : (ofNames true parts).text ≠ "" := by
  intro hempty
  have htext := congrArg String.toList hempty
  rw [toList_ofNames] at htext
  cases htext

end Path

namespace FileTree

variable {t t' : FileTree} {l l' : Location} {p : Path}

/-! ### Closed trees -/

/-- Whatever is there lies in a directory, and the working directory is one. -/
structure Closed (t : FileTree) : Prop where
  above : ∀ l n, t.get? (l ++ [n]) ≠ none → t.get? l = some .directory
  working : t.get? t.working = some .directory

/-- It is enough to look at what lies in the tree. -/
theorem Closed.of_entries (h : ∀ x ∈ t.entries, t.get? x.1.dropLast = some .directory)
    (hworking : t.get? t.working = some .directory) : t.Closed := by
  refine ⟨?_, hworking⟩
  intro l n hsome
  have hlookup : t.entries.lookup (l ++ [n]) ≠ none := by
    rwa [get?, if_neg (by simp)] at hsome
  obtain ⟨e, he⟩ := Option.ne_none_iff_exists'.mp hlookup
  obtain ⟨front, back, hentries, -⟩ := List.lookup_eq_some_iff.mp he
  have hparent := h (l ++ [n], e) (by rw [hentries]; simp)
  rwa [List.dropLast_concat] at hparent

theorem Closed.above_append (h : t.Closed) {names : List String} (hne : names ≠ [])
    (hsome : t.get? (l ++ names) ≠ none) : t.get? l = some .directory := by
  induction names using List.reverseRecOn with
  | nil => exact absurd rfl hne
  | append_singleton front n ih =>
    rw [← List.append_assoc] at hsome
    have hparent := h.above _ n hsome
    by_cases hfront : front = []
    · rwa [hfront, List.append_nil] at hparent
    · exact ih hfront (by rw [hparent]; nofun)

/-! ### Ways -/

/-- Names are followed if there is a directory before each. -/
theorem follow_names_iff {start : Location} {names : List String} :
    t.follow start (names.map .name) = .ok l ↔ l = start ++ names ∧
      ∀ i < names.length, t.get? (start ++ names.take i) = some .directory := by
  induction names generalizing start with
  | nil => simp [follow, eq_comm]
  | cons n names ih =>
    have hhere : (∀ i < (n :: names).length,
        t.get? (start ++ (n :: names).take i) = some .directory) ↔
        t.get? start = some .directory ∧
          ∀ i < names.length, t.get? (start ++ [n] ++ names.take i) = some .directory := by
      simp only [List.length_cons, Nat.forall_lt_succ_left', List.take_zero, List.append_nil,
        List.take_succ_cons, List.append_assoc, List.singleton_append]
    rw [hhere, List.map_cons, follow]
    cases hget : t.get? start with
    | none => simp
    | some e =>
      cases e with
      | file c => simp
      | directory =>
        simp only [stepTo, ih, List.append_assoc, List.singleton_append, true_and]

/-- In a closed tree only what lies at the end decides. -/
theorem Closed.follow_names (h : t.Closed) {start : Location} {names : List String}
    (hsome : t.get? (start ++ names) ≠ none) :
    t.follow start (names.map .name) = .ok (start ++ names) := by
  refine follow_names_iff.mpr ⟨rfl, fun i hi => ?_⟩
  have hne : names.drop i ≠ [] := by
    rw [Ne, List.drop_eq_nil_iff]
    exact Nat.not_le.mpr hi
  apply h.above_append hne
  rwa [List.append_assoc, List.take_append_drop]

theorem exists_names {cs : List Component} (h : ∀ c ∈ cs, c.IsName) :
    ∃ names : List String, cs = names.map .name := by
  refine ⟨cs.map Component.text, ?_⟩
  rw [List.map_map]
  refine (List.map_id cs).symm.trans (List.map_congr_left fun c hc => ?_)
  obtain ⟨s, rfl⟩ := (h c hc).exists_name
  rfl

/-- What another tree has at the end of a folded way, a closed tree has at the end of the same way. -/
theorem Closed.follow_folded (h : t.Closed) {start : Location} {parts : List Component}
    (hparts : Folded parts) (hstart : t.get? start = some .directory)
    (hf : t'.follow start parts = .ok l) (hsome : t.get? l ≠ none) :
    t.follow start parts = .ok l := by
  cases parts with
  | nil => exact hf
  | cons c cs =>
    obtain ⟨names, rfl⟩ := exists_names hparts.2
    rcases hparts.1 with rfl | hc
    · rw [follow, hstart]
      rw [follow] at hf
      split at hf
      · obtain ⟨rfl, -⟩ := follow_names_iff.mp hf
        exact h.follow_names hsome
      · cases hf
      · cases hf
    · obtain ⟨n, rfl⟩ := hc.exists_name
      rw [← List.map_cons] at hf ⊢
      obtain ⟨rfl, -⟩ := follow_names_iff.mp hf
      exact h.follow_names hsome

theorem locate_ofNames (t : FileTree) (absolute : Bool) {parts : List Component}
    (h : Folded parts) (hne : (Path.ofNames absolute parts).text ≠ "") :
    t.locate (.ofNames absolute parts) = t.follow (if absolute then [] else t.working) parts := by
  rw [locate, if_neg (by simp [hne]), Path.isAbsolute_ofNames absolute h,
    Path.components_ofNames absolute h]
  cases absolute <;> rfl

theorem isFile_iff : t.isFile p = true ↔ ∃ l c, t.locate p = .ok l ∧
    t.get? l = some (.file c) ∧ asksDirectory p = false := by
  unfold isFile entry
  cases hl : t.locate p with
  | error fault => simp [bind, Except.bind]
  | ok l =>
    simp only [bind, Except.bind]
    cases hget : t.get? l with
    | none => simp [throw, throwThe, MonadExceptOf.throw, hget]
    | some e =>
      cases e with
      | directory => simp [pure, Except.pure, hget]
      | file c =>
        cases ha : asksDirectory p <;>
          simp [pure, Except.pure, throw, throwThe, MonadExceptOf.throw, hget]

/-! ### Added files -/

/-- A file has come to `l` where nothing was, and with it at most directories. -/
structure Gains (t t' : FileTree) (l : Location) : Prop where
  working : t'.working = t.working
  fresh : t.get? l = none
  file : ∃ c, t'.get? l = some (.file c)
  kept : ∀ l', l' ≠ l → t.Keeps t' l'

namespace Gains

variable {e : Entry}

theorem of_some (h : t.Gains t' l) (he : t.get? l' = some e) : t'.get? l' = some e := by
  have hne : l' ≠ l := by
    rintro rfl
    rw [h.fresh] at he
    cases he
  exact (h.kept l' hne).of_some he

/-- Each step of a way goes as before. -/
theorem follow (h : t.Gains t' l) {start : Location} {cs : List Component}
    (hf : t.follow start cs = .ok l') : t'.follow start cs = .ok l' := by
  induction cs generalizing start with
  | nil => exact hf
  | cons c cs ih =>
    rw [FileTree.follow] at hf ⊢
    split at hf
    · next hdirectory =>
      rw [h.of_some hdirectory]
      exact ih hf
    · cases hf
    · cases hf

theorem locate (h : t.Gains t' l) (hp : t.locate p = .ok l') : t'.locate p = .ok l' := by
  unfold FileTree.locate at hp ⊢
  split at hp
  · cases hp
  · next hne =>
    rw [if_neg hne, h.working]
    exact h.follow hp

/-- A file that could be found is found. -/
theorem isFile (h : t.Gains t' l) (hp : t.isFile p = true) : t'.isFile p = true := by
  obtain ⟨l', c, hlocate, hget, hasks⟩ := isFile_iff.mp hp
  exact isFile_iff.mpr ⟨l', c, h.locate hlocate, h.of_some hget, hasks⟩

/-- A file that is found only now is the added one. -/
theorem locate_new (h : t.Gains t' l) (ht : t.Closed) (hp : p.Plain) (hnew : t'.isFile p = true)
    (hold : t.isFile p = false) : t'.locate p = .ok l := by
  obtain ⟨l', c, hlocate, hget, hasks⟩ := isFile_iff.mp hnew
  by_cases hl : l' = l
  · rw [hlocate, hl]
  · have hkept : t.get? l' = some (.file c) := (h.kept l' hl).file_iff.mp hget
    have hfound : t.locate p = .ok l' := by
      obtain ⟨absolute, parts, hparts, rfl⟩ := hp
      have hne : (Path.ofNames absolute parts).text ≠ "" := by
        intro hempty
        rw [FileTree.locate, if_pos (by simp [hempty])] at hlocate
        cases hlocate
      rw [locate_ofNames _ absolute hparts hne] at hlocate ⊢
      rw [h.working] at hlocate
      refine ht.follow_folded hparts ?_ hlocate (by rw [hkept]; nofun)
      cases absolute
      · exact ht.working
      · rfl
    rw [isFile_iff.mpr ⟨l', c, hfound, hkept, hasks⟩] at hold
    cases hold

end Gains

/-- A file that is placed where nothing was and where no file is above is an added one. -/
theorem gains_place (t : FileTree) (c : Content) (hl : l ≠ []) (hfresh : t.get? l = none)
    (habove : ∀ n < l.length, t.get? (l.take n) = none ∨ t.get? (l.take n) = some .directory) :
    t.Gains (t.place l (.file c)) l := by
  refine ⟨?_, hfresh, ⟨c, ?_⟩, ?_⟩
  · exact working_place t l _
  · rw [get?_place t hl, if_pos rfl]
  · intro l' hne
    rw [Keeps, get?_place t hl, if_neg hne]
    split
    · next hlocation =>
      obtain ⟨n, hn, rfl⟩ := hlocation
      rcases habove n hn with hnone | hdirectory
      · exact .inr ⟨hnone, rfl⟩
      · exact .inl hdirectory.symm
    · exact .inl rfl

/-- Adding such a file keeps a closed tree closed, so that more can be added. -/
theorem Closed.place (h : t.Closed) (c : Content) (hl : l ≠ []) (hfresh : t.get? l = none)
    (habove : ∀ n < l.length, t.get? (l.take n) = none ∨ t.get? (l.take n) = some .directory) :
    (t.place l (.file c)).Closed := by
  have hgains := t.gains_place c hl hfresh habove
  refine ⟨fun l' n hsome => ?_, ?_⟩
  · have hparent : l' ++ [n] <+: l ∨ t.get? l' = some .directory := by
      rw [get?_place t hl] at hsome
      split at hsome
      · next heq => exact .inl (heq ▸ List.prefix_rfl)
      split at hsome
      · next hlocation =>
        obtain ⟨k, -, heq⟩ := hlocation
        exact .inl (heq ▸ List.take_prefix k l)
      · exact .inr (h.above l' n hsome)
    rcases hparent with hprefix | hdirectory
    · have hshort : l'.length < l.length :=
        Nat.lt_of_succ_le (by simpa using hprefix.length_le)
      have htake : l' = l.take l'.length :=
        List.prefix_iff_eq_take.mp ((List.prefix_append ..).trans hprefix)
      have hne : l' ≠ l := by
        rintro rfl
        exact Nat.lt_irrefl _ hshort
      rw [get?_place t hl, if_neg hne, if_pos ⟨_, hshort, htake⟩]
    · exact hgains.of_some hdirectory
  · rw [hgains.working]
    exact hgains.of_some h.working

theorem asksDirectory_ofNames (absolute : Bool) {parts : List Component} (hne : parts ≠ [])
    (h : Folded parts) : asksDirectory (.ofNames absolute parts) = false := by
  obtain ⟨front, c, rfl⟩ := (List.eq_nil_or_concat parts).resolve_left hne
  rw [List.concat_eq_append] at h hne ⊢
  obtain ⟨-, hempty, hdot⟩ := Component.text_chars (h.of_mem (d := c) (by simp))
  simp [asksDirectory, Path.segments_ofNames absolute hne h, ← List.append_assoc, hempty, hdot]

/-- A file that is placed on its own is found by the path to it. -/
theorem isFile_place (working : Location) {names : List String} (hne : names ≠ [])
    (hnames : ∀ n ∈ names, (Component.name n).IsName) (c : Content) :
    ((⟨[], working⟩ : FileTree).place names (.file c)).isFile (.ofNames true (names.map .name)) =
      true := by
  have hfolded : Folded (names.map .name) := by
    apply Folded.of_names
    intro c hc
    obtain ⟨n, hn, rfl⟩ := List.mem_map.mp hc
    exact hnames n hn
  refine isFile_iff.mpr ⟨names, c, ?_, ?_, asksDirectory_ofNames true (by simpa using hne) hfolded⟩
  · rw [locate_ofNames _ true hfolded (Path.ofNames_ne_empty _), if_pos rfl]
    refine follow_names_iff.mpr ⟨rfl, fun i hi => ?_⟩
    have hshort : names.take i ≠ names := by
      intro hall
      have hlength := congrArg List.length hall
      rw [List.length_take] at hlength
      omega
    rw [List.nil_append, get?_place _ hne, if_neg hshort, if_pos ⟨i, hi, rfl⟩]
  · rw [get?_place _ hne, if_pos rfl]

end FileTree

end LuaBundle
