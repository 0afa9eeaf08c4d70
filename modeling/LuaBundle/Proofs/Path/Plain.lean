import LuaBundle.Graph.Walk
import Mathlib.Data.List.Basic
import Mathlib.Data.List.Induction

/-!
# Plain paths

A plain path is written from its components: names between single slashes, with at most one `..`, in
front. Normalizing gives plain paths, probing keeps them plain, and a plain path is determined by
its components, so files that are found by plain paths can be told apart by either.
-/
namespace LuaBundle

namespace Text

theorem split_eq_splitOn (separator : Char) (text : List Char) :
    split separator text = text.splitOn separator := by
  induction text with
  | nil => simp [split]
  | cons c cs ih =>
    simp only [split, ih, List.splitOn, List.splitOnP_cons_eq_if_modifyHead, beq_iff_eq]

theorem split_join {separator : Char} {parts : List (List Char)} (hne : parts ≠ [])
    (h : ∀ s ∈ parts, separator ∉ s) : split separator (join separator parts) = parts := by
  rw [split_eq_splitOn]
  exact List.splitOn_intercalate separator h hne

theorem not_mem_of_mem_split {separator : Char} {text part : List Char}
    (h : part ∈ split separator text) : separator ∉ part := by
  induction text generalizing part with
  | nil => simp_all [split]
  | cons c cs ih =>
    rw [split] at h
    split at h
    · rcases List.mem_cons.mp h with rfl | h
      · simp
      · exact ih h
    · next hc =>
      cases hs : split separator cs with
      | nil => exact absurd hs (split_ne_nil separator cs)
      | cons p ps =>
        rw [hs, List.modifyHead_cons] at h
        rw [hs] at ih
        rcases List.mem_cons.mp h with rfl | h
        · have hp : separator ∉ p := ih (List.mem_cons_self ..)
          simp_all [Ne.symm hc]
        · exact ih (List.mem_cons_of_mem _ h)

theorem mem_of_mem_split {separator c : Char} {text part : List Char}
    (h : part ∈ split separator text) (hc : c ∈ part) : c ∈ text := by
  obtain ⟨i, hi⟩ := List.mem_iff_getElem?.mp h
  have hpart : part ∈ (split separator text).intersperse [separator] := by
    refine List.mem_of_getElem? (i := 2 * i) ?_
    rw [List.getElem?_intersperse_two_mul, hi]
  rw [← join_split separator text]
  exact List.mem_flatten_of_mem hpart hc

theorem split_append_separator (separator : Char) (a b : List Char) :
    split separator (a ++ separator :: b) = split separator a ++ split separator b := by
  simp only [split_eq_splitOn, List.splitOn_append_cons_self]

theorem join_concat_append (separator : Char) (parts : List (List Char)) (last more : List Char) :
    join separator (parts ++ [last]) ++ more = join separator (parts ++ [last ++ more]) := by
  induction parts with
  | nil => simp [join]
  | cons p ps ih =>
    simp only [join, List.cons_append] at ih ⊢
    rw [List.intercalate_cons_of_ne_nil (by simp), List.intercalate_cons_of_ne_nil (by simp),
      List.append_assoc, ih]

theorem join_concat {separator : Char} {parts : List (List Char)} (hne : parts ≠ [])
    (last : List Char) :
    join separator (parts ++ [last]) = join separator parts ++ separator :: last := by
  induction parts with
  | nil => exact absurd rfl hne
  | cons p ps ih =>
    simp only [join, List.cons_append] at ih ⊢
    cases ps with
    | nil => simp
    | cons q qs =>
      rw [List.intercalate_cons_of_ne_nil (by simp), ih (by simp), List.intercalate_cons_cons]
      simp only [List.append_assoc]

end Text

namespace Component

/-- A name as a path can hold it. -/
def IsName : Component → Prop
  | name s => '/' ∉ s.toList ∧ s ≠ "" ∧ s ≠ "." ∧ s ≠ ".."
  | _ => False

instance (c : Component) : Decidable c.IsName :=
  match c with
  | name _ => inferInstanceAs (Decidable (_ ∧ _ ∧ _ ∧ _))
  | root | here | up => isFalse id

theorem IsName.exists_name {c : Component} (h : c.IsName) : ∃ s, c = name s := by
  cases c with
  | name s => exact ⟨s, rfl⟩
  | root | here | up => exact h.elim

theorem ofSegment?_isName {segment : List Char} {c : Component} (hs : '/' ∉ segment)
    (h : ofSegment? segment = some c) : c = up ∨ c.IsName := by
  unfold ofSegment? at h
  split at h
  · cases h
  · cases h
  · cases h; exact .inl rfl
  · next h1 h2 h3 =>
    cases h
    refine .inr ⟨by simpa using hs, ?_, ?_, ?_⟩
    · intro h; exact h1 (by simpa using congrArg String.toList h)
    · intro h; exact h2 (by simpa using congrArg String.toList h)
    · intro h; exact h3 (by simpa using congrArg String.toList h)

theorem ofSegment?_text {c : Component} (h : c = up ∨ c.IsName) :
    ofSegment? c.text.toList = some c := by
  rcases h with rfl | h
  · rfl
  · obtain ⟨s, rfl⟩ := h.exists_name
    obtain ⟨-, h1, h2, h3⟩ := h
    have key : ∀ t : String, s ≠ t → s.toList ≠ t.toList := fun t ht he => ht (String.toList_inj.mp he)
    have := key "" h1
    have := key "." h2
    have := key ".." h3
    simp only [text]
    unfold ofSegment?
    split <;> simp_all

theorem text_chars {c : Component} (h : c = up ∨ c.IsName) :
    '/' ∉ c.text.toList ∧ c.text.toList ≠ [] ∧ c.text.toList ≠ ['.'] := by
  rcases h with rfl | h
  · decide
  · obtain ⟨s, rfl⟩ := h.exists_name
    obtain ⟨h0, h1, h2, -⟩ := h
    refine ⟨h0, ?_, ?_⟩
    · intro h; exact h1 (String.toList_inj.mp h)
    · intro h; exact h2 (String.toList_inj.mp h)

end Component

/-- Components as folding leaves them. -/
def Folded : List Component → Prop
  | [] => True
  | c :: cs => (c = .up ∨ c.IsName) ∧ ∀ d ∈ cs, d.IsName

namespace Folded

theorem of_names {cs : List Component} (h : ∀ c ∈ cs, c.IsName) : Folded cs := by
  cases cs with
  | nil => trivial
  | cons c cs => exact ⟨.inr (h c (by simp)), fun d hd => h d (by simp [hd])⟩

theorem append_names {parts names : List Component} (h : Folded parts)
    (hnames : ∀ c ∈ names, c.IsName) : Folded (parts ++ names) := by
  cases parts with
  | nil => exact .of_names hnames
  | cons c parts =>
    refine ⟨h.1, fun d hd => ?_⟩
    rcases List.mem_append.mp hd with hd | hd
    · exact h.2 d hd
    · exact hnames d hd

theorem concat {cs : List Component} {d : Component} (h : Folded cs) (hd : d.IsName) :
    Folded (cs ++ [d]) := by
  cases cs with
  | nil => exact ⟨.inr hd, by simp⟩
  | cons c cs =>
    refine ⟨h.1, fun e he => ?_⟩
    rcases List.mem_append.mp he with he | he
    · exact h.2 e he
    · rw [List.mem_singleton.mp he]; exact hd

theorem of_concat {cs : List Component} {d : Component} (h : Folded (cs ++ [d])) : Folded cs := by
  cases cs with
  | nil => trivial
  | cons c cs => exact ⟨h.1, fun e he => h.2 e (by simp [he])⟩

theorem of_mem {cs : List Component} {d : Component} (h : Folded cs) (hd : d ∈ cs) :
    d = .up ∨ d.IsName := by
  cases cs with
  | nil => cases hd
  | cons c cs =>
    rcases List.mem_cons.mp hd with rfl | hd
    · exact h.1
    · exact .inr (h.2 d hd)

theorem ne_root {cs : List Component} {d : Component} (h : Folded cs) (hd : d ∈ cs) :
    d ≠ .root ∧ d ≠ .here := by
  rcases h.of_mem hd with rfl | h
  · decide
  · constructor <;> rintro rfl <;> exact h.elim

/-- Folding a folded list only turns it around. -/
theorem foldl_fold {cs : List Component} (h : Folded cs) : cs.foldl Path.fold [] = cs.reverse := by
  induction cs using List.reverseRecOn with
  | nil => rfl
  | append_singleton cs d ih =>
    rw [List.foldl_concat, ih h.of_concat, List.reverse_concat]
    rcases List.eq_nil_or_concat cs with rfl | ⟨front, last, rfl⟩
    · rcases h.1 with rfl | hd
      · rfl
      · obtain ⟨s, rfl⟩ := hd.exists_name; rfl
    · have hd : d.IsName := by
        cases front with
        | nil => exact h.2 d (by simp)
        | cons c front => exact h.2 d (by simp)
      obtain ⟨s, rfl⟩ := hd.exists_name
      rfl

end Folded

namespace Path

theorem mem_components {p : Path} {c : Component} (h : c ∈ p.components) :
    c = .root ∨ c = .here ∨ c = .up ∨ c.IsName := by
  unfold components at h
  rcases List.mem_append.mp h with h | h
  · split at h
    · simp_all
    · split at h <;> simp_all
  · obtain ⟨segment, hs, hc⟩ := List.mem_filterMap.mp h
    rcases Component.ofSegment?_isName (Text.not_mem_of_mem_split hs) hc with h | h
    · exact .inr (.inr (.inl h))
    · exact .inr (.inr (.inr h))

theorem fold_folded {stack : List Component} {c : Component} (h : Folded stack.reverse)
    (hc : c = .root ∨ c = .here ∨ c = .up ∨ c.IsName) : Folded (fold stack c).reverse := by
  rcases hc with rfl | rfl | rfl | hc
  · exact h
  · exact h
  · cases stack with
    | nil => exact ⟨.inl rfl, by simp⟩
    | cons d stack => exact Folded.of_concat (d := d) (by simpa [fold] using h)
  · obtain ⟨s, rfl⟩ := hc.exists_name
    simpa [fold] using h.concat hc

theorem folded_is_folded (p : Path) : Folded p.folded := by
  have key : ∀ cs : List Component, (∀ c ∈ cs, c = .root ∨ c = .here ∨ c = .up ∨ c.IsName) →
      ∀ stack, Folded stack.reverse → Folded (cs.foldl fold stack).reverse := by
    intro cs
    induction cs with
    | nil => intro _ stack h; exact h
    | cons c cs ih =>
      intro hcs stack h
      exact ih (fun d hd => hcs d (by simp [hd])) _ (fold_folded h (hcs c (by simp)))
  exact key _ (fun c hc => mem_components hc) [] trivial

theorem toList_ofNames (absolute : Bool) (parts : List Component) :
    (ofNames absolute parts).text.toList =
      (if absolute then ['/'] else []) ++ Text.join '/' (parts.map fun c => c.text.toList) := by
  cases absolute <;>
    simp [ofNames, Text.join, String.toList_intercalate, Function.comp_def]

theorem segments_join {parts : List Component} (h : Folded parts) :
    (Text.split '/' (Text.join '/' (parts.map fun c => c.text.toList))).filterMap
      Component.ofSegment? = parts := by
  cases hp : parts with
  | nil => rfl
  | cons c cs =>
    rw [← hp, Text.split_join (by simp [hp])
      (by
        intro s hs
        obtain ⟨d, hd, rfl⟩ := List.mem_map.mp hs
        exact (Component.text_chars (h.of_mem hd)).1),
      List.filterMap_map]
    have : ∀ d ∈ parts, (Component.ofSegment? ∘ fun c : Component => c.text.toList) d = some d :=
      fun d hd => Component.ofSegment?_text (h.of_mem hd)
    rw [List.filterMap_congr this, List.filterMap_some]

theorem head?_join {parts : List Component} (h : Folded parts) :
    (Text.join '/' (parts.map fun c => c.text.toList)).head? ≠ some '/' := by
  cases parts with
  | nil => simp [Text.join]
  | cons c cs =>
    obtain ⟨hslash, hne, -⟩ := Component.text_chars (h.of_mem (List.mem_cons_self ..))
    obtain ⟨first, more, hfirst⟩ := List.exists_cons_of_ne_nil hne
    intro hh
    cases cs <;> simp_all [Text.join]

@[simp] theorem isAbsolute_ofNames (absolute : Bool) {parts : List Component} (h : Folded parts) :
    (ofNames absolute parts).isAbsolute = absolute := by
  unfold isAbsolute
  rw [toList_ofNames]
  cases absolute with
  | true => rfl
  | false => simpa using head?_join h

theorem segments_ofNames (absolute : Bool) {parts : List Component} (hne : parts ≠ [])
    (h : Folded parts) : (ofNames absolute parts).segments =
      (if absolute then [[]] else []) ++ parts.map fun c => c.text.toList := by
  have hsplit : Text.split '/' (Text.join '/' (parts.map fun c => c.text.toList)) =
      parts.map fun c => c.text.toList := by
    apply Text.split_join (by simpa using hne)
    intro s hs
    obtain ⟨c, hc, rfl⟩ := List.mem_map.mp hs
    exact (Component.text_chars (h.of_mem hc)).1
  rw [segments, toList_ofNames]
  cases absolute with
  | true => simp [Text.split, hsplit]
  | false => simp [hsplit]

/-- The text of folded components has these components again. -/
theorem components_ofNames (absolute : Bool) {parts : List Component} (h : Folded parts) :
    (ofNames absolute parts).components = (if absolute then [.root] else []) ++ parts := by
  unfold components segments
  rw [isAbsolute_ofNames absolute h, toList_ofNames]
  cases absolute with
  | true =>
    simp only [if_true, List.cons_append, List.nil_append, Text.split]
    rw [List.filterMap_cons_none rfl, segments_join h]
  | false =>
    have hhere : (Text.split '/' (Text.join '/' (parts.map fun c => c.text.toList))).head? ≠
        some ['.'] := by
      cases hp : parts with
      | nil => simp [Text.join, Text.split]
      | cons c cs =>
        have hslash : ∀ s ∈ (c :: cs).map (fun c => c.text.toList), '/' ∉ s := by
          intro s hs
          obtain ⟨d, hd, rfl⟩ := List.mem_map.mp hs
          exact (Component.text_chars (h.of_mem (hp ▸ hd))).1
        rw [Text.split_join (by simp) hslash]
        simpa using (Component.text_chars (h.of_mem (d := c) (by simp [hp]))).2.2
    simp [hhere, segments_join h]

/-- The path is written as its components are. -/
def Plain (p : Path) : Prop := ∃ absolute parts, Folded parts ∧ p = ofNames absolute parts

theorem normalize_plain (p : Path) : p.normalize.Plain :=
  ⟨p.isAbsolute, p.folded, folded_is_folded p, rfl⟩

theorem resolve_plain (base p : Path) : (base.resolve p).Plain := by
  unfold resolve
  split
  · exact normalize_plain _
  · exact normalize_plain _

/-- Plain paths of the same components are the same text. -/
theorem Plain.eq_of_components {p q : Path} (hp : p.Plain) (hq : q.Plain)
    (h : p.components = q.components) : p = q := by
  obtain ⟨a, ps, hps, rfl⟩ := hp
  obtain ⟨b, qs, hqs, rfl⟩ := hq
  rw [components_ofNames a hps, components_ofNames b hqs] at h
  have hroot : ∀ cs, Folded cs → .root ∉ cs := fun cs hcs hr => (hcs.ne_root hr).1 rfl
  cases a <;> cases b
  · simp_all
  · simp only [if_true, List.nil_append, Bool.false_eq_true, if_false] at h
    exact absurd (h ▸ List.mem_cons_self ..) (hroot ps hps)
  · simp only [if_true, List.nil_append, Bool.false_eq_true, if_false] at h
    exact absurd (h.symm ▸ List.mem_cons_self ..) (hroot qs hqs)
  · simp_all

theorem Plain.folding_eq (absolute : Bool) {parts : List Component} (h : Folded parts) :
    (ofNames absolute parts).folding = (absolute, parts.reverse) := by
  rw [folding, isAbsolute_ofNames absolute h, components_ofNames absolute h, List.foldl_append]
  cases absolute <;> simp [fold, h.foldl_fold]

/-- The walk tells plain paths apart by their text. -/
theorem Plain.folding_inj {p q : Path} (hp : p.Plain) (hq : q.Plain) :
    p.folding = q.folding ↔ p = q := by
  constructor
  · intro h
    obtain ⟨a, ps, hps, rfl⟩ := hp
    obtain ⟨b, qs, hqs, rfl⟩ := hq
    rw [folding_eq a hps, folding_eq b hqs, Prod.mk.injEq] at h
    rw [h.1, List.reverse_injective h.2]
  · rintro rfl; rfl

theorem Plain.normalize_eq {p : Path} (h : p.Plain) : p.normalize = p := by
  obtain ⟨absolute, parts, hparts, rfl⟩ := h
  have hfolding := folding_eq absolute hparts
  rw [folding, Prod.mk.injEq] at hfolding
  rw [normalize, folded, hfolding.1, hfolding.2, List.reverse_reverse]

theorem toSlash_inj {inside inside' : List Component} (h : ∀ c ∈ inside, c.IsName)
    (h' : ∀ c ∈ inside', c.IsName) (hne : toSlash inside ≠ "")
    (heq : toSlash inside = toSlash inside') : inside = inside' := by
  have key : ∀ cs : List Component, (∀ c ∈ cs, c.IsName) → toSlash cs ≠ "" →
      (Text.split '/' (toSlash cs).toList).map (fun s => Component.name (String.ofList s)) = cs := by
    intro cs hcs hne
    have hnames : (toSlash cs).toList = Text.join '/' (cs.map fun c => c.text.toList) := by
      have hslash : toSlash cs = String.intercalate "/" (cs.map Component.text) := by
        rw [toSlash, ← List.filterMap_eq_map]
        refine congrArg _ (List.filterMap_congr fun c hc => ?_)
        obtain ⟨s, rfl⟩ := (hcs c hc).exists_name
        rfl
      rw [hslash, String.toList_intercalate, List.map_map]
      rfl
    have hcsne : cs ≠ [] := by
      rintro rfl
      exact hne rfl
    rw [hnames, Text.split_join (by simpa using hcsne), List.map_map]
    · refine (List.map_congr_left fun c hc => ?_).trans (List.map_id cs)
      obtain ⟨s, rfl⟩ := (hcs c hc).exists_name
      simp [Component.text]
    · intro s hs
      obtain ⟨c, hc, rfl⟩ := List.mem_map.mp hs
      exact (Component.text_chars (.inr (hcs c hc))).1
  rw [← key inside h hne, heq, key inside' h' (heq ▸ hne)]

theorem ofNames_concat_append {absolute : Bool} {front : List Component} (c : Component)
    (more : String) :
    (⟨(ofNames absolute (front ++ [c])).text ++ more⟩ : Path) =
      ofNames absolute (front ++ [.name (c.text ++ more)]) := by
  have h : ((ofNames absolute (front ++ [c])).text ++ more).toList =
      (ofNames absolute (front ++ [.name (c.text ++ more)])).text.toList := by
    rw [String.toList_append, toList_ofNames, toList_ofNames, List.append_assoc, List.map_append,
      List.map_append]
    simp only [List.map_cons, List.map_nil, Text.join_concat_append, Component.text,
      String.toList_append]
  exact congrArg Path.mk (String.toList_inj.mp h)

/-- With a suffix long enough, it is no matter what a name begins with. -/
theorem isName_append {stem suffix : String} (hstem : '/' ∉ stem.toList)
    (hsuffix : '/' ∉ suffix.toList) (hlong : 2 < suffix.toList.length) :
    (Component.name (stem ++ suffix)).IsName := by
  have hne : ∀ s : String, s.toList.length ≤ 2 → stem ++ suffix ≠ s := by
    intro s hs he
    have hlength := congrArg (fun t : String => t.toList.length) he
    simp only [String.toList_append, List.length_append] at hlength
    omega
  refine ⟨?_, hne _ (by decide), hne _ (by decide), hne _ (by decide)⟩
  rw [String.toList_append, List.mem_append]
  exact fun h => h.elim hstem hsuffix

theorem isName_append_lua {c : Component} (h : c = .up ∨ c.IsName) :
    (Component.name (c.text ++ ".lua")).IsName :=
  isName_append (Component.text_chars h).1 (by decide) (by decide)

theorem append_lua_plain {p : Path} (h : p.Plain) : (⟨p.text ++ ".lua"⟩ : Path).Plain := by
  obtain ⟨absolute, parts, hparts, rfl⟩ := h
  rcases List.eq_nil_or_concat parts with rfl | ⟨front, c, rfl⟩
  · refine ⟨absolute, [.name ".lua"], ⟨.inr (by decide), by simp⟩, ?_⟩
    cases absolute <;> rfl
  · rw [List.concat_eq_append] at hparts ⊢
    rw [ofNames_concat_append]
    exact ⟨absolute, _, hparts.of_concat.concat (isName_append_lua (hparts.of_mem (by simp))), rfl⟩

theorem getLast?_ofNames (absolute : Bool) {parts : List Component} (hne : parts ≠ [])
    (h : Folded parts) : (ofNames absolute parts).text.toList.getLast? ≠ some '/' := by
  obtain ⟨front, c, rfl⟩ := (List.eq_nil_or_concat parts).resolve_left hne
  rw [List.concat_eq_append] at h ⊢
  obtain ⟨hslash, hc, -⟩ := Component.text_chars (h.of_mem (d := c) (by simp))
  have hend : ∃ before, (ofNames absolute (front ++ [c])).text.toList = before ++ c.text.toList := by
    rw [toList_ofNames, List.map_append]
    cases front with
    | nil => exact ⟨if absolute then ['/'] else [], by simp [Text.join]⟩
    | cons d front =>
      rw [List.map_singleton, Text.join_concat (by simp)]
      exact ⟨(if absolute then ['/'] else []) ++
        (Text.join '/' ((d :: front).map fun c => c.text.toList) ++ ['/']), by simp⟩
  obtain ⟨before, hb⟩ := hend
  rw [hb, List.getLast?_append_of_ne_nil _ hc]
  intro hl
  exact hslash (List.mem_of_getLast? hl)

/-- A name that is joined to a path becomes its last component. -/
theorem ofNames_join (absolute : Bool) {parts : List Component} (hne : parts ≠ [])
    (h : Folded parts) {name : String} (hname : (⟨name⟩ : Path).isAbsolute = false) :
    (ofNames absolute parts).join ⟨name⟩ = ofNames absolute (parts ++ [.name name]) := by
  have hlast := getLast?_ofNames absolute hne h
  have hempty : (ofNames absolute parts).text ≠ "" := by
    intro hempty
    have htext := congrArg String.toList hempty
    rw [toList_ofNames] at htext
    have hparts := segments_join h
    rw [(List.append_eq_nil_iff.mp htext).2] at hparts
    exact hne hparts.symm
  rw [join, if_neg (by simp [hname]), if_neg (by simp [hempty, hlast])]
  have htext : ((ofNames absolute parts).text ++ "/" ++ name).toList =
      (ofNames absolute (parts ++ [.name name])).text.toList := by
    rw [String.toList_append, String.toList_append, toList_ofNames, toList_ofNames,
      List.map_append, List.map_singleton, Text.join_concat (by simpa using hne)]
    simp [Component.text]
  exact congrArg Path.mk (String.toList_inj.mp htext)

theorem join_init_plain {p : Path} (h : p.Plain) : (p.join ⟨"init.lua"⟩).Plain := by
  obtain ⟨absolute, parts, hparts, rfl⟩ := h
  have hinit : (Component.name "init.lua").IsName := by decide
  by_cases hp : parts = []
  · subst hp
    refine ⟨absolute, [.name "init.lua"], ⟨.inr hinit, by simp⟩, ?_⟩
    cases absolute <;> rfl
  · exact ⟨absolute, _, hparts.concat hinit, ofNames_join absolute hp hparts (by decide)⟩

end Path

end LuaBundle
