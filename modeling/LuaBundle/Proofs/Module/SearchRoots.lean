import LuaBundle.Module.SearchRoots
import LuaBundle.Proofs.OrderedMap
import LuaBundle.Proofs.Path.Plain
import Mathlib.Data.List.DropRight
import Mathlib.Data.List.Forall2
import Mathlib.Data.List.Nodup
import Mathlib.Data.List.TakeWhile

/-!
# Roots of the environment

The roots that a variable contributes are the directories of its entries, each where it is first
seen; the roots of all variables are those of one after the other, again each where it is first
seen. Resolved paths are plain, so comparing them by components or by text is the same.
-/
namespace LuaBundle

/-! ### First seen -/

/-- `firsts` has the members of `all`, in the order of their first places there. -/
structure FirstSeen {α : Type} [DecidableEq α] (firsts all : List α) : Prop where
  mem_iff : ∀ x, x ∈ firsts ↔ x ∈ all
  ordered : firsts.Pairwise fun x y => all.idxOf x < all.idxOf y

namespace FirstSeen

variable {α : Type} [DecidableEq α] {firsts all : List α} {x : α}

theorem nodup (h : FirstSeen firsts all) : firsts.Nodup :=
  h.ordered.imp fun hlt heq => absurd (heq ▸ hlt) (lt_irrefl _)

theorem nil : FirstSeen ([] : List α) [] := ⟨fun _ => Iff.rfl, .nil⟩

theorem ordered_append (h : FirstSeen firsts all) (x : α) :
    firsts.Pairwise fun y z => (all ++ [x]).idxOf y < (all ++ [x]).idxOf z := by
  refine h.ordered.imp_of_mem fun {y z} hy hz hlt => ?_
  rwa [List.idxOf_append_of_mem ((h.mem_iff y).mp hy),
    List.idxOf_append_of_mem ((h.mem_iff z).mp hz)]

theorem again (h : FirstSeen firsts all) (hx : x ∈ firsts) : FirstSeen firsts (all ++ [x]) where
  mem_iff y := by
    rw [List.mem_append, List.mem_singleton, h.mem_iff y]
    have hall := (h.mem_iff x).mp hx
    exact ⟨.inl, fun hy => hy.elim id fun heq => heq ▸ hall⟩
  ordered := h.ordered_append x

theorem new (h : FirstSeen firsts all) (hx : x ∉ firsts) :
    FirstSeen (firsts ++ [x]) (all ++ [x]) where
  mem_iff y := by simp only [List.mem_append, h.mem_iff y]
  ordered := by
    refine List.pairwise_append.mpr ⟨h.ordered_append x, List.pairwise_singleton .., ?_⟩
    intro y hy z hz
    obtain rfl := List.mem_singleton.mp hz
    have hyall := (h.mem_iff y).mp hy
    have hzall : z ∉ all := fun hz => hx ((h.mem_iff z).mpr hz)
    rw [List.idxOf_append_of_mem hyall, List.idxOf_append_of_notMem hzall]
    exact Nat.lt_add_right _ (List.idxOf_lt_length_of_mem hyall)

end FirstSeen

/-! ### Collecting paths -/

variable {paths : List Path} {p q : Path}

theorem Path.Plain.same_iff (hp : p.Plain) (hq : q.Plain) : p.same q = true ↔ p = q := by
  rw [same, beq_iff_eq]
  exact ⟨hp.eq_of_components hq, congrArg _⟩

theorem addPath_of_mem (hp : p ∈ paths) : addPath paths p = paths :=
  if_pos (List.any_eq_true.mpr ⟨p, hp, beq_self_eq_true p.components⟩)

theorem addPath_of_not_mem (hpaths : ∀ q ∈ paths, q.Plain) (hplain : p.Plain) (hp : p ∉ paths) :
    addPath paths p = paths ++ [p] := by
  refine if_neg fun hany => hp ?_
  obtain ⟨q, hq, hsame⟩ := List.any_eq_true.mp hany
  exact ((hpaths q hq).same_iff hplain).mp hsame ▸ hq

theorem firstSeen_addPath (hplain : ∀ p ∈ paths, p.Plain) :
    FirstSeen (paths.foldl addPath []) paths := by
  induction paths using List.reverseRecOn with
  | nil => exact .nil
  | append_singleton paths p ih =>
    obtain ⟨hpaths, hp⟩ := List.forall_mem_append.mp hplain
    have ih := ih hpaths
    rw [List.foldl_concat]
    by_cases hmem : p ∈ paths.foldl addPath []
    · rw [addPath_of_mem hmem]
      exact ih.again hmem
    · rw [addPath_of_not_mem (fun q hq => hpaths q ((ih.mem_iff q).mp hq)) (hp p (by simp)) hmem]
      exact ih.new hmem

/-- Plain paths that differ differ in their components. -/
theorem nodup_components (hplain : ∀ p ∈ paths, p.Plain) (h : paths.Nodup) :
    (paths.map Path.components).Nodup :=
  List.Nodup.map_on (fun p hp q hq => (hplain p hp).eq_of_components (hplain q hq)) h

/-! ### Templates -/

/-- What a template is cut to. Between blanks it is a directory, then slashes, and then a pattern,
which is empty or begins with the first question mark. -/
inductive CutTo : List Char → List Char → Prop
  | parts {before directory slashes pattern after : List Char}
      (blank_before : ∀ c ∈ before, Text.isBlank c = true)
      (blank_after : ∀ c ∈ after, Text.isBlank c = true)
      (first : ∀ c ∈ (directory ++ slashes ++ pattern).head?, Text.isBlank c = false)
      (last : ∀ c ∈ (directory ++ slashes ++ pattern).getLast?, Text.isBlank c = false)
      (unmarked : '?' ∉ directory ++ slashes)
      (marked : ∀ c ∈ pattern.head?, c = '?')
      (only_slashes : ∀ c ∈ slashes, isSlash c = true)
      (directory_end : ∀ c ∈ directory.getLast?, isSlash c = false) :
      CutTo (before ++ (directory ++ slashes ++ pattern) ++ after) directory

/-- What a template contributes: nothing if its directory is empty; else the directory, or where it
leads to from the source root if it is relative, folded. -/
inductive Contributes (sourceRoot : Path) (template : List Char) : List Path → Prop
  | nothing (cut : CutTo template []) : Contributes sourceRoot template []
  | absolute {directory : Path} (cut : CutTo template directory.text.toList)
      (from_root : directory.isAbsolute = true) :
      Contributes sourceRoot template [directory.normalize]
  | relative {directory : Path} (cut : CutTo template directory.text.toList)
      (nonempty : directory.text ≠ "") (not_from_root : directory.isAbsolute = false) :
      Contributes sourceRoot template [(sourceRoot.join directory).normalize]

section While

variable {f : Char → Bool} {front back text : List Char} {c : Char}

theorem not_of_mem_head?_dropWhile (h : c ∈ (text.dropWhile f).head?) : f c = false := by
  have hnot := List.head?_dropWhile_not f text
  rwa [Option.mem_def.mp h] at hnot

theorem not_of_mem_getLast?_rdropWhile (h : c ∈ (text.rdropWhile f).getLast?) : f c = false := by
  rw [List.rdropWhile, List.getLast?_reverse] at h
  exact not_of_mem_head?_dropWhile h

theorem dropWhile_front (hfront : ∀ c ∈ front, f c = true) (hback : ∀ c ∈ back.head?, f c = false) :
    (front ++ back).dropWhile f = back := by
  rw [List.dropWhile_append_of_pos hfront]
  cases back with
  | nil => rfl
  | cons c back => exact List.dropWhile_cons_of_neg (by simp [hback c rfl])

theorem takeWhile_front (hfront : ∀ c ∈ front, f c = true) (hback : ∀ c ∈ back.head?, f c = false) :
    (front ++ back).takeWhile f = front := by
  rw [List.takeWhile_append_of_pos hfront]
  cases back with
  | nil => exact List.append_nil _
  | cons c back => rw [List.takeWhile_cons_of_neg (by simp [hback c rfl]), List.append_nil]

theorem rdropWhile_back (hfront : ∀ c ∈ front.getLast?, f c = false)
    (hback : ∀ c ∈ back, f c = true) : (front ++ back).rdropWhile f = front := by
  rw [List.rdropWhile, List.reverse_append, dropWhile_front, List.reverse_reverse]
  · exact fun c hc => hback c (List.mem_reverse.mp hc)
  · rwa [List.head?_reverse]

end While

theorem trim_between {before body after : List Char}
    (hbefore : ∀ c ∈ before, Text.isBlank c = true) (hafter : ∀ c ∈ after, Text.isBlank c = true)
    (first : ∀ c ∈ body.head?, Text.isBlank c = false)
    (last : ∀ c ∈ body.getLast?, Text.isBlank c = false) :
    Text.trim (before ++ body ++ after) = body := by
  rw [Text.trim]
  cases body with
  | nil =>
    -- With nothing in between, the blanks behind are dropped from the front as well.
    have hall : ∀ c ∈ before ++ after, Text.isBlank c = true :=
      List.forall_mem_append.mpr ⟨hbefore, hafter⟩
    rw [List.append_nil, List.dropWhile_eq_nil_iff.mpr hall]
    rfl
  | cons c body =>
    have hfirst : ∀ d ∈ (c :: body ++ after).head?, Text.isBlank d = false := first
    rw [List.append_assoc, dropWhile_front hbefore hfirst]
    exact rdropWhile_back last hafter

theorem exists_around_trim (text : List Char) :
    ∃ before after, before ++ Text.trim text ++ after = text ∧
      (∀ c ∈ before, Text.isBlank c = true) ∧ (∀ c ∈ after, Text.isBlank c = true) ∧
      (∀ c ∈ (Text.trim text).head?, Text.isBlank c = false) ∧
      ∀ c ∈ (Text.trim text).getLast?, Text.isBlank c = false := by
  have hrest : Text.trim text ++ (text.dropWhile Text.isBlank).rtakeWhile Text.isBlank =
      text.dropWhile Text.isBlank := List.rdropWhile_append_rtakeWhile ..
  refine ⟨text.takeWhile Text.isBlank, (text.dropWhile Text.isBlank).rtakeWhile Text.isBlank,
    ?_, fun c hc => List.mem_takeWhile_imp hc, fun c hc => List.mem_rtakeWhile_imp hc, ?_,
    fun c hc => not_of_mem_getLast?_rdropWhile hc⟩
  · rw [List.append_assoc, hrest, List.takeWhile_append_dropWhile]
  · intro c hc
    have hhead : c ∈ (text.dropWhile Text.isBlank).head? := by
      rw [← hrest, List.head?_append, Option.mem_def.mp hc]
      rfl
    exact not_of_mem_head?_dropWhile hhead

def templateDirectory (template : List Char) : List Char :=
  ((Text.trim template).takeWhile (· != '?')).rdropWhile isSlash

theorem templateRoot?_eq (sourceRoot : Path) (template : List Char) :
    templateRoot? sourceRoot template = if templateDirectory template = [] then none
      else some (sourceRoot.resolve ⟨String.ofList (templateDirectory template)⟩) := rfl

variable {template : List Char} {sourceRoot : Path}

/-- Every template has such parts. -/
theorem cutTo_templateDirectory (template : List Char) :
    CutTo template (templateDirectory template) := by
  obtain ⟨before, after, htrim, hbefore, hafter, first, last⟩ := exists_around_trim template
  have hbody : templateDirectory template ++
      ((Text.trim template).takeWhile (· != '?')).rtakeWhile isSlash ++
      (Text.trim template).dropWhile (· != '?') = Text.trim template := by
    rw [templateDirectory, List.rdropWhile_append_rtakeWhile, List.takeWhile_append_dropWhile]
  have hcut : CutTo (before ++ Text.trim template ++ after) (templateDirectory template) := by
    rw [← hbody] at first last ⊢
    refine .parts hbefore hafter first last ?_ ?_ ?_ ?_
    · rw [templateDirectory, List.rdropWhile_append_rtakeWhile]
      exact fun hmark => by simpa using List.mem_takeWhile_imp hmark
    · exact fun c hc => by simpa using not_of_mem_head?_dropWhile hc
    · exact fun c hc => List.mem_rtakeWhile_imp hc
    · exact fun c hc => not_of_mem_getLast?_rdropWhile hc
  rwa [htrim] at hcut

/-- The parts leave no choice of the directory. -/
theorem CutTo.eq_templateDirectory {d : List Char} (h : CutTo template d) :
    templateDirectory template = d := by
  cases h with
  | @parts before _ slashes pattern after blank_before blank_after first last unmarked marked
      only_slashes directory_end =>
    have hfront : ∀ c ∈ d ++ slashes, (c != '?') = true :=
      fun c hc => bne_iff_ne.mpr (ne_of_mem_of_not_mem hc unmarked)
    have hpattern : ∀ c ∈ pattern.head?, (c != '?') = false :=
      fun c hc => bne_eq_false_iff_eq.mpr (marked c hc)
    rw [templateDirectory, trim_between blank_before blank_after first last,
      takeWhile_front hfront hpattern, rdropWhile_back directory_end only_slashes]

theorem CutTo.templateRoot?_eq {directory : Path} (h : CutTo template directory.text.toList)
    (hne : directory.text ≠ "") :
    templateRoot? sourceRoot template = some (sourceRoot.resolve directory) := by
  rw [LuaBundle.templateRoot?_eq, h.eq_templateDirectory, String.ofList_toList, if_neg]
  exact fun hnil => hne (String.toList_inj.mp hnil)

theorem contributes_iff {given : List Path} :
    Contributes sourceRoot template given ↔ (templateRoot? sourceRoot template).toList = given := by
  constructor
  · intro h
    cases h with
    | nothing cut => rw [templateRoot?_eq, if_pos cut.eq_templateDirectory, Option.toList_none]
    | @absolute directory cut from_root =>
      have hne : directory.text ≠ "" := by
        intro hempty
        rw [Path.isAbsolute, hempty] at from_root
        cases from_root
      rw [cut.templateRoot?_eq hne, Path.resolve, if_pos from_root, Option.toList_some]
    | relative cut nonempty not_from_root =>
      rw [cut.templateRoot?_eq nonempty, Path.resolve, if_neg (by simp [not_from_root]),
        Option.toList_some]
  · rintro rfl
    have hcut := cutTo_templateDirectory template
    rw [templateRoot?_eq]
    split
    · next hempty => exact .nothing (hempty ▸ hcut)
    · next hne =>
      rw [← String.toList_ofList (l := templateDirectory template)] at hcut
      rw [Option.toList_some, Path.resolve]
      split
      · next habsolute => exact .absolute hcut habsolute
      · next hrelative =>
        refine .relative hcut (fun htext => hne ?_) (Bool.eq_false_iff.mpr hrelative)
        simpa using congrArg String.toList htext

/-! ### Variables -/

variable {value : Option String}

/-- The templates of a search path; a variable that is unset has none. -/
def templates (value : Option String) : List (List Char) :=
  (value.map fun v => v.toList.splitOn ';').getD []

/-- The roots of one variable. -/
structure RootsOf (sourceRoot : Path) (value : Option String) (roots : List Path) : Prop where
  /-- What each template contributes is determined. -/
  first_seen : ∃ found, (∀ given, List.Forall₂ (Contributes sourceRoot) (templates value) given ↔
    found = given) ∧ FirstSeen roots found.flatten
  distinct : (roots.map Path.components).Nodup

theorem variableRoots_eq (sourceRoot : Path) (value : Option String) :
    variableRoots sourceRoot value =
      ((templates value).filterMap (templateRoot? sourceRoot)).foldl addPath [] := by
  cases value with
  | none => rfl
  | some v => rw [variableRoots, Text.split_eq_splitOn]; rfl

theorem plain_of_mem_templates {all : List (List Char)}
    (h : p ∈ all.filterMap (templateRoot? sourceRoot)) : p.Plain := by
  obtain ⟨template, -, hp⟩ := List.mem_filterMap.mp h
  rw [templateRoot?_eq, Option.ite_none_left_eq_some] at hp
  exact Option.some.inj hp.2 ▸ Path.resolve_plain ..

theorem firstSeen_variableRoots (sourceRoot : Path) (value : Option String) :
    FirstSeen (variableRoots sourceRoot value)
      ((templates value).filterMap (templateRoot? sourceRoot)) := by
  rw [variableRoots_eq]
  exact firstSeen_addPath fun p hp => plain_of_mem_templates hp

theorem plain_of_mem_variableRoots (h : p ∈ variableRoots sourceRoot value) : p.Plain :=
  plain_of_mem_templates (((firstSeen_variableRoots sourceRoot value).mem_iff p).mp h)

theorem rootsOf_variableRoots (sourceRoot : Path) (value : Option String) :
    RootsOf sourceRoot value (variableRoots sourceRoot value) := by
  have hseen := firstSeen_variableRoots sourceRoot value
  refine ⟨⟨(templates value).map fun t => (templateRoot? sourceRoot t).toList, ?_, ?_⟩,
    nodup_components (fun p hp => plain_of_mem_variableRoots hp) hseen.nodup⟩
  · intro given
    rw [← List.forall₂_eq_eq_eq, List.forall₂_map_left_iff]
    exact ⟨fun h => h.imp fun _ _ => contributes_iff.mp,
      fun h => h.imp fun _ _ => contributes_iff.mpr⟩
  · rwa [← List.flatMap_def, ← List.filterMap_eq_flatMap_toList]

theorem get?_byName {names : Option (List String)} {lookup : String → Option String} {n : String}
    (h : n ∈ (externalRoots names sourceRoot lookup).names) :
    (externalRoots names sourceRoot lookup).byName.get? n =
      some (variableRoots sourceRoot (lookup n)) := by
  refine OrderedMap.get?_ofList_of_agree (List.mem_map.mpr ⟨n, h, rfl⟩) fun w hw => ?_
  obtain ⟨m, -, heq⟩ := List.mem_map.mp hw
  obtain ⟨rfl, rfl⟩ := Prod.mk.inj heq
  rfl

/-- Each variable has the directories of its entries and all of them together have the union, in the
order in which they are first seen and none twice. With no variable named there are none. -/
theorem externalRoots_firstSeen (names : Option (List String)) (sourceRoot : Path)
    (lookup : String → Option String) :
    let r := externalRoots names sourceRoot lookup
    r.names = (names.map normalizeEnvNames).getD [defaultEnvVar] ∧
      (∀ n ∈ r.names, ∃ roots, r.byName.get? n = some roots ∧
        RootsOf sourceRoot (lookup n) roots) ∧
      FirstSeen r.all (r.names.flatMap fun n => (r.byName.get? n).getD []) ∧
      (r.all.map Path.components).Nodup ∧
      (externalRoots (some []) sourceRoot lookup).byName.entries = [] ∧
      (externalRoots (some []) sourceRoot lookup).all = [] := by
  intro r
  have hunion : (r.names.flatMap fun n => (r.byName.get? n).getD []) =
      r.names.flatMap fun n => variableRoots sourceRoot (lookup n) :=
    List.flatMap_congr fun n hn => by rw [get?_byName hn, Option.getD_some]
  have hall : r.all = (r.names.flatMap fun n => variableRoots sourceRoot (lookup n)).foldl
      addPath [] := by
    change ((List.map _ r.names).flatMap Prod.snd).foldl addPath [] = _
    rw [List.flatMap_map]
  have hplain : ∀ p ∈ r.names.flatMap fun n => variableRoots sourceRoot (lookup n), p.Plain := by
    intro p hp
    obtain ⟨n, -, hp⟩ := List.mem_flatMap.mp hp
    exact plain_of_mem_variableRoots hp
  have hseen := firstSeen_addPath hplain
  rw [← hall] at hseen
  exact ⟨rfl, fun n hn => ⟨_, get?_byName hn, rootsOf_variableRoots ..⟩, hunion ▸ hseen,
    nodup_components (fun p hp => hplain p ((hseen.mem_iff p).mp hp)) hseen.nodup, rfl, rfl⟩

example : (externalRoots (some ["A", " B "]) ⟨"/src"⟩ fun n =>
      if n = "A" then some "/a/?.lua; ./lib//?/init.lua;;/" else some "lib\\?;/b/c/../?;?").all =
    [⟨"/a"⟩, ⟨"/src/lib"⟩, ⟨"/b"⟩] := by
  decide +kernel

end LuaBundle
