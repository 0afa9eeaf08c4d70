import LuaBundle.Proofs.Lua.Requires
import LuaBundle.Proofs.Module.Precedence
import LuaBundle.Proofs.Path.Climbing

/-!
# Where required files lie

The dots of an identifier become slashes, so nothing in it leads upwards. If it begins with neither
a dot nor a slash it is a relative path of names, and the file lies in the search root it was found
from. Otherwise it is an absolute path: the roots have no part in it, and it may lead anywhere.
-/
namespace LuaBundle

namespace Path

variable {root : Path} {names : List Component}

theorem foldl_fold_of_isName (h : ∀ c ∈ names, c.IsName) (stack : List Component) :
    names.foldl fold stack = names.reverse ++ stack :=
  foldl_fold_names (fun c hc => (h c hc).exists_name) stack

/-- Names are taken from an absolute path by going down from where it leads. -/
theorem resolve_names {p : Path} (hroot : root.isAbsolute = true) (hp : p.isAbsolute = false)
    (hnames : ∀ c ∈ p.components, c.IsName) :
    root.resolve p = ofNames true (root.folded ++ p.components) := by
  rw [resolve_eq hroot hp, foldl_fold_of_isName hnames, List.reverse_append, List.reverse_reverse]
  rfl

theorem isWithin_iff {parts : List Component} (hroot : root.isAbsolute = true)
    (hparts : Folded parts) :
    root.isWithin (ofNames true parts) = true ↔ root.folded <+: parts := by
  have hfile : (ofNames true parts).Plain := ⟨true, parts, hparts, rfl⟩
  rw [isWithin, hfile.normalize_eq, normalize, hroot, components_ofNames true hparts,
    components_ofNames true (folded_is_folded root), List.isPrefixOf_iff_prefix]
  simp

/-- Some directory does not hold a given file: one below it. -/
theorem exists_not_isWithin {parts : List Component} (hparts : Folded parts) :
    ∃ root : Path, root.isAbsolute = true ∧ ¬ root.isWithin (ofNames true parts) = true := by
  have hbelow : Folded (parts ++ [.name "src"]) := hparts.concat (by decide)
  have habsolute := isAbsolute_ofNames true hbelow
  have hfolded : (ofNames true (parts ++ [.name "src"])).folded = parts ++ [.name "src"] := by
    rw [folded, components_ofNames true hbelow, List.foldl_append]
    simp [fold, hbelow.foldl_fold]
  refine ⟨_, habsolute, fun hwithin => ?_⟩
  have hprefix := (isWithin_iff habsolute hparts).mp hwithin
  rw [hfolded] at hprefix
  simpa using hprefix.length_le

theorem append_lua_names {parts names : List Component} (h : parts = [] ∨ names ≠ [])
    (hnames : ∀ c ∈ names, c.IsName) : ∃ more : List Component, more ≠ [] ∧
      (∀ c ∈ more, c.IsName) ∧
      (⟨(ofNames true (parts ++ names)).text ++ ".lua"⟩ : Path) = ofNames true (parts ++ more) := by
  rcases List.eq_nil_or_concat names with rfl | ⟨front, c, rfl⟩
  · obtain rfl := h.resolve_right (by simp)
    exact ⟨[.name ".lua"], by simp, by decide, rfl⟩
  · rw [List.concat_eq_append] at hnames ⊢
    refine ⟨front ++ [.name (c.text ++ ".lua")], by simp, ?_, ?_⟩
    · obtain ⟨hfront, hc⟩ := List.forall_mem_append.mp hnames
      refine List.forall_mem_append.mpr ⟨hfront, List.forall_mem_singleton.mpr ?_⟩
      exact isName_append_lua (.inr (hc c (List.mem_singleton_self c)))
    · rw [← List.append_assoc, ofNames_concat_append, List.append_assoc]

end Path

namespace Resolver

variable {r : Resolver} {t : FileTree} {id : String} {requesting root file : Path}

/-! ### Identifiers as paths -/

theorem isName_of_relativePath {c : Component}
    (h : c ∈ (relativePath id).segments.filterMap Component.ofSegment?) : c.IsName := by
  obtain ⟨s, hs, hc⟩ := List.mem_filterMap.mp h
  have hdot : '.' ∉ s := by
    intro hdot
    have htext := Text.mem_of_mem_split hs hdot
    rw [relativePath, String.toList_ofList, Text.replace, List.mem_map] at htext
    obtain ⟨d, -, hd⟩ := htext
    split at hd
    · cases hd
    · next hne => exact hne hd
  rcases Component.ofSegment?_isName (Text.not_mem_of_mem_split hs) hc with rfl | hname
  · unfold Component.ofSegment? at hc
    split at hc <;> simp_all
  · exact hname

/-- An identifier that begins with neither a dot nor a slash is a relative path of names. -/
theorem relativePath_names {c : Char} {rest : List Char} (hid : id.toList = c :: rest)
    (hdot : c ≠ '.') (hslash : c ≠ '/') : (relativePath id).isAbsolute = false ∧
      (relativePath id).components ≠ [] ∧ ∀ d ∈ (relativePath id).components, d.IsName := by
  have htext : (relativePath id).text.toList = c :: Text.replace '.' '/' rest := by
    rw [relativePath, String.toList_ofList, hid]
    simp [Text.replace, hdot]
  have habsolute : (relativePath id).isAbsolute = false := by
    rw [Path.isAbsolute, htext]
    simp [hslash]
  have hsegments : ∃ first more, (relativePath id).segments = (c :: first) :: more := by
    rw [Path.segments, htext, Text.split, if_neg hslash]
    cases hs : Text.split '/' (Text.replace '.' '/' rest) with
    | nil => exact absurd hs (Text.split_ne_nil _ _)
    | cons first more => exact ⟨first, more, rfl⟩
  obtain ⟨first, more, hsegments⟩ := hsegments
  have hcomponents : (relativePath id).components =
      (relativePath id).segments.filterMap Component.ofSegment? := by
    rw [Path.components, habsolute, hsegments]
    simp [hdot]
  refine ⟨habsolute, ?_, fun d hd => isName_of_relativePath (hcomponents ▸ hd)⟩
  rw [hcomponents, hsegments]
  have hfirst : Component.ofSegment? (c :: first) = some (.name (String.ofList (c :: first))) := by
    unfold Component.ofSegment?
    split <;> simp_all
  rw [List.filterMap_cons_some hfirst]
  simp

/-- Any other identifier is an absolute path of names. -/
theorem relativePath_absolute {c : Char} {rest : List Char} (hid : id.toList = c :: rest)
    (hc : c = '.' ∨ c = '/') : (relativePath id).isAbsolute = true ∧
      ∀ d ∈ (relativePath id).folded, d.IsName := by
  have habsolute : (relativePath id).isAbsolute = true := by
    rw [Path.isAbsolute, relativePath, String.toList_ofList, hid]
    rcases hc with rfl | rfl <;> rfl
  refine ⟨habsolute, fun d hd => ?_⟩
  apply isName_of_relativePath
  rw [Path.folded, Path.components, habsolute, if_pos rfl, List.singleton_append,
    List.foldl_cons, Path.fold, Path.foldl_fold_of_isName fun _ => isName_of_relativePath] at hd
  simpa using hd

/-! ### Probed files -/

/-- Names that are not empty keep a probed file below where they start. -/
theorem ModuleFile.below {parts names : List Component} (hparts : Folded parts) (hne : names ≠ [])
    (hnames : ∀ c ∈ names, c.IsName)
    (h : ModuleFile t (.ofNames true (parts ++ names)) file) :
    ∃ more : List Component, (∀ c ∈ more, c.IsName) ∧ file = .ofNames true (parts ++ more) := by
  cases h with
  | script =>
    obtain ⟨more, -, hmore, heq⟩ := Path.append_lua_names (.inr hne) hnames
    exact ⟨more, hmore, heq⟩
  | package =>
    refine ⟨names ++ [.name "init.lua"], ?_, ?_⟩
    · exact List.forall_mem_append.mpr ⟨hnames, List.forall_mem_singleton.mpr (by decide)⟩
    · rw [Path.ofNames_join true (by simp [hne]) (hparts.append_names hnames) (by decide),
        List.append_assoc]

theorem normalizeId_of_found {source id : List Char} (h : id ∈ Lua.findRequires source) :
    normalizeId (String.ofList id) = String.ofList id := by
  have hid : ∀ c ∈ id, (if c = '\\' then '/' else c) = c := by
    intro c hc
    have hchar := Lua.isIdChar_of_mem_findRequires h c hc
    split
    · next heq =>
      rw [heq] at hchar
      cases hchar
    · rfl
  rw [normalizeId, String.toList_ofList, Text.replace, List.map_congr_left hid, List.map_id']

/-- Whatever the resolver, the files and the requiring directory are, as long as the search roots
are absolute: a file that is found on them lies within one of them. -/
def Confined (id : String) : Prop :=
  ∀ (r : Resolver) (t : FileTree) (requesting : Path) (m : ResolvedModule),
    (∀ root ∈ r.searchRoots requesting, root.isAbsolute = true) →
    r.resolve t id requesting = .ok (.resolved m) → m.overrideApplied = false →
    ∃ root ∈ r.searchRoots requesting, root.isWithin m.filePath = true

theorem confined_of_names {c : Char} {rest : List Char} (hnormal : normalizeId id = id)
    (hid : id.toList = c :: rest) (hdot : c ≠ '.') (hslash : c ≠ '/') : Confined id := by
  intro r t requesting m hroots hresolve hfree
  obtain ⟨habsolute, hne, hnames⟩ := relativePath_names hid hdot hslash
  have hanswer := resolve_eq_iff.mp hresolve
  rw [hnormal] at hanswer
  generalize hrecord : (Except.ok (.resolved m) : Except Failure ModuleRecord) = answer at hanswer
  cases hanswer with
  | ignored | overrideMissing | missing => cases hrecord
  | overridden =>
    cases hrecord
    cases hfree
  | @searched front back root file _ _ roots _ found =>
    cases hrecord
    have hroot : root ∈ r.searchRoots requesting := by
      rw [searchRoots, roots]
      exact List.mem_append_right _ (List.mem_cons_self ..)
    rw [Path.resolve_names (hroots root hroot) habsolute hnames] at found
    have hfolded := Path.folded_is_folded root
    obtain ⟨more, hmore, rfl⟩ := found.below hfolded hne hnames
    exact ⟨root, hroot, (Path.isWithin_iff (hroots root hroot)
      (hfolded.append_names hmore)).mpr (List.prefix_append ..)⟩

/-- A resolver that searches one directory. -/
def only (root : Path) : Resolver where
  sourceRoot := root
  ignore := []
  overrides := .empty
  external := ⟨false, false, [], none⟩
  roots := ⟨false, [], .empty, []⟩

theorem mem_searchRoots_only {q : Path} : q ∈ (only root).searchRoots root ↔ q = root := by
  simp [searchRoots, only]

theorem resolve_only (hnormal : normalizeId id = id)
    (h : t.isFile ⟨(root.resolve (relativePath id)).text ++ ".lua"⟩ = true) :
    ∃ m, (only root).resolve t id root = .ok (.resolved m) ∧
      m.filePath = ⟨(root.resolve (relativePath id)).text ++ ".lua"⟩ ∧
      m.overrideApplied = false := by
  have hfound : ModuleFile t (root.resolve (relativePath id)) _ := .script h
  have hresolve : (only root).resolve t id root = .ok ((only root).record id
      ⟨(root.resolve (relativePath id)).text ++ ".lua"⟩ false none) := by
    rw [resolve_eq_iff, hnormal]
    exact Answers.searched List.not_mem_nil (fun _ hrule => nomatch hrule)
      (List.nil_append _).symm (fun _ hq => nomatch hq) hfound
  exact ⟨_, hresolve, rfl, rfl⟩

/-- The only search root is taken below the file that the identifier leads to. -/
theorem not_confined_of_absolute (hnormal : normalizeId id = id)
    (habsolute : (relativePath id).isAbsolute = true)
    (hnames : ∀ c ∈ (relativePath id).folded, c.IsName) : ¬ Confined id := by
  intro hconfined
  obtain ⟨more, hne, hmore, hscript⟩ := Path.append_lua_names (.inl rfl) hnames
  rw [List.nil_append, List.nil_append] at hscript
  obtain ⟨names, rfl⟩ := FileTree.exists_names hmore
  have hfolded := Folded.of_names hmore
  obtain ⟨root, hroot, hout⟩ := Path.exists_not_isWithin hfolded
  have hresolved : root.resolve (relativePath id) = .ofNames true (relativePath id).folded := by
    rw [Path.resolve, if_pos habsolute, Path.normalize, habsolute]
  let t : FileTree := (⟨[], []⟩ : FileTree).place names (.file (.text ""))
  have hfile : t.isFile ⟨(root.resolve (relativePath id)).text ++ ".lua"⟩ = true := by
    rw [hresolved, hscript]
    exact FileTree.isFile_place [] (by simpa using hne)
      (fun n hn => hmore _ (List.mem_map_of_mem hn)) _
  obtain ⟨m, hm, hpath, hfree⟩ := resolve_only hnormal hfile
  have hroots : ∀ q ∈ (only root).searchRoots root, q.isAbsolute = true := by
    intro q hq
    rw [mem_searchRoots_only.mp hq, hroot]
  obtain ⟨q, hq, hwithin⟩ := hconfined (only root) t root m hroots hm hfree
  rw [mem_searchRoots_only.mp hq, hpath, hresolved, hscript] at hwithin
  exact hout hwithin

/-- An identifier that a scan finds is confined exactly if it begins with neither a dot nor a
slash. -/
theorem confined_iff {source id : List Char} (hid : id ∈ Lua.findRequires source) :
    Confined (String.ofList id) ↔ id.head? ≠ some '.' ∧ id.head? ≠ some '/' := by
  obtain ⟨c, rest, rfl⟩ := List.exists_cons_of_ne_nil (Lua.findRequires_ne_nil hid)
  have hnormal := normalizeId_of_found hid
  have htext : (String.ofList (c :: rest)).toList = c :: rest := String.toList_ofList
  constructor
  · intro hconfined
    by_contra hhead
    simp only [List.head?_cons, ne_eq, Option.some.injEq, not_and_or, not_not] at hhead
    obtain ⟨habsolute, hnames⟩ := relativePath_absolute htext hhead
    exact not_confined_of_absolute hnormal habsolute hnames hconfined
  · rintro ⟨hdot, hslash⟩
    exact confined_of_names hnormal htext (by simpa using hdot) (by simpa using hslash)

/-- One call is confined, and the other leads to wherever its identifier says. -/
theorem dotted_front_escapes : Confined "a.b" ∧ ¬ Confined ".a" := by
  have hcalls : Lua.findRequires "require('a.b') require('.a')".toList =
      [['a', '.', 'b'], ['.', 'a']] := by decide +kernel
  have hinner : ['a', '.', 'b'] ∈ Lua.findRequires "require('a.b') require('.a')".toList := by
    rw [hcalls]
    exact List.mem_cons_self ..
  have houter : ['.', 'a'] ∈ Lua.findRequires "require('a.b') require('.a')".toList := by
    rw [hcalls]
    exact List.mem_cons_of_mem _ (List.mem_cons_self ..)
  exact ⟨(confined_iff hinner).mpr (by decide), fun h => ((confined_iff houter).mp h).1 rfl⟩

end Resolver

end LuaBundle
