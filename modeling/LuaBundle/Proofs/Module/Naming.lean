import LuaBundle.Module.Resolver
import LuaBundle.Lua.Require
import LuaBundle.Proofs.Path.Plain

/-!
# Files and names of resolved modules

Whatever rule leads to a file, its path is plain, and its logical name depends on the file and the
identifier alone: inside the source root on the file, outside it on the identifier.
-/
namespace LuaBundle.Resolver

variable {r : Resolver} {t : FileTree} {id : String} {requesting : Path}

theorem candidates_plain {base file : Path} (hb : base.Plain) (h : file ∈ candidates base) :
    file.Plain := by
  simp only [candidates, List.mem_cons, List.not_mem_nil, or_false] at h
  rcases h with rfl | rfl
  · exact Path.append_lua_plain hb
  · exact Path.join_init_plain hb

theorem probes_plain {file : Path} (h : file ∈ r.probes id requesting) : file.Plain := by
  unfold probes at h
  split at h
  · exact candidates_plain (Path.resolve_plain _ _) h
  · obtain ⟨root, -, h⟩ := List.mem_flatMap.mp h
    exact candidates_plain (Path.resolve_plain _ _) h

/-- The logical name of a file that is required by `id`, which is not empty. -/
def logicalName (r : Resolver) (file : Path) (id : String) : String :=
  ((within? r.sourceRoot file).map fun inside => dotted (Path.toSlash inside)).getD id

/-- The record names its file by the place of the file or, outside the source root, by its
identifier. -/
def Named (r : Resolver) (m : ResolvedModule) : Prop :=
  m.moduleName = r.logicalName m.filePath m.id

theorem deriveName_of_ne_empty {file : Path} (h : id ≠ "") :
    r.deriveName file (some id) = r.logicalName file id := by
  unfold deriveName logicalName
  cases within? r.sourceRoot file with
  | some inside => rfl
  | none => simp [Option.filter, h]

theorem logicalName_inside {file : Path} (h : r.sourceRoot.isWithin file = true) (id id' : String) :
    r.logicalName file id = r.logicalName file id' := by
  simp [logicalName, within?, h]

theorem logicalName_outside {file : Path} (h : r.sourceRoot.isWithin file = false) :
    r.logicalName file id = id := by
  simp [logicalName, within?, h]

theorem record_resolved (r : Resolver) (id : String) (file : Path)
    (overridden : Bool) (rule : Option OverrideRule) :
    ∃ m, r.record id file overridden rule = .resolved m ∧ m.filePath = file ∧ r.Named m ∧
      (id ≠ "" → m.id = id) := by
  refine ⟨_, rfl, rfl, ?_, fun h => if_neg h⟩
  by_cases h : id = ""
  · cases hw : r.sourceRoot.isWithin file with
    | true =>
      simp only [Named, h]
      rw [logicalName_inside hw _ ""]
      unfold deriveName
      simp [logicalName, within?, hw]
    | false => simp [Named, h, logicalName_outside hw]
  · simp only [Named, if_neg h]
    exact deriveName_of_ne_empty h

/-- A successful resolution: the identifier is ignored, or the first probe that is a file is
recorded. -/
theorem resolve_cases {requireId : String} {record : ModuleRecord}
    (h : r.resolve t requireId requesting = .ok record) :
    record = .ignored (normalizeId requireId) ∨
      ∃ m, record = .resolved m ∧ r.Named m ∧ t.isFile m.filePath = true ∧
        m.filePath ∈ r.probes (normalizeId requireId) requesting ∧
        (normalizeId requireId ≠ "" → m.id = normalizeId requireId) := by
  simp only [resolve] at h
  split at h
  · exact .inl (Except.ok.inj h).symm
  · split at h
    · next file hfind =>
      obtain ⟨m, hm, rfl, hnamed, hid⟩ := record_resolved r (normalizeId requireId) file
        ((r.overrides.get? (normalizeId requireId)).bind OverrideRule.path).isSome
        (r.overrides.get? (normalizeId requireId))
      refine .inr ⟨m, ?_, hnamed, List.find?_some hfind, List.mem_of_find?_eq_some hfind, hid⟩
      exact (Except.ok.inj h).symm.trans hm
    · cases h
    · cases h

theorem resolve_plain {requireId : String} {m : ResolvedModule}
    (h : r.resolve t requireId requesting = .ok (.resolved m)) : m.filePath.Plain := by
  rcases resolve_cases h with h | ⟨m', hm, -, -, hprobe, -⟩
  · cases h
  · cases hm
    exact probes_plain hprobe

theorem resolve_named {requireId : String} {m : ResolvedModule}
    (h : r.resolve t requireId requesting = .ok (.resolved m)) : r.Named m := by
  rcases resolve_cases h with h | ⟨m', hm, hnamed, -⟩
  · cases h
  · cases hm
    exact hnamed

/-- Backslashes apart, the spelling of an identifier does not matter. -/
theorem resolve_congr {id id' : String} (h : normalizeId id = normalizeId id') :
    r.resolve t id requesting = r.resolve t id' requesting := by
  simp only [resolve, h]

/-- Two records of one file have one name if the file is inside the source root, and otherwise
exactly if they have one identifier. -/
theorem Named.name_eq_iff {m m' : ResolvedModule} (hm : r.Named m) (hm' : r.Named m')
    (hfile : m.filePath = m'.filePath) :
    m.moduleName = m'.moduleName ↔ r.sourceRoot.isWithin m.filePath = true ∨ m.id = m'.id := by
  rw [hm, hm', ← hfile]
  cases hw : r.sourceRoot.isWithin m.filePath with
  | true => simp [logicalName_inside hw m.id m'.id]
  | false => simp [logicalName_outside hw]

/-! ### Names that tell files apart -/

/-- The file is a script inside the source root with no further dot on the way to it, and not the
`init.lua` of a directory. -/
def Regular (r : Resolver) (file : Path) : Prop :=
  ∃ inside stem, within? r.sourceRoot file = some inside ∧ (∀ c ∈ inside, c.IsName) ∧
    Path.toSlash inside = stem ++ ".lua" ∧ '.' ∉ stem.toList ∧
    ¬ ['/', 'i', 'n', 'i', 't'] <:+ stem.toList

theorem dotted_regular {stem : String} (h : ¬ ['/', 'i', 'n', 'i', 't'] <:+ stem.toList) :
    dotted (stem ++ ".lua") = String.ofList (Text.replace '/' '.' stem.toList) := by
  have hlua : Path.stripLua (stem ++ ".lua") = stem := by
    have : Text.dropSuffix? ['.', 'l', 'u', 'a'] (stem ++ ".lua").toList = some stem.toList :=
      Text.dropSuffix?_eq_some_iff.mpr (by simp)
    rw [Path.stripLua, this]
    simp
  have hinit : Text.dropSuffix? ['/', 'i', 'n', 'i', 't'] stem.toList = none := by
    cases hd : Text.dropSuffix? ['/', 'i', 'n', 'i', 't'] stem.toList with
    | none => rfl
    | some rest => exact absurd ⟨rest, (Text.dropSuffix?_eq_some_iff.mp hd).symm⟩ h
  simp only [dotted, hlua, hinit, Option.getD_none]

theorem replace_inj {a b : List Char} (ha : '.' ∉ a) (hb : '.' ∉ b)
    (h : Text.replace '/' '.' a = Text.replace '/' '.' b) : a = b := by
  induction a generalizing b with
  | nil =>
    cases b with
    | nil => rfl
    | cons d b => cases h
  | cons c a ih =>
    cases b with
    | nil => cases h
    | cons d b =>
      obtain ⟨hc, ha⟩ := not_or.mp fun hm => ha (List.mem_cons.mpr hm)
      obtain ⟨hd, hb⟩ := not_or.mp fun hm => hb (List.mem_cons.mpr hm)
      obtain ⟨hhead, htail⟩ := List.cons.inj h
      rw [ih ha hb htail]
      by_cases hc' : c = '/' <;> by_cases hd' : d = '/' <;> simp_all

theorem within?_eq_some {root file : Path} {inside : List Component}
    (h : within? root file = some inside) :
    file.normalize.components = root.normalize.components ++ inside := by
  unfold within? at h
  split at h
  · next hw =>
    obtain ⟨rest, hrest⟩ := List.isPrefixOf_iff_prefix.mp hw
    rw [← Option.some.inj h, ← hrest, List.drop_left]
  · cases h

/-- No two regular files have one name. -/
theorem Regular.eq_of_name {file file' : Path} (h : r.Regular file) (h' : r.Regular file')
    (hp : file.Plain) (hp' : file'.Plain) {id id' : String}
    (hname : r.logicalName file id = r.logicalName file' id') : file = file' := by
  obtain ⟨inside, stem, hw, hnames, hslash, hdot, hinit⟩ := h
  obtain ⟨inside', stem', hw', hnames', hslash', hdot', hinit'⟩ := h'
  simp only [logicalName, hw, hw', Option.map_some, Option.getD_some, hslash, hslash',
    dotted_regular hinit, dotted_regular hinit'] at hname
  have hstem := replace_inj hdot hdot' (String.ofList_injective hname)
  have hne : Path.toSlash inside ≠ "" := by
    rw [hslash]
    intro he
    have := congrArg (fun s : String => s.toList.length) he
    simp at this
  have hinside := Path.toSlash_inj hnames hnames' hne
    (by rw [hslash, hslash', String.toList_inj.mp hstem])
  refine hp.eq_of_components hp' ?_
  rw [← hp.normalize_eq, ← hp'.normalize_eq, within?_eq_some hw, within?_eq_some hw', hinside]

theorem entryRecord_resolved (working entry : Path) :
    ∃ m, r.entryRecord working entry = .resolved m ∧ m.filePath = working.resolve entry ∧
      r.Named m := by
  obtain ⟨m, hm, hfile, hnamed, -⟩ := record_resolved r
    (r.deriveName (working.resolve entry) none) (working.resolve entry) false none
  exact ⟨m, hm, hfile, hnamed⟩

end LuaBundle.Resolver

namespace LuaBundle

theorem normalizeId_ne_empty {id : List Char} (h : id ≠ []) :
    normalizeId (String.ofList id) ≠ "" := by
  intro he
  have := congrArg String.toList he
  simp [normalizeId, Text.replace, h] at this

end LuaBundle

namespace LuaBundle.Lua

theorem requireCall?_ne_nil {text id rest : List Char} (h : requireCall? text = some (id, rest)) :
    id ≠ [] := by
  simp only [requireCall?, Option.bind_eq_bind, Option.bind_eq_some_iff] at h
  obtain ⟨_, -, _, -, c, -, ⟨i, after⟩, hi, _, -, _, -, heq⟩ := h
  cases heq
  unfold identifier? at hi
  split at hi
  · cases hi
  · cases hi
    simp

/-- A scan finds no empty identifier. -/
theorem findRequires_ne_nil {text id : List Char} (h : id ∈ findRequires text) : id ≠ [] := by
  induction text using findRequires.induct with
  | case1 => simp [findRequires] at h
  | case2 c r id' rest hcall ih =>
    rw [findRequires, hcall] at h
    rcases List.mem_cons.mp h with rfl | h
    · exact requireCall?_ne_nil hcall
    · exact ih h
  | case3 c r hcall ih =>
    rw [findRequires, hcall] at h
    exact ih h

end LuaBundle.Lua
