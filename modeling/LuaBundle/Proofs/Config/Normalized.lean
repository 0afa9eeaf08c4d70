import LuaBundle.Proofs.Config.Layering
import LuaBundle.Proofs.Path.Rooted
import Mathlib.Data.List.DropRight

/-!
# Normalized configurations

Once its paths are taken from an absolute directory, a layer settles to a configuration in which
nothing is left to be normalized: whichever settings the layer makes, and wherever it is settled.
-/
namespace LuaBundle

/-! ### Texts -/

/-- Nothing is left to be trimmed in front, since trimming at the end keeps the first character. -/
theorem Text.trim_trim (text : List Char) : trim (trim text) = trim text := by
  have hstart : trim text <+: text.dropWhile isBlank := List.rdropWhile_prefix ..
  have hfront : (trim text).dropWhile isBlank = trim text := by
    rw [List.dropWhile_eq_self_iff]
    intro hlength
    rw [hstart.getElem hlength]
    exact fun hblank => List.dropWhile_get_zero_not _ _ _ hblank
  rw [trim, hfront]
  exact List.rdropWhile_idempotent ..

theorem mem_normalizeEnvNames {names : List String} {n : String} (h : n ∈ normalizeEnvNames names) :
    n ≠ "" ∧ Text.trim n.toList = n.toList := by
  obtain ⟨hmem, hne⟩ := List.mem_filter.mp h
  obtain ⟨raw, -, rfl⟩ := List.mem_map.mp hmem
  exact ⟨of_decide_eq_true hne, by rw [String.toList_ofList, Text.trim_trim]⟩

theorem not_mem_normalizeId (id : String) : '\\' ∉ (normalizeId id).toList := by
  rw [normalizeId, String.toList_ofList, Text.replace, List.mem_map]
  rintro ⟨c, -, hc⟩
  split at hc
  · cases hc
  · contradiction

namespace Config

structure Normalized (c : Config) : Prop where
  entry : c.entry.Clean
  output : c.output.Clean
  sourceRoot : c.sourceRoot.Clean
  paths : ∀ p ∈ c.modules.external.paths, p.Clean
  ids : ∀ id ∈ c.modules.overrides.keys, '\\' ∉ id.toList
  env : ∀ names, c.modules.external.env = some names → ∀ n ∈ names,
    n ≠ "" ∧ Text.trim n.toList = n.toList
  lengths : 1 ≤ c.obfuscation.rename.min ∧ c.obfuscation.rename.min ≤ c.obfuscation.rename.max

/-! ### Paths of layers -/

namespace Layer

/-- The paths that a layer sets; those of overrides are not resolved with it. -/
def paths (l : Layer) : List Path :=
  l.entry.toList ++ l.output.toList ++ l.sourceRoot.toList ++
    (Setting.externalPaths.get? l).getD []

theorem paths_resolvePaths (directory : Path) (l : Layer) :
    (l.resolvePaths directory).paths = l.paths.map directory.resolve := by
  have hexternal : (Setting.externalPaths.get? (l.resolvePaths directory)).getD [] =
      ((Setting.externalPaths.get? l).getD []).map directory.resolve := by
    obtain ⟨_, _, _, _, modules, _⟩ := l
    rcases modules with _ | ⟨_, _, _, _ | ⟨_, _, _ | paths, _⟩⟩ <;> rfl
  rw [paths, hexternal, paths]
  simp only [resolvePaths, List.map_append, Option.toList_map]

theorem resolvePaths_resolvePaths {directory : Path} (hdirectory : directory.isAbsolute = true)
    (second : Path) (l : Layer) :
    (l.resolvePaths directory).resolvePaths second = l.resolvePaths directory := by
  have hresolve (p : Path) : second.resolve (directory.resolve p) = directory.resolve p :=
    Path.resolve_resolve hdirectory second p
  simp only [resolvePaths, ModuleLayer.resolvePaths, ExternalLayer.resolvePaths, Option.map_map,
    List.map_map, Function.comp_def, hresolve]

theorem rooted_getD {chosen : Option Path} {default : Path} (h : ∀ p, chosen = some p → p.Rooted)
    (hdefault : default.Rooted) (working : Path) :
    ((chosen.map working.resolve).getD default).Rooted := by
  cases chosen with
  | none => exact hdefault
  | some p =>
    rw [Option.map_some, Option.getD_some, (h p rfl).resolve_eq]
    exact h p rfl

theorem exists_of_mem_overrides {sourceRoot : Path} {l : ModuleLayer} {id : String}
    (h : id ∈ (moduleSettings sourceRoot l).overrides.keys) : ∃ raw, id = normalizeId raw := by
  rw [moduleSettings, OrderedMap.keys_ofList, List.mem_eraseDups, List.map_map] at h
  obtain ⟨rule, -, rfl⟩ := List.mem_map.mp h
  exact ⟨_, rfl⟩

/-- However much a layer leaves open, the defaults are as normalized as what it sets. -/
theorem exists_settle_normalized {l : Layer} {entry : Path} (hentry : l.entry = some entry)
    (hroot : entry ≠ ⟨"/"⟩) (hrooted : ∀ p ∈ l.paths, p.Rooted) (working : Path) :
    ∃ config, l.settle working = some config ∧ config.Normalized := by
  have hstart : entry.Rooted := hrooted entry (by simp [paths, hentry])
  obtain ⟨⟨parent, hparent, hbeside⟩, hpacked⟩ := hstart.beside hroot
  have houtput : ((l.output.map working.resolve).getD entry.packed).Rooted :=
    rooted_getD (fun p hp => hrooted p (by simp [paths, hp])) hpacked working
  have hsource : ((l.sourceRoot.map working.resolve).getD (entry.parent?.getD ⟨""⟩)).Rooted :=
    rooted_getD (fun p hp => hrooted p (by simp [paths, hp])) (hparent ▸ hbeside) working
  have hpaths : ∀ p ∈ ((l.modules.getD .empty).external.getD .empty).paths.getD [], p.Rooted := by
    intro p hp
    refine hrooted p (List.mem_append_right _ ?_)
    obtain ⟨_, _, _, _, modules, _⟩ := l
    rcases modules with _ | ⟨_, _, _, _ | ⟨_, _, _ | paths, _⟩⟩ <;> exact hp
  refine ⟨_, by rw [settle, hentry]; rfl, ?_⟩
  dsimp only
  rw [hstart.resolve_eq working]
  exact
    { entry := hstart.clean
      output := houtput.clean
      sourceRoot := hsource.clean
      paths := by
        intro p hp
        obtain ⟨q, hq, rfl⟩ := List.mem_map.mp hp
        rw [(hpaths q hq).resolve_eq]
        exact (hpaths q hq).clean
      ids := by
        intro id hid
        obtain ⟨raw, rfl⟩ := exists_of_mem_overrides hid
        exact not_mem_normalizeId raw
      env := by
        intro names henv n hn
        obtain ⟨raw, -, rfl⟩ := Option.map_eq_some_iff.mp henv
        exact mem_normalizeEnvNames hn
      lengths := ⟨one_le_renameSettings_min _, renameSettings_min_le_max _⟩ }

/-- The directory a layer belongs to is absolute and its paths stay below the root. Then it settles
to a normalized configuration, and taking its paths once more from elsewhere changes nothing. -/
theorem settle_resolved_normalized {file : Layer} {entry directory : Path}
    (hdirectory : directory.isAbsolute = true) (hentry : file.entry = some entry)
    (hroot : directory.resolve entry ≠ ⟨"/"⟩)
    (hbelow : ∀ p ∈ file.paths, climb (directory.join p).components = 0) (working : Path) :
    ∃ config, (file.resolvePaths directory).settle working = some config ∧ config.Normalized ∧
      ∀ second : Path,
        ((file.resolvePaths directory).resolvePaths second).settle working = some config := by
  have hrooted : ∀ p ∈ (file.resolvePaths directory).paths, p.Rooted := by
    rw [paths_resolvePaths]
    intro p hp
    obtain ⟨q, hq, rfl⟩ := List.mem_map.mp hp
    exact Path.rooted_resolve hdirectory (hbelow q hq)
  have hresolved : (file.resolvePaths directory).entry = some (directory.resolve entry) := by
    rw [resolvePaths, hentry]
    rfl
  obtain ⟨config, hsettle, hnormalized⟩ :=
    exists_settle_normalized hresolved hroot hrooted working
  refine ⟨config, hsettle, hnormalized, fun second => ?_⟩
  rw [resolvePaths_resolvePaths hdirectory, hsettle]

/-- A file with something to normalize in every place. -/
def untidyFile : Layer :=
  { Layer.empty with
    entry := some ⟨"./src//main.lua"⟩
    sourceRoot := some ⟨"../library/."⟩
    modules := some
      { ModuleLayer.empty with
        overrides := some (.ofList [("net\\http", ⟨some ⟨"http.lua"⟩, none⟩)])
        external := some ⟨some true, none, some [⟨"vendor/../packages"⟩, ⟨"/usr/./share"⟩],
          some [" LUA_PATH ", "\t"]⟩ }
    obfuscation := some ⟨none, some ⟨none, some (.detailed none (some (-3)) (some 0)), none⟩⟩ }

theorem settle_untidyFile :
    (∀ p ∈ untidyFile.paths, climb ((⟨"/home/project"⟩ : Path).join p).components = 0) ∧
      ∃ config, (untidyFile.resolvePaths ⟨"/home/project"⟩).settle ⟨"/"⟩ = some config ∧
        config.Normalized ∧ ∀ second : Path,
          ((untidyFile.resolvePaths ⟨"/home/project"⟩).resolvePaths second).settle ⟨"/"⟩ =
            some config := by
  have hbelow : ∀ p ∈ untidyFile.paths,
    climb ((⟨"/home/project"⟩ : Path).join p).components = 0 := by decide +kernel
  exact ⟨hbelow, settle_resolved_normalized (by decide) rfl (by decide +kernel) hbelow ⟨"/"⟩⟩

end Layer

end Config

end LuaBundle
