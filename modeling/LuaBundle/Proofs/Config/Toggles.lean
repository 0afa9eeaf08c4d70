import LuaBundle.Proofs.Config.Layering

/-!
# Toggles of stages

A stage of the obfuscation can be switched on directly, above all other layers. Where it runs
already, that changes nothing but one thing: a switch says nothing of lengths, so switching renaming
on takes back the lengths that a lower layer chose.
-/
namespace LuaBundle.Config

open Obfuscation (Settings Tool)

/-! ### Stages as settled -/

/-- What a layer amounts to for obfuscation, read setting by setting. -/
def Layer.settledStages (l : Layer) : Settings :=
  { tool := (Setting.tool.get? l).getD .none
    minify := (Setting.minify.get? l).getD false
    rename := renameSettings (Setting.rename.get? l)
    ascii := (Setting.ascii.get? l).getD false }

theorem settledStages_eq (l : Layer) :
    Layer.obfuscationSettings (l.obfuscation.getD .empty) = l.settledStages := by
  simp only [Layer.obfuscationSettings, Layer.settledStages, Setting.get?, Layer.stages]
  rcases l.obfuscation with _ | ⟨_, _ | ⟨_, _, _⟩⟩ <;> rfl

/-- Layers that differ in nothing but the stages settle to configurations that differ in nothing
else. -/
theorem settle_frame {working : Path} {l l' : Layer} {config : Config}
    (hframe : { l with obfuscation := l'.obfuscation } = l') (h : l.settle working = some config) :
    config.obfuscation = l.settledStages ∧
      l'.settle working = some { config with obfuscation := l'.settledStages } := by
  obtain ⟨entry, hentry, rfl⟩ := Option.map_eq_some_iff.mp h
  refine ⟨settledStages_eq l, ?_⟩
  rw [← settledStages_eq, ← hframe, Layer.settle, hentry]
  rfl

/-! ### Direct settings as the topmost layer -/

/-- A section that is left out, since nothing in it is set, reads like an empty one. -/
theorem DirectSettings.get?_layer (d : DirectSettings) :
    Setting.tool.get? d.layer = d.askedTool ∧ Setting.minify.get? d.layer = d.minify ∧
      Setting.rename.get? d.layer = d.rename.map .toggle ∧
      Setting.ascii.get? d.layer = d.ascii := by
  simp only [Setting.get?, Layer.stages, layer, obfuscationLayer, stageLayer]
  by_cases h : d.hasToggle = true
  · simp [h]
  · have hopen : (d.minify = none ∧ d.rename = none) ∧ d.ascii = none := by
      simpa [hasToggle] using h
    obtain ⟨⟨hminify, hrename⟩, hascii⟩ := hopen
    cases d.askedTool <;> simp [h, hminify, hrename, hascii]

/-- The stages as settled with direct settings on top of a layer. -/
def stagesAbove (under : Layer) (d : DirectSettings) : Settings :=
  { tool := (d.askedTool.or (Setting.tool.get? under)).getD .none
    minify := (d.minify.or (Setting.minify.get? under)).getD false
    rename := renameSettings ((d.rename.map .toggle).or (Setting.rename.get? under))
    ascii := (d.ascii.or (Setting.ascii.get? under)).getD false }

theorem settledStages_above (under : Layer) (directory : Path) (d : DirectSettings) :
    (under.merge (d.layer.resolvePaths directory)).settledStages = stagesAbove under d := by
  obtain ⟨htool, hminify, hrename, hascii⟩ := d.get?_layer
  simp only [Layer.settledStages, Setting.get?_merge]
  rw [stagesAbove, ← htool, ← hminify, ← hrename, ← hascii]
  rfl

/-! ### Loading -/

variable {t : FileTree} {lookup : String → Option String} {s : Sources} {d : DirectSettings}

/-- The layers below direct settings, which decide among them only on a file. -/
def layersBelow (t : FileTree) (lookup : String → Option String) (s : Sources)
    (file : Option Path) : Except LoadFault (List Layer) := do
  let user ← s.userFile.mapM (readLayer t)
  let project ← file.mapM fun file => readLayer t (s.directory.resolve file)
  let environment ← if s.readsEnvironment then (environmentLayer lookup).map some else pure none
  pure (user.toList ++ project.toList ++ environment.toList.map (Layer.resolvePaths s.directory))

theorem layers_eq : layers t lookup s d =
    (layersBelow t lookup s d.file).map (· ++ [d.layer.resolvePaths s.directory]) := by
  rw [layers, layersBelow]
  cases s.userFile.mapM (readLayer t) with
  | error => rfl
  | ok user =>
    cases d.file.mapM fun file => readLayer t (s.directory.resolve file) with
    | error => rfl
    | ok project =>
      cases s.readsEnvironment with
      | false => exact congrArg Except.ok (by simp)
      | true =>
        cases environmentLayer lookup with
        | error => rfl
        | ok environment => exact congrArg Except.ok (by simp)

theorem load_eq_ok_iff {config : Config} : load t lookup s d = .ok config ↔
    ∃ below, layersBelow t lookup s d.file = .ok below ∧
      ((mergeAll below).merge (d.layer.resolvePaths s.directory)).settle t.workingPath =
        some config := by
  have hmerge (below : List Layer) : mergeAll (below ++ [d.layer.resolvePaths s.directory]) =
      (mergeAll below).merge (d.layer.resolvePaths s.directory) := by
    rw [mergeAll_append, mergeAll_singleton]
  rw [load, layers_eq]
  cases layersBelow t lookup s d.file with
  | error => simp [Except.map, bind, Except.bind]
  | ok below =>
    simp only [Except.map, bind, Except.bind, hmerge, Except.ok.injEq, exists_eq_left']
    split
    · next h => simp [h, pure, Except.pure]
    · next h => simp [h]

theorem settings_ext {a b : Settings} (htool : a.tool = b.tool) (hminify : a.minify = b.minify)
    (hrename : a.rename = b.rename) (hascii : a.ascii = b.ascii) : a = b := by
  cases a
  cases b
  simp_all

inductive Toggle where
  | minify
  | rename
  | ascii
  deriving DecidableEq, Repr

namespace Toggle

def switchOn (d : DirectSettings) : Toggle → DirectSettings
  | minify => { d with minify := some true }
  | rename => { d with rename := some true }
  | ascii => { d with ascii := some true }

/-- The stage runs: it is on, and the tool is the internal one. -/
def runs (settings : Settings) : Toggle → Bool
  | minify => settings.minifies
  | rename => settings.renames
  | ascii => settings.encodes

/-- What is left of settings under which the stage runs, once it is switched on. -/
def switched (settings : Settings) : Toggle → Settings
  | minify | ascii => settings
  | rename => { settings with rename := { defaultRename with enabled := true } }

theorem file_switchOn (g : Toggle) : (g.switchOn d).file = d.file := by cases g <;> rfl

theorem askedTool_switchOn (g : Toggle) :
    (g.switchOn d).askedTool = d.tool.or (some .internal) := by
  cases g <;> simp [switchOn, DirectSettings.askedTool, DirectSettings.hasToggle]

/-- Where the tool is the internal one, a further toggle asks for no other. -/
theorem tool_switchOn {under : Option Tool} (g : Toggle)
    (h : (d.askedTool.or under).getD .none = .internal) :
    ((g.switchOn d).askedTool.or under).getD .none = .internal := by
  rw [askedTool_switchOn]
  rw [DirectSettings.askedTool] at h
  cases htool : d.tool with
  | none => rfl
  | some tool =>
    rw [htool] at h
    exact h

/-- A stage that runs, once it is switched on, with the tool and the other stages kept. -/
theorem stagesAbove_switchOn {under : Layer} (g : Toggle)
    (hruns : g.runs (stagesAbove under d) = true) :
    stagesAbove under (g.switchOn d) = g.switched (stagesAbove under d) := by
  have htool : (stagesAbove under d).tool = .internal := by
    cases g <;> exact eq_of_beq (Bool.and_eq_true_iff.mp hruns).1
  have hkept : (stagesAbove under (g.switchOn d)).tool = (stagesAbove under d).tool :=
    (tool_switchOn g htool).trans htool.symm
  cases g with
  | minify =>
    have hon : (stagesAbove under d).minify = true := (Bool.and_eq_true_iff.mp hruns).2
    exact settings_ext hkept hon.symm rfl rfl
  -- The switch hides the whole choice below, the one that had renaming on included.
  | rename => exact settings_ext hkept rfl rfl rfl
  | ascii =>
    have hon : (stagesAbove under d).ascii = true := (Bool.and_eq_true_iff.mp hruns).2
    exact settings_ext hkept rfl rfl hon.symm

theorem switched_eq_iff (g : Toggle) {settings : Settings} (hruns : g.runs settings = true) :
    g.switched settings = settings ↔ (g = .rename →
      settings.rename.min = defaultRename.min ∧ settings.rename.max = defaultRename.max) := by
  cases g with
  | minify | ascii => simp [switched]
  | rename =>
    have hon : settings.rename.enabled = true := (Bool.and_eq_true_iff.mp hruns).2
    constructor
    · intro h _
      rw [← h]
      exact ⟨rfl, rfl⟩
    · intro h
      obtain ⟨hmin, hmax⟩ := h rfl
      refine settings_ext rfl rfl ?_ rfl
      show (⟨true, defaultRename.min, defaultRename.max⟩ : Obfuscation.RenameSettings) = _
      rw [← hon, ← hmin, ← hmax]

/-- Switching on a stage that runs, whether its toggle was given or not, changes at most the lengths
for renaming. -/
theorem load_switchOn {config : Config} (g : Toggle) (hload : load t lookup s d = .ok config)
    (hruns : g.runs config.obfuscation = true) :
    load t lookup s (g.switchOn d) =
        .ok { config with obfuscation := g.switched config.obfuscation } ∧
      (load t lookup s (g.switchOn d) = .ok config ↔ (g = .rename →
        config.obfuscation.rename.min = defaultRename.min ∧
          config.obfuscation.rename.max = defaultRename.max)) := by
  obtain ⟨below, hbelow, hsettle⟩ := load_eq_ok_iff.mp hload
  have hframe : { (mergeAll below).merge (d.layer.resolvePaths s.directory) with
      obfuscation :=
        ((mergeAll below).merge ((g.switchOn d).layer.resolvePaths s.directory)).obfuscation } =
      (mergeAll below).merge ((g.switchOn d).layer.resolvePaths s.directory) := by
    cases g <;> rfl
  obtain ⟨hstages, hsettle'⟩ := settle_frame hframe hsettle
  rw [settledStages_above] at hstages hsettle'
  rw [hstages] at hruns
  rw [stagesAbove_switchOn g hruns, ← hstages] at hsettle'
  have hload' := load_eq_ok_iff.mpr ⟨below, (g.file_switchOn (d := d)).symm ▸ hbelow, hsettle'⟩
  refine ⟨hload', ?_⟩
  rw [hload', ← switched_eq_iff g (hstages ▸ hruns), Except.ok.injEq]
  constructor
  · intro h
    exact congrArg Config.obfuscation h
  · intro h
    rw [h]

def longNamesText : String :=
  "\x7b\"entry\": \"main.lua\", \"obfuscation\": \x7b\"tool\": \"internal\", \"config\": " ++
    "\x7b\"minify\": true, \"renameVariables\": " ++
      "\x7b\"enabled\": true, \"min\": 8, \"max\": 12\x7d\x7d\x7d\x7d"

/-- A project that is minified and whose variables get names of eight letters or more. -/
def longNames : FileTree := ⟨[(["project.json"], .file (.text longNamesText))], []⟩

def fromProject : DirectSettings := { DirectSettings.empty with file := some ⟨"project.json"⟩ }

def longNamesConfig : Config :=
  { Config.forEntry ⟨"/"⟩ ⟨"main.lua"⟩ with
    obfuscation := ⟨.internal, true, ⟨true, 8, 12⟩, false⟩ }

theorem load_minify_again :
    load longNames (fun _ => none) (.isolated ⟨"/"⟩) fromProject = .ok longNamesConfig ∧
      Toggle.minify.runs longNamesConfig.obfuscation = true ∧
      load longNames (fun _ => none) (.isolated ⟨"/"⟩) (Toggle.minify.switchOn fromProject) =
        .ok longNamesConfig := by
  have hload : load longNames (fun _ => none) (.isolated ⟨"/"⟩) fromProject =
    .ok longNamesConfig := by decide +kernel
  have hruns : Toggle.minify.runs longNamesConfig.obfuscation = true := rfl
  exact ⟨hload, hruns, (load_switchOn .minify hload hruns).1⟩

/-- Renaming is on with lengths of its own, no toggle is given, and switching it on changes the
configuration. -/
theorem lengths_taken_back :
    load longNames (fun _ => none) (.isolated ⟨"/"⟩) fromProject = .ok longNamesConfig ∧
      fromProject.rename = none ∧ Toggle.rename.runs longNamesConfig.obfuscation = true ∧
      load longNames (fun _ => none) (.isolated ⟨"/"⟩) (Toggle.rename.switchOn fromProject) =
        .ok { longNamesConfig with obfuscation := ⟨.internal, true, ⟨true, 5, 5⟩, false⟩ } ∧
      load longNames (fun _ => none) (.isolated ⟨"/"⟩) (Toggle.rename.switchOn fromProject) ≠
        .ok longNamesConfig := by
  decide +kernel

end Toggle

end LuaBundle.Config
