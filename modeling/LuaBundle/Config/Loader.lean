import LuaBundle.Config.Decode
import LuaBundle.Config.Toggle
import LuaBundle.Document.Json
import LuaBundle.Document.Toml
import LuaBundle.Environment
import LuaBundle.FileTree

/-!
# Loading a configuration

From the lowest layer to the highest: the user's file, the file that is named directly, environment
variables, and what is set directly. Relative paths in a file start from its directory.
-/
namespace LuaBundle.Config

open Obfuscation (Tool)

/-- Settings given directly, on a command line for instance. -/
structure DirectSettings where
  entry : Option Path
  output : Option Path
  sourceRoot : Option Path
  file : Option Path
  minify : Option Bool
  rename : Option Bool
  ascii : Option Bool
  tool : Option Tool
  ignoreMissing : Option Bool
  env : Option (List String)
  deriving DecidableEq, Repr

namespace DirectSettings

def empty : DirectSettings := ⟨none, none, none, none, none, none, none, none, none, none⟩

def hasToggle (d : DirectSettings) : Bool := d.minify.isSome || d.rename.isSome || d.ascii.isSome

/-- A toggle asks for the internal tool, unless a tool is named as well. -/
def askedTool (d : DirectSettings) : Option Tool :=
  d.tool.or (if d.hasToggle then some .internal else none)

def stageLayer (d : DirectSettings) : Option StageLayer :=
  if d.hasToggle then some ⟨d.minify, d.rename.map .toggle, d.ascii⟩ else none

def obfuscationLayer (d : DirectSettings) : Option ObfuscationLayer :=
  if d.askedTool.isSome || d.hasToggle then some ⟨d.askedTool, d.stageLayer⟩ else none

def moduleLayer (d : DirectSettings) : Option ModuleLayer :=
  if d.ignoreMissing.isSome || d.env.isSome then
    some { ModuleLayer.empty with
      ignoreMissing := d.ignoreMissing
      external := d.env.map fun env => { ExternalLayer.empty with env := some env } }
  else none

/-- Sections are written only where something in them is set. -/
def layer (d : DirectSettings) : Layer :=
  { Layer.empty with
    entry := d.entry
    output := d.output
    sourceRoot := d.sourceRoot
    modules := d.moduleLayer
    obfuscation := d.obfuscationLayer }

end DirectSettings

inductive LoadFault where
  | unreadable (file : Path) (fault : FileFault)
  | malformed (file : Path)
  | badVariable (name : String) (fault : WordFault)
  | noEntry
  deriving DecidableEq, Repr

namespace LoadFault

/-- The failure at the bottom, unless it is one of the file system. -/
def failure? : LoadFault → Option Failure
  | unreadable .. => none
  | malformed _ => some (.configuration "the document has not the form of a configuration")
  | badVariable _ fault => some (.configuration fault.message)
  | noEntry => some Config.noEntry

/-- The messages from the outermost context to the bottom. -/
def messages : LoadFault → List String
  | unreadable file fault => [s!"Config file not found at {file.text}", fault.message]
  | malformed file =>
    s!"Failed to read config file '{file.text}'" ::
      ((malformed file).failure?.map Failure.message).toList
  | badVariable name fault =>
    s!"Invalid {name}" :: ((badVariable name fault).failure?.map Failure.message).toList
  | noEntry => [Config.noEntry.message]

def message (f : LoadFault) : String := String.intercalate ": " f.messages

end LoadFault

def formatOf (file : Path) : Format := if file.extension? = some "toml" then .toml else .json

def readDocument? : Format → String → Option Document.Value
  | .json, text => Document.Json.read? text
  | .toml, text => Document.Toml.read? text

def Layer.ofText? (format : Format) (text : String) : Option Layer :=
  (readDocument? format text).bind (Layer.ofValue? format)

def readLayer (t : FileTree) (file : Path) : Except LoadFault Layer :=
  match t.readText file with
  | .error fault => .error (.unreadable file fault)
  | .ok text =>
    match Layer.ofText? (formatOf file) text with
    | some l => .ok (l.resolvePaths (file.parent?.getD ⟨""⟩))
    | none => .error (.malformed file)

/-- A variable with nothing but white space counts as not set. -/
def variableValue? (lookup : String → Option String) (name : String) : Option String :=
  (lookup name).filter fun v => !(Text.trim v.toList).isEmpty

def environmentLayer (lookup : String → Option String) : Except LoadFault Layer := do
  let ignoreMissing ← (variableValue? lookup "LUAPACK_IGNORE_MISSING").mapM fun v =>
    (toggle v).mapError (.badVariable "LUAPACK_IGNORE_MISSING")
  pure { Layer.empty with
    entry := (variableValue? lookup "LUAPACK_ENTRY").map Path.mk
    output := (variableValue? lookup "LUAPACK_OUTPUT").map Path.mk
    sourceRoot := (variableValue? lookup "LUAPACK_SOURCE_ROOT").map Path.mk
    modules := ignoreMissing.map fun on => { ModuleLayer.empty with ignoreMissing := some on } }

/-- The directory for the configurations of programs. A relative one is not taken from its own
variable. -/
def configHome? (lookup : String → Option String) : Option Path :=
  match ((lookup "XDG_CONFIG_HOME").map Path.mk).filter Path.isAbsolute with
  | some p => some p
  | none => (lookup "HOME").map fun home => Path.join ⟨home⟩ ⟨".config"⟩

def userFile? (lookup : String → Option String) : Option Path :=
  (configHome? lookup).map fun home => (home.join ⟨"luapack"⟩).join ⟨"luapack.toml"⟩

/-- Where layers come from, besides what is set directly. -/
structure Sources where
  userFile : Option Path
  readsEnvironment : Bool
  /-- Where paths in variables and direct settings start from. -/
  directory : Path
  deriving DecidableEq, Repr

/-- Nothing but the file that is named directly. -/
def Sources.isolated (directory : Path) : Sources := ⟨none, false, directory⟩

/-- The user's file, if it is there, and the environment. -/
def Sources.standard (t : FileTree) (lookup : String → Option String) : Sources :=
  ⟨(userFile? lookup).filter t.isFile, true, t.workingPath⟩

/-- All layers, the lowest first. -/
def layers (t : FileTree) (lookup : String → Option String) (s : Sources) (d : DirectSettings) :
    Except LoadFault (List Layer) := do
  let user ← s.userFile.mapM (readLayer t)
  let project ← d.file.mapM fun file => readLayer t (s.directory.resolve file)
  let environment ← if s.readsEnvironment then (environmentLayer lookup).map some else pure none
  pure (user.toList ++ project.toList ++
    (environment.toList ++ [d.layer]).map (Layer.resolvePaths s.directory))

def mergeAll (all : List Layer) : Layer := all.foldl Layer.merge .empty

def load (t : FileTree) (lookup : String → Option String) (s : Sources) (d : DirectSettings) :
    Except LoadFault Config := do
  match (mergeAll (← layers t lookup s d)).settle t.workingPath with
  | some config => pure config
  | none => throw .noEntry

end LuaBundle.Config
