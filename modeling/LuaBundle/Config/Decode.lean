import LuaBundle.Config.Layer
import LuaBundle.Document.Value

/-!
# Layers in documents

A layer is written as a table of named fields. Unknown fields are refused, and so are fields given
twice, under one spelling or two. A null leaves its field open. A table of fields may also be written
as the list of their values in order.
-/
namespace LuaBundle.Config

open Document (Value)
open Obfuscation (Tool)

/-- The formats differ in what may stand for an empty payload, and in whether a list of fields may
be longer than there are fields. -/
inductive Format where
  | json
  | toml
  deriving DecidableEq, Repr

/-- The spellings of each field, in order. -/
abbrev FieldNames := List (List String)

/-- Exactly the values of the fields in order; null where there is none. -/
def fields? (format : Format) (names : FieldNames) : Value → Option (List Value)
  | .list items =>
    if items.length = names.length ∨ format = .toml ∧ names.length ≤ items.length then
      some (items.take names.length)
    else none
  | .table members =>
    let given (spellings : List String) := members.filter (·.1 ∈ spellings)
    if members.all (fun m => names.any (m.1 ∈ ·)) ∧ names.all (fun n => (given n).length ≤ 1) then
      some (names.map fun n => ((given n).head?.map Prod.snd).getD .null)
    else none
  | _ => none

def optional {α : Type} (decode : Value → Option α) : Value → Option (Option α)
  | .null => some none
  | v => (decode v).map some

def bool? : Value → Option Bool
  | .bool b => some b
  | _ => none

def string? : Value → Option String
  | .string s => some s
  | _ => none

def path? (v : Value) : Option Path := (string? v).map Path.mk

/-- An integer of 64 bits. -/
def integer? : Value → Option Int
  | .integer i => if Int64.minValue.toInt ≤ i ∧ i ≤ Int64.maxValue.toInt then some i else none
  | _ => none

def list? {α : Type} (decode : Value → Option α) : Value → Option (List α)
  | .list items => items.mapM decode
  | _ => none

def toolNamed? (name : String) : Option Tool :=
  if name = "none" then some .none else if name = "internal" then some .internal else none

/-- What may stand beside a name that takes no payload. -/
def emptyPayload : Format → Value → Bool
  | .json, .null => true
  | .toml, .list [] | .toml, .table [] => true
  | _, _ => false

/-- A tool is named by a string, or by the only member of a table, without a payload. -/
def tool? (format : Format) : Value → Option Tool
  | .string name => toolNamed? name
  | .table [(name, payload)] => if emptyPayload format payload then toolNamed? name else none
  | _ => none

/-- Renaming in detail is read alike from every format. -/
def renameChoice? : Value → Option RenameChoice
  | .bool enabled => some (.toggle enabled)
  | v => do
    let [enabled, min, max] ← fields? .json [["enabled"], ["min"], ["max"]] v | none
    pure (.detailed (← optional bool? enabled) (← optional integer? min) (← optional integer? max))

def overrideRule? (format : Format) (v : Value) : Option OverrideRule := do
  let [path, recursive] ← fields? format [["path"], ["recursive"]] v | none
  pure ⟨← optional path? path, ← optional bool? recursive⟩

def overrides? (format : Format) : Value → Option (OrderedMap String OverrideRule)
  | .table members => do
    let rules ← members.mapM fun (id, v) => (overrideRule? format v).map fun rule => (id, rule)
    pure (.ofList rules)
  | _ => none

def externalLayer? (format : Format) (v : Value) : Option ExternalLayer := do
  let [enabled, recursive, paths, env] ←
    fields? format [["enabled"], ["recursive"], ["paths"], ["env"]] v | none
  pure ⟨← optional bool? enabled, ← optional bool? recursive, ← optional (list? path?) paths,
    ← optional (list? string?) env⟩

def moduleFields : FieldNames :=
  [["ignore"], ["ignoreMissing", "ignore_missing"], ["overrides"], ["external"]]

def moduleLayer? (format : Format) (v : Value) : Option ModuleLayer := do
  let [ignore, ignoreMissing, overrides, external] ← fields? format moduleFields v | none
  pure ⟨← optional (list? string?) ignore, ← optional bool? ignoreMissing,
    ← optional (overrides? format) overrides, ← optional (externalLayer? format) external⟩

def stageFields : FieldNames :=
  [["minify"], ["renameVariables", "rename_variables"], ["ascii"]]

def stageLayer? (format : Format) (v : Value) : Option StageLayer := do
  let [minify, rename, ascii] ← fields? format stageFields v | none
  pure ⟨← optional bool? minify, ← optional renameChoice? rename, ← optional bool? ascii⟩

def obfuscationLayer? (format : Format) (v : Value) : Option ObfuscationLayer := do
  let [tool, stages] ← fields? format [["tool"], ["config"]] v | none
  pure ⟨← optional (tool? format) tool, ← optional (stageLayer? format) stages⟩

def layerFields : FieldNames :=
  [["$schema"], ["entry"], ["output"], ["sourceRoot", "source_root", "sourceroot"], ["modules"],
    ["obfuscation"]]

/-- The layer that a document denotes. -/
def Layer.ofValue? (format : Format) (v : Value) : Option Layer := do
  let [schema, entry, output, sourceRoot, modules, obfuscation] ← fields? format layerFields v | none
  pure ⟨← optional string? schema, ← optional path? entry, ← optional path? output,
    ← optional path? sourceRoot, ← optional (moduleLayer? format) modules,
    ← optional (obfuscationLayer? format) obfuscation⟩

end LuaBundle.Config
