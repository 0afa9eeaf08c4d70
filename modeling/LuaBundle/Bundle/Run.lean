import LuaBundle.Bundle.Assembly

/-!
# Running a bundle

Analysis comes first; only if it succeeds, and the run is more than an analysis, is the bundle
rendered and written. What fails after the analysis is added to its errors.
-/
namespace LuaBundle.Bundle

def chunkName (output : Path) : List Char := (output.stem?.getD "bundle").toList

def render (t : FileTree) (draws : Obfuscation.Draws) (a : Analysis) :
    Except Failure (List Char) := do
  let text ← ofAnalysis t a
  Obfuscation.run a.config.obfuscation draws text (chunkName a.config.output)

/-- Create the directory above a file that is about to be written. Gives the directory with the
fault. -/
def makeParent (t : FileTree) (p : Path) : FileTree × Option (Path × FileFault) :=
  match p.parent? with
  | some parent =>
    if parent.text = "" then (t, none)
    else
      let (t, fault) := t.createDirectories parent
      (t, fault.map fun fault => (parent, fault))
  | none => (t, none)

def write (t : FileTree) (output : Path) (text : String) : FileTree × Option Failure :=
  match makeParent t output with
  | (t, some (parent, fault)) => (t, some (.access parent.text fault.message))
  | (t, none) =>
    match t.writeText output text with
    | .error fault => (t, some (.access output.text fault.message))
    | .ok t => (t, none)

def addError (a : Analysis) (failure : Failure) : Analysis :=
  { a with errors := a.errors ++ [failure] }

/-- The analysis with what came of the bundle, and the files afterwards. -/
def run (t : FileTree) (lookup : String → Option String) (draws : Obfuscation.Draws)
    (config : Config) : Analysis × FileTree :=
  let a := analyze t lookup config
  if !a.success || config.analyzeOnly then (a, t)
  else
    match render t draws a with
    | .error failure => (addError a failure, t)
    | .ok text =>
      match write t config.output (String.ofList text) with
      | (t, some failure) => (addError a failure, t)
      | (t, none) =>
        ({ a with metrics := { a.metrics with bundleSizeBytes := Lua.utf8Size text } }, t)

end LuaBundle.Bundle
