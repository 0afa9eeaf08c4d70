import LuaBundle.CommandLine.Run

/-!
# The program

Takes up the variables and files that a run looks at, and carries out what comes of the run: the
files that it changes, the texts that it prints, and its exit code.
-/
namespace LuaBundle.Program

def errorIsDirectory : UInt32 := 21

def entryAt (l : Location) : IO (Option Entry) := do
  try
    let bytes ← IO.FS.readBinFile (FileTree.directoryPath l).text
    match String.fromUTF8? bytes with
    | some text => pure (some (.file (.text text)))
    | none => pure (some (.file (.binary bytes.size)))
  catch
    | .inappropriateType _ code _ => pure (if code = errorIsDirectory then some .directory else none)
    | _ => pure none

/-- Take up what is on the disk at a path and above it. -/
def look (t : FileTree) (p : Path) : IO FileTree := do
  let names := (t.workingPath.resolve p).components.foldl FileTree.stepTo []
  let mut t := t
  for n in List.range names.length do
    let l := names.take (n + 1)
    if (t.get? l).isNone then
      match ← entryAt l with
      | some e => t := t.set l e
      | none => return t
  return t

/-- The files that the requires of a file may lead to. -/
def probed (r : Resolver) (t : FileTree) (file : Path) : List Path :=
  match t.readText file with
  | .ok text => (Lua.findRequires text.toList).flatMap fun id =>
    r.probes (normalizeId (String.ofList id)) (file.parent?.getD ⟨""⟩)
  | .error _ => []

/-- Take up files and whatever their requires lead to. -/
partial def lookAll (r : Resolver) (t : FileTree) (seen : List Path) : List Path → IO FileTree
  | [] => pure t
  | p :: rest => do
    if p ∈ seen then lookAll r t seen rest
    else
      let t ← look t p
      lookAll r t (p :: seen) (if t.isFile p then probed r t p ++ rest else rest)

def environment (names : List String) : IO Environment :=
  names.foldlM (fun e name => do return e.put name (← IO.getEnv name)) ⟨[]⟩

/-- The variables and files that a run with the given arguments looks at. -/
def surroundings (arguments : List String) : IO (FileTree × Environment) := do
  let working : Path := ⟨toString (← IO.currentDir)⟩
  let here := working.components.foldl FileTree.stepTo []
  let t := (FileTree.mk [] here).place here .directory
  let e ← environment CommandLine.variableNames
  match CommandLine.parse arguments with
  | .error _ => pure (t, e)
  | .ok a =>
    let t ← ((Config.userFile? e.get?).toList ++ a.config.toList).foldlM look t
    match CommandLine.loadConfig t e.get? a with
    | .error _ => pure (t, e)
    | .ok config =>
      let e ← environment (CommandLine.variableNames ++
        config.modules.external.env.getD [defaultEnvVar])
      let t ← lookAll (Resolver.ofConfig config e.get?) t [] [config.entry]
      pure (← look t config.output, e)

def apply (before after : FileTree) : IO Unit :=
  for (l, e) in after.entries do
    if before.get? l ≠ some e then
      match e with
      | .directory => IO.FS.createDirAll (FileTree.directoryPath l).text
      | .file (.text text) =>
        IO.FS.createDirAll (FileTree.directoryPath l.dropLast).text
        IO.FS.writeFile (FileTree.directoryPath l).text text
      | .file (.binary _) => pure ()

def carryOut (before : FileTree) (out : CommandLine.Outcome) : IO UInt32 := do
  apply before out.files
  IO.print out.output
  if let some notice := out.notice then IO.eprint notice.text
  return out.exitCode.toUInt32

def run (arguments : List String) : IO UInt32 := do
  let (t, e) ← surroundings arguments
  let seed ← IO.rand 0 (UInt32.size - 1)
  let started ← IO.monoNanosNow
  match CommandLine.begin t e.get? (Obfuscation.Draws.seeded (UInt32.ofNat seed)) arguments with
  | .error out => carryOut t out
  | .ok session =>
    let ended ← IO.monoNanosNow
    let duration := Float.ofNat (ended - started) / 1000000.0
    carryOut t (session.finish duration)

end LuaBundle.Program

def main (arguments : List String) : IO UInt32 := LuaBundle.Program.run arguments
