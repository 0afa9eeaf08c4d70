import LuaBundle.Path

/-!
# File trees

A snapshot of directories and files, as a value. A path is followed name by name: everything on the
way has to be a directory. Operations that change the tree give the tree afterwards.
-/
namespace LuaBundle

/-- The names from the root directory on. -/
abbrev Location := List String

inductive Content where
  | text (s : String)
  /-- Bytes that are no UTF-8 text; only their number can be seen. -/
  | binary (size : Nat)
  deriving DecidableEq, Repr

def Content.size : Content → Nat
  | text s => s.utf8ByteSize
  | binary n => n

inductive Entry where
  | file (content : Content)
  | directory
  deriving DecidableEq, Repr

inductive FileFault where
  | notFound
  | exists
  | notDirectory
  | isDirectory
  | notText
  deriving DecidableEq, Repr

def FileFault.message : FileFault → String
  | notFound => "No such file or directory (os error 2)"
  | .exists => "File exists (os error 17)"
  | notDirectory => "Not a directory (os error 20)"
  | isDirectory => "Is a directory (os error 21)"
  | notText => "stream did not contain valid UTF-8"

structure FileTree where
  entries : List (Location × Entry)
  /-- Where relative paths start. -/
  working : Location
  deriving DecidableEq, Repr

namespace FileTree

def directoryPath (l : Location) : Path := ⟨"/" ++ String.intercalate "/" l⟩

def workingPath (t : FileTree) : Path := directoryPath t.working

/-- The root is always there, as a directory. -/
def get? (t : FileTree) (l : Location) : Option Entry :=
  if l = [] then some .directory else t.entries.lookup l

def set (t : FileTree) (l : Location) (e : Entry) : FileTree :=
  { t with entries := (l, e) :: t.entries.filter (·.1 ≠ l) }

def erase (t : FileTree) (l : Location) : FileTree :=
  { t with entries := t.entries.filter (·.1 ≠ l) }

/-- Set an entry and make every location above it a directory. -/
def place (t : FileTree) (l : Location) (e : Entry) : FileTree :=
  ((List.range l.length).foldl (fun t n => t.set (l.take n) .directory) t).set l e

def files (t : FileTree) : List Location :=
  t.entries.filterMap fun (l, e) =>
    match e with
    | .file _ => some l
    | .directory => none

/-- Only a path that is followed from the root directory has a root among its components. -/
def stepTo (l : Location) : Component → Location
  | .root | .here => l
  | .up => l.dropLast
  | .name s => l ++ [s]

/-- Follow components. The last one may lead to nothing. -/
def follow (t : FileTree) (l : Location) : List Component → Except FileFault Location
  | [] => .ok l
  | c :: cs =>
    match t.get? l with
    | some .directory => follow t (stepTo l c) cs
    | some (.file _) => .error .notDirectory
    | none => .error .notFound

def locate (t : FileTree) (p : Path) : Except FileFault Location :=
  if p.text.isEmpty then .error .notFound
  else t.follow (if p.isAbsolute then [] else t.working) p.components

/-- A slash or a dot at the end of a path asks for a directory. -/
def asksDirectory (p : Path) : Bool :=
  p.segments.getLast? == some [] || p.segments.getLast? == some ['.']

def entry (t : FileTree) (p : Path) : Except FileFault Entry := do
  let l ← t.locate p
  match t.get? l with
  | some .directory => pure .directory
  | some (.file c) => if asksDirectory p then throw .notDirectory else pure (.file c)
  | none => throw .notFound

def isFile (t : FileTree) (p : Path) : Bool :=
  match t.entry p with
  | .ok (.file _) => true
  | _ => false

def readText (t : FileTree) (p : Path) : Except FileFault String := do
  match ← t.entry p with
  | .file (.text s) => pure s
  | .file (.binary _) => throw .notText
  | .directory => throw .isDirectory

def directorySize : Nat := 4096

def size? (t : FileTree) (p : Path) : Option Nat :=
  match t.entry p with
  | .ok (.file c) => some c.size
  | .ok .directory => some directorySize
  | .error _ => none

/-- Follow components and create the directories that are missing on the way. A file on the way is
the end of it; what has been created by then stays. -/
def makeWay (t : FileTree) (l : Location) : List Component → FileTree × Option FileFault
  | [] => (t, none)
  | c :: cs =>
    match t.get? (stepTo l c) with
    | some .directory => makeWay t (stepTo l c) cs
    | some (.file _) => (t, some (if cs = [] then .exists else .notDirectory))
    | none => makeWay (t.set (stepTo l c) .directory) (stepTo l c) cs

def createDirectories (t : FileTree) (p : Path) : FileTree × Option FileFault :=
  t.makeWay (if p.isAbsolute then [] else t.working) p.components

def writeText (t : FileTree) (p : Path) (text : String) : Except FileFault FileTree := do
  let l ← t.locate p
  if t.get? l = some .directory ∨ asksDirectory p then throw .isDirectory
  pure (t.set l (.file (.text text)))

end FileTree

end LuaBundle
