import LuaBundle.Text.Split

/-!
# Paths

A path keeps the text it was written with; what it leads to depends on its components alone. Double
and trailing slashes and inner dots are not among them.
-/
namespace LuaBundle

inductive Component where
  | root
  /-- A dot at the front of a relative path. -/
  | here
  | up
  | name (text : String)
  deriving DecidableEq, Repr

instance : LawfulBEq (List Component) := inferInstance

namespace Component

def text : Component → String
  | root => "/"
  | here => "."
  | up => ".."
  | name s => s

def ofSegment? : List Char → Option Component
  | [] => none
  | ['.'] => none
  | ['.', '.'] => some up
  | s => some (name (String.ofList s))

end Component

structure Path where
  text : String
  deriving DecidableEq, Repr, Inhabited

namespace Path

def segments (p : Path) : List (List Char) := Text.split '/' p.text.toList

def isAbsolute (p : Path) : Bool := p.text.toList.head? == some '/'

def components (p : Path) : List Component :=
  (if p.isAbsolute then [.root] else if p.segments.head? = some ['.'] then [.here] else []) ++
    p.segments.filterMap Component.ofSegment?

/-- Two paths are the same if they have the same components. -/
def same (p q : Path) : Bool := p.components == q.components

def ofNames (absolute : Bool) (parts : List Component) : Path :=
  ⟨(if absolute then "/" else "") ++ String.intercalate "/" (parts.map Component.text)⟩

/-- Add a component to a folded path, kept innermost first. At the root, and at the front of a
relative path, `..` has nothing to fold and stays; another `..` folds with it. -/
def fold (stack : List Component) : Component → List Component
  | .root | .here => stack
  | .up =>
    match stack with
    | [] => [.up]
    | _ :: rest => rest
  | .name s => .name s :: stack

def folded (p : Path) : List Component := (p.components.foldl fold []).reverse

/-- The path without dots, as far as they fold. No file is looked at. -/
def normalize (p : Path) : Path := ofNames p.isAbsolute p.folded

def join (base p : Path) : Path :=
  if p.isAbsolute then p
  else if base.text.isEmpty || base.text.toList.getLast? == some '/' then ⟨base.text ++ p.text⟩
  else ⟨base.text ++ "/" ++ p.text⟩

/-- Take a path from `base` unless it is absolute. -/
def resolve (base p : Path) : Path :=
  if p.isAbsolute then p.normalize else (base.join p).normalize

def isWithin (root p : Path) : Bool :=
  root.normalize.components.isPrefixOf p.normalize.components

/-- Names only, joined by slashes. -/
def toSlash (parts : List Component) : String :=
  String.intercalate "/" (parts.filterMap fun c =>
    match c with
    | .name s => some s
    | _ => none)

def fileName? (p : Path) : Option String :=
  match p.components.getLast? with
  | some (.name s) => some s
  | _ => none

/-- A file name before and after its last dot. A dot at the front of a name begins no extension. -/
def splitName (name : String) : String × Option String :=
  match (Text.split '.' name.toList).reverse with
  | extension :: stem :: more =>
    let stem := Text.join '.' (stem :: more).reverse
    if stem = [] then (name, none) else (String.ofList stem, some (String.ofList extension))
  | _ => (name, none)

def stem? (p : Path) : Option String := p.fileName?.map fun n => (splitName n).1

def extension? (p : Path) : Option String := p.fileName?.bind fun n => (splitName n).2

/-- Drop empty segments and dots at the end of a path's body; the segments come last first. -/
def dropTrivial : List (List Char) → List (List Char)
  | s :: rest => if s = [] ∨ s = ['.'] then dropTrivial rest else s :: rest
  | [] => []

/-- The text before the last component; the root and the empty path have no parent. -/
def parent? (p : Path) : Option Path :=
  let (front, body) :=
    match p.segments with
    | [] :: first :: rest => (['/'], first :: rest)
    | ['.'] :: rest => (['.'], rest)
    | all => ([], all)
  match dropTrivial body.reverse with
  | [] => if front = ['.'] then some ⟨""⟩ else none
  | _ :: rest =>
    let kept := Text.join '/' (dropTrivial rest).reverse
    some ⟨String.ofList (if front = ['.'] ∧ kept ≠ [] then '.' :: '/' :: kept else front ++ kept)⟩

def stripLua (text : String) : String :=
  match Text.dropSuffix? ['.', 'l', 'u', 'a'] text.toList with
  | some rest => String.ofList rest
  | none => text

/-- `<directory>/<stem>_packed.lua`, the default place of a bundle. -/
def packed (entry : Path) : Path :=
  (entry.parent?.getD ⟨""⟩).join ⟨entry.stem?.getD "bundle" ++ "_packed.lua"⟩

end Path

/-- Identifiers are compared with forward slashes. -/
def normalizeId (id : String) : String := String.ofList (Text.replace '\\' '/' id.toList)

end LuaBundle
