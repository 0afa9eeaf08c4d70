import LuaBundle.Lua.Printer
import LuaBundle.Obfuscation.Banner
import LuaBundle.Obfuscation.ByteCode
import LuaBundle.Obfuscation.TagReplacement

/-!
# Obfuscation

The stages run in a fixed order: the printer (which also puts in the tags), the replacement of tags,
and the byte codes. A stage runs if its setting is on and the internal tool is chosen.
-/
namespace LuaBundle.Obfuscation

inductive Tool where
  | none
  | internal
  deriving DecidableEq, Repr

structure RenameSettings where
  enabled : Bool
  min : Nat
  max : Nat
  deriving DecidableEq, Repr

structure Settings where
  tool : Tool
  minify : Bool
  rename : RenameSettings
  ascii : Bool
  deriving DecidableEq, Repr

namespace Settings

def minifies (s : Settings) : Bool := s.tool == .internal && s.minify

def renames (s : Settings) : Bool := s.tool == .internal && s.rename.enabled

def encodes (s : Settings) : Bool := s.tool == .internal && s.ascii

def isActive (s : Settings) : Bool := s.minifies || s.renames || s.encodes

end Settings

def formatted (result : Except Lua.FormatFault (List Char)) : Except Failure (List Char) :=
  result.mapError fun f => .format f.message

/-- Print the text, with tags for its variables if they are to be renamed. -/
def reprint (s : Settings) (text : List Char) : Except Failure (List Char) :=
  if s.minifies then formatted (Lua.minify ⟨s.renames, s.renames⟩ text)
  else if s.renames then (formatted (Lua.beautify ⟨true, true⟩ text)).map stripBanner
  else .ok text

def replaceNames (s : Settings) (draws : Draws) (text : List Char) : Except Failure (List Char) :=
  if s.renames then (replaceTags text (.new draws s.rename.min s.rename.max)).1 else .ok text

/-- `chunk` names the text to the loader of its byte codes. -/
def run (s : Settings) (draws : Draws) (text chunk : List Char) : Except Failure (List Char) := do
  let text ← reprint s text
  let text ← replaceNames s draws text
  if s.encodes then pure (encode text chunk) else pure text

end LuaBundle.Obfuscation
