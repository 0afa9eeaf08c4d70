import LuaBundle.Obfuscation.Pipeline

/-!
# Words of settings

Toggles and tools as they are written in a variable or on a command line: white space around the
word and the case of its letters do not count.
-/
namespace LuaBundle.Config

open Obfuscation (Tool)

/-- A word that a setting has no meaning for, in lower case. -/
inductive WordFault where
  | toggle (word : String)
  | tool (word : String)
  deriving DecidableEq, Repr

def WordFault.message : WordFault → String
  | toggle word => s!"invalid toggle value '{word}'"
  | tool word => s!"unknown obfuscation tool '{word}' (expected 'internal' or 'none')"

/-- Only ASCII letters have their case changed. -/
def plainWord (text : String) : String :=
  String.ofList ((Text.trim text.toList).map Char.toLower)

/-- A toggle that is written down without a value is on. -/
def toggle (text : String) : Except WordFault Bool :=
  let word := plainWord text
  if word ∈ ["", "true", "1", "yes", "on"] then .ok true
  else if word ∈ ["false", "0", "no", "off"] then .ok false
  else .error (.toggle word)

def tool (text : String) : Except WordFault Tool :=
  let word := plainWord text
  if word = "none" then .ok .none
  else if word = "internal" then .ok .internal
  else .error (.tool word)

end LuaBundle.Config
