/-!
# Failures

Why a run or a part of it fails. A failure to resolve a require can be tolerated; every other
failure ends the run.
-/
namespace LuaBundle

inductive Failure where
  | moduleNotFound (id : String)
  /-- An override names a file that does not exist. -/
  | overrideNotFound (id path : String)
  | circularDependency (path : List String)
  | generationExhausted (attempts : Nat)
  | access (path reason : String)
  | configuration (detail : String)
  | format (detail : String)
  deriving DecidableEq, Repr

namespace Failure

def message : Failure → String
  | moduleNotFound id => s!"Module not found: {id}"
  | overrideNotFound id path => s!"Override path for module '{id}' not found: {path}"
  | circularDependency path =>
    "Circular dependency detected: " ++ String.intercalate " -> " path
  | generationExhausted attempts =>
    s!"Failed to generate a unique identifier after {attempts} attempts"
  | access path reason => s!"Failed to access '{path}': {reason}"
  | configuration detail => s!"Invalid configuration: {detail}"
  | format detail => s!"Formatter failed: {detail}"

def code : Failure → String
  | moduleNotFound _ => "MODULE_NOT_FOUND"
  | overrideNotFound .. => "OVERRIDE_PATH_NOT_FOUND"
  | circularDependency _ => "CIRCULAR_DEPENDENCY"
  | generationExhausted _ => "GENERATION_EXHAUSTED"
  | access .. => "IO_ERROR"
  | configuration _ => "INVALID_CONFIG"
  | format _ => "FORMAT_ERROR"

/-- The failures that the policy on missing modules may tolerate. -/
def isResolution : Failure → Bool
  | moduleNotFound _ | overrideNotFound .. => true
  | _ => false

end Failure

end LuaBundle
