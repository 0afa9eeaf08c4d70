import LuaBundle.CommandLine.Arguments
import LuaBundle.Pattern.Reader

/-!
# Log filters

A filter is a list of directives between commas, each a level, a target, or a level for a target. Of
the directives whose target begins the target of a record, the longest decides. After a slash stands
a pattern that has to occur in the message.
-/
namespace LuaBundle.CommandLine

def LogLevel.rank : LogLevel → Nat
  | off => 0
  | error => 1
  | warn => 2
  | info => 3
  | debug => 4
  | trace => 5

/-- The case of a level's name does not count. -/
def LogLevel.ofName? (name : String) : Option LogLevel :=
  match String.ofList (name.toList.map Char.toLower) with
  | "off" => some off
  | "error" => some error
  | "warn" => some warn
  | "info" => some info
  | "debug" => some debug
  | "trace" => some trace
  | _ => none

structure LogFilter where
  /-- Levels by target. A directive without a target is for all records. -/
  directives : OrderedMap (Option String) LogLevel
  wanted : Option Pattern
  deriving DecidableEq, Repr

namespace LogFilter

/-- A directive that cannot be read is left out. -/
def directive? (text : List Char) : Option (Option String × LogLevel) :=
  match Text.split '=' text with
  | [target] =>
    let target := String.ofList target
    match LogLevel.ofName? target with
    | some level => some (none, level)
    | none => some (some target, .trace)
  | [target, level] =>
    let target := some (String.ofList target)
    let level := Text.trim level
    if level = [] then some (target, .trace)
    else (LogLevel.ofName? (String.ofList level)).map (target, ·)
  | _ => none

def readDirectives (text : List Char) : List (Option String × LogLevel) :=
  (((Text.split ',' text).map Text.trim).filter (· ≠ [])).filterMap directive?

/-- Without any directive, errors are let through. -/
def ofDirectives (found : List (Option String × LogLevel)) : OrderedMap (Option String) LogLevel :=
  if found = [] then .ofList [(none, .error)] else .ofList found

/-- A filter with more than one slash has no directives. A pattern that cannot be read demands
nothing. -/
def parse (text : String) : LogFilter :=
  match Text.split '/' text.toList with
  | [all] => ⟨ofDirectives (readDirectives all), none⟩
  | [all, wanted] => ⟨ofDirectives (readDirectives all), Pattern.read? wanted⟩
  | _ => ⟨ofDirectives [], none⟩

def targetStart (target : Option String) : List Char := (target.map String.toList).getD []

/-- The level for a target, by the longest directive that fits; of two equally long, the later. -/
def levelFor (f : LogFilter) (target : String) : LogLevel :=
  let fitting := f.directives.entries.filter fun (t, _) =>
    (targetStart t).isPrefixOf target.toList
  (fitting.foldl (fun best (t, level) =>
    match best with
    | some (b, _) =>
      if (targetStart b).length ≤ (targetStart t).length then some (t, level) else best
    | none => some (t, level)) (none : Option (Option String × LogLevel))).elim .off Prod.snd

def letsThrough (f : LogFilter) (level : LogLevel) (target message : String) : Bool :=
  level.rank ≤ (f.levelFor target).rank && f.wanted.all (·.occursIn message.toList)

end LogFilter

end LuaBundle.CommandLine
