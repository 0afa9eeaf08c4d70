import LuaBundle.Config.Loader

/-!
# Arguments

Arguments are read one after the other, and the first that does not fit, or that asks for help or
for the version, ends the reading. No option is given twice. After `--` everything is positional.
-/
namespace LuaBundle.CommandLine

inductive LogLevel where
  | off
  | error
  | warn
  | info
  | debug
  | trace
  deriving DecidableEq, Repr

inductive Switch where
  | analyze
  | ignoreMissing
  | verbose
  | json
  deriving DecidableEq, Repr

/-- Switches that may be given a value after an equals sign. -/
inductive Toggle where
  | minify
  | renameVariables
  | ascii
  deriving DecidableEq, Repr

inductive Parameter where
  | output
  | config
  | sourceRoot
  | obfuscation
  | env
  | logLevel
  deriving DecidableEq, Repr

inductive Flag where
  | switch (s : Switch)
  | toggle (t : Toggle)
  | parameter (p : Parameter)
  | help
  | version
  deriving DecidableEq, Repr

def Flag.ofName? (name : String) : Option Flag :=
  match name with
  | "analyze" => some (.switch .analyze)
  | "ignore-missing" => some (.switch .ignoreMissing)
  | "verbose" => some (.switch .verbose)
  | "json" => some (.switch .json)
  | "minify" => some (.toggle .minify)
  | "rename-variables" => some (.toggle .renameVariables)
  | "ascii" => some (.toggle .ascii)
  | "output" => some (.parameter .output)
  | "config" => some (.parameter .config)
  | "sourceroot" | "source-root" => some (.parameter .sourceRoot)
  | "obfuscation" => some (.parameter .obfuscation)
  | "env" => some (.parameter .env)
  | "log-level" => some (.parameter .logLevel)
  | "help" => some .help
  | "version" => some .version
  | _ => none

def Flag.ofLetter? : Char → Option Flag
  | 'v' => some (.switch .verbose)
  | 'o' => some (.parameter .output)
  | 'c' => some (.parameter .config)
  | 'h' => some .help
  | 'V' => some .version
  | _ => none

def Switch.title : Switch → String
  | analyze => "--analyze"
  | ignoreMissing => "--ignore-missing"
  | verbose => "--verbose"
  | json => "--json"

def Toggle.title : Toggle → String
  | minify => "--minify"
  | renameVariables => "--rename-variables"
  | ascii => "--ascii"

def Parameter.title : Parameter → String
  | output => "--output"
  | config => "--config"
  | sourceRoot => "--sourceroot"
  | obfuscation => "--obfuscation"
  | env => "--env"
  | logLevel => "--log-level"

structure Arguments where
  entry : Option Path
  output : Option Path
  config : Option Path
  sourceRoot : Option Path
  minify : Option Bool
  renameVariables : Option Bool
  ascii : Option Bool
  tool : Option Obfuscation.Tool
  env : Option String
  logLevel : Option LogLevel
  analyze : Bool
  ignoreMissing : Bool
  verbose : Bool
  json : Bool
  deriving DecidableEq, Repr

inductive UsageFault where
  | unknown (argument : String)
  | valueMissing (title : String)
  | valueUnneeded (title : String)
  | valueInvalid (title value : String)
  | repeated (title : String)
  deriving DecidableEq, Repr

def UsageFault.message : UsageFault → String
  | unknown argument => s!"unexpected argument '{argument}' found"
  | valueMissing title => s!"a value is required for '{title}'"
  | valueUnneeded title => s!"'{title}' takes no value"
  | valueInvalid title value => s!"invalid value '{value}' for '{title}'"
  | repeated title => s!"the argument '{title}' cannot be used multiple times"

/-- What ends the reading early. -/
inductive Stop where
  | usage (f : UsageFault)
  | help
  | version
  deriving DecidableEq, Repr

namespace Arguments

def empty : Arguments :=
  { entry := none, output := none, config := none, sourceRoot := none, minify := none,
    renameVariables := none, ascii := none, tool := none, env := none, logLevel := none,
    analyze := false, ignoreMissing := false, verbose := false, json := false }

def switchedOn (a : Arguments) : Switch → Bool
  | .analyze => a.analyze
  | .ignoreMissing => a.ignoreMissing
  | .verbose => a.verbose
  | .json => a.json

def setSwitch (a : Arguments) (s : Switch) : Except Stop Arguments :=
  if a.switchedOn s then .error (.usage (.repeated s.title))
  else
    match s with
    | .analyze => .ok { a with analyze := true }
    | .ignoreMissing => .ok { a with ignoreMissing := true }
    | .verbose => .ok { a with verbose := true }
    | .json => .ok { a with json := true }

def toggled (a : Arguments) : Toggle → Option Bool
  | .minify => a.minify
  | .renameVariables => a.renameVariables
  | .ascii => a.ascii

/-- Without a value, a toggle is on. -/
def setToggle (a : Arguments) (t : Toggle) (value : Option String) : Except Stop Arguments :=
  match (value.map Config.toggle).getD (.ok true) with
  | .error _ => .error (.usage (.valueInvalid t.title (value.getD "")))
  | .ok b =>
    if (a.toggled t).isSome then .error (.usage (.repeated t.title))
    else
      match t with
      | .minify => .ok { a with minify := some b }
      | .renameVariables => .ok { a with renameVariables := some b }
      | .ascii => .ok { a with ascii := some b }

def isSet (a : Arguments) : Parameter → Bool
  | .output => a.output.isSome
  | .config => a.config.isSome
  | .sourceRoot => a.sourceRoot.isSome
  | .obfuscation => a.tool.isSome
  | .env => a.env.isSome
  | .logLevel => a.logLevel.isSome

def path? (value : String) : Option Path := if value = "" then none else some ⟨value⟩

def logLevel? (value : String) : Option LogLevel :=
  match value with
  | "error" => some .error
  | "warn" => some .warn
  | "info" => some .info
  | "debug" => some .debug
  | "trace" => some .trace
  | _ => none

/-- The arguments with a parameter set, if the value fits it. -/
def withValue? (a : Arguments) (p : Parameter) (value : String) : Option Arguments :=
  match p with
  | .output => (path? value).map fun v => { a with output := some v }
  | .config => (path? value).map fun v => { a with config := some v }
  | .sourceRoot => (path? value).map fun v => { a with sourceRoot := some v }
  | .obfuscation => (Config.tool value).toOption.map fun v => { a with tool := some v }
  | .env => some { a with env := some value }
  | .logLevel => (logLevel? value).map fun v => { a with logLevel := some v }

def setParameter (a : Arguments) (p : Parameter) (value : String) : Except Stop Arguments :=
  if a.isSet p then .error (.usage (.repeated p.title))
  else
    match a.withValue? p value with
    | some a => .ok a
    | none => .error (.usage (.valueInvalid p.title value))

/-- The only positional argument is the entry. -/
def setEntry (a : Arguments) (value : String) : Except Stop Arguments :=
  if a.entry.isSome then .error (.usage (.unknown value))
  else
    match path? value with
    | some p => .ok { a with entry := some p }
    | none => .error (.usage (.valueInvalid "[ENTRY]" value))

/-- The names of variables stand between commas. -/
def envNames (a : Arguments) : Option (List String) :=
  a.env.map fun names => normalizeEnvNames ((Text.split ',' names.toList).map String.ofList)

def direct (a : Arguments) : Config.DirectSettings :=
  { entry := a.entry
    output := a.output
    sourceRoot := a.sourceRoot
    file := a.config
    minify := a.minify
    rename := a.renameVariables
    ascii := a.ascii
    tool := a.tool
    ignoreMissing := if a.ignoreMissing then some true else none
    env := a.envNames }

end Arguments

structure Reading where
  arguments : Arguments
  /-- A parameter whose value is the next argument. -/
  due : Option Parameter
  /-- After `--`. -/
  positional : Bool
  deriving DecidableEq, Repr

namespace Reading

def start : Reading := ⟨.empty, none, false⟩

/-- What follows two dashes: a name, and perhaps a value after an equals sign. -/
def longFlag (a : Arguments) (text : List Char) : Except Stop Reading :=
  let name := String.ofList (text.takeWhile (· != '='))
  let value :=
    match text.dropWhile (· != '=') with
    | _ :: r => some (String.ofList r)
    | [] => none
  match Flag.ofName? name, value with
  | some (.parameter p), some v => (a.setParameter p v).map (⟨·, none, false⟩)
  | some (.parameter p), none => .ok ⟨a, some p, false⟩
  | some (.toggle t), v => (a.setToggle t v).map (⟨·, none, false⟩)
  | some (.switch s), none => (a.setSwitch s).map (⟨·, none, false⟩)
  | some .help, none => .error .help
  | some .version, none => .error .version
  | some _, some _ => .error (.usage (.valueUnneeded ("--" ++ name)))
  | none, _ => .error (.usage (.unknown ("--" ++ name)))

def dropEquals : List Char → List Char
  | '=' :: r => r
  | r => r

/-- What follows one dash: letters of switches, and last perhaps a parameter with its value. -/
def letters (a : Arguments) : List Char → Except Stop Reading
  | [] => .ok ⟨a, none, false⟩
  | c :: r =>
    match Flag.ofLetter? c with
    | some (.switch s) => do letters (← a.setSwitch s) r
    | some (.parameter p) =>
      if r = [] then .ok ⟨a, some p, false⟩
      else (a.setParameter p (String.ofList (dropEquals r))).map (⟨·, none, false⟩)
    | some .help => .error .help
    | some .version => .error .version
    | some (.toggle _) | none => .error (.usage (.unknown (String.ofList ['-', c])))

/-- A value that is due is no argument that begins with a dash, except for the dash alone. -/
def feed (s : Reading) (argument : String) : Except Stop Reading :=
  if s.positional then (s.arguments.setEntry argument).map (⟨·, none, true⟩)
  else
    match argument.toList, s.due with
    | '-' :: _ :: _, some p => .error (.usage (.valueMissing p.title))
    | _, some p => (s.arguments.setParameter p argument).map (⟨·, none, false⟩)
    | ['-', '-'], none => .ok { s with positional := true }
    | '-' :: '-' :: r, none => longFlag s.arguments r
    | '-' :: c :: r, none => letters s.arguments (c :: r)
    | _, none => (s.arguments.setEntry argument).map (⟨·, none, false⟩)

end Reading

def parse (arguments : List String) : Except Stop Arguments := do
  let s ← arguments.foldlM Reading.feed .start
  match s.due with
  | some p => throw (.usage (.valueMissing p.title))
  | none => pure s.arguments

end LuaBundle.CommandLine
