import TemplateLint.Fix
import TemplateLint.Text.Cut

/-!
# The command line

A command stands after the switches that concern every command. Its own switches and operands may be
mixed, and after two dashes everything is an operand. No switch may be repeated. The first word that
does not fit decides.
-/

namespace TemplateLint.Command

/-! ## What can be asked for -/

inductive Format where
  | text
  | json
  | compact
  deriving DecidableEq, Repr

def Format.ofName? : String → Option Format
  | "text" => some text
  | "json" => some json
  | "compact" => some compact
  | _ => none

structure CheckOptions where
  paths : List String := ["."]
  format : Format := .text
  fix : Option FixMode := none
  /-- The rules to run, separated by commas. -/
  rules : Option String := none
  deriving DecidableEq, Repr

inductive Action where
  | check (options : CheckOptions)
  | listRules
  | init (force : Bool)
  deriving DecidableEq, Repr

/-- What the command line asks for, and the settings file it names. -/
structure Invocation where
  action : Action
  config : Option String
  deriving DecidableEq, Repr

/-- Why no command is run. -/
inductive Halt where
  | help
  | version
  | usage
  deriving DecidableEq, Repr

/-! ## Switches -/

inductive Switch where
  | verbose
  | config
  | help
  | version
  | format
  | fix
  | fixUnsafely
  | rules
  | force
  deriving DecidableEq, Repr

namespace Switch

def word : Switch → String
  | verbose => "verbose"
  | config => "config"
  | help => "help"
  | version => "version"
  | format => "format"
  | fix => "fix"
  | fixUnsafely => "fix-unsafely"
  | rules => "rules"
  | force => "force"

def letter? : Switch → Option Char
  | verbose => some 'v'
  | config => some 'c'
  | help => some 'h'
  | version => some 'V'
  | format => some 'f'
  | _ => none

def takesValue : Switch → Bool
  | config | format | rules => true
  | _ => false

/-- Whether a value fits the switch. -/
def accepts : Switch → String → Bool
  | config, value => !value.isEmpty
  | format, value => (Format.ofName? value).isSome
  | _, _ => true

end Switch

/-- The words understood before a command, or after it. -/
structure Level where
  switches : List Switch
  /-- Whether the first operand ends the level. -/
  endsAtOperand : Bool := false
  takesOperands : Bool := false

/-- The switches of every command. -/
def commonSwitches : List Switch := [.verbose, .config, .help]

def outerLevel : Level := { switches := .version :: commonSwitches, endsAtOperand := true }

def checkLevel : Level where
  switches := [.format, .fix, .fixUnsafely, .rules] ++ commonSwitches
  takesOperands := true

def listRulesLevel : Level := { switches := commonSwitches }

def initLevel : Level := { switches := .force :: commonSwitches }

/-! ## Words -/

inductive Word where
  | long (name : String) (value : Option String)
  | letters (letters : List Char)
  | operand
  /-- Two dashes, after which there are operands only. -/
  | divider

def Word.ofText (text : String) : Word :=
  match text.toList with
  | ['-', '-'] => divider
  | '-' :: '-' :: rest =>
    match Text.cut ['='] rest with
    | some (name, value) => long (String.ofList name) (some (String.ofList value))
    | none => long (String.ofList rest) none
  | '-' :: c :: rest => letters (c :: rest)
  | _ => operand

/-- What a level was given. A switch without a value has the empty one. -/
structure Given where
  values : List (Switch × String) := []
  operands : List String := []

namespace Given

def value? (g : Given) (s : Switch) : Option String := g.values.lookup s

def has (g : Given) (s : Switch) : Bool := (g.value? s).isSome

def add (g : Given) (s : Switch) (value : String) : Except Halt Given :=
  match s with
  | .help => .error .help
  | .version => .error .version
  | s =>
    if g.has s || !s.accepts value then .error .usage
    else .ok { g with values := g.values ++ [(s, value)] }

def addOperand (level : Level) (g : Given) (operand : String) : Except Halt Given :=
  if level.takesOperands && !operand.isEmpty then .ok { g with operands := g.operands ++ [operand] }
  else .error .usage

end Given

/-! ## Reading -/

/-- Reads switches of one letter; the last may still want its value. -/
def readLetters (level : Level) : List Char → Given → Except Halt (Given × Option Switch)
  | [], g => .ok (g, none)
  | c :: rest, g =>
    match level.switches.find? (·.letter? = some c) with
    | none => .error .usage
    | some s =>
      if s.takesValue then
        match rest with
        | [] => .ok (g, some s)
        | '=' :: value => (g.add s (String.ofList value)).map (·, none)
        | value => (g.add s (String.ofList value)).map (·, none)
      else
        match g.add s "" with
        | .error halt => .error halt
        | .ok g => readLetters level rest g

/-- Reads a switch by its name; it may still want its value. -/
def readLong (level : Level) (name : String) (value : Option String) (g : Given) :
    Except Halt (Given × Option Switch) :=
  match level.switches.find? (·.word = name), value with
  | none, _ => .error .usage
  | some s, some value => if s.takesValue then (g.add s value).map (·, none) else .error .usage
  | some s, none => if s.takesValue then .ok (g, some s) else (g.add s "").map (·, none)

/-- Reads the words of a level, and gives those that are left. -/
def readLevel (level : Level) (pending : Option Switch) (g : Given) :
    List String → Except Halt (Given × List String)
  | [] => if pending.isSome then .error .usage else .ok (g, [])
  | text :: rest =>
    match Word.ofText text, pending with
    | .operand, some s => do
      let g ← g.add s text
      readLevel level none g rest
    | _, some _ => .error .usage
    | .operand, none =>
      if level.endsAtOperand then .ok (g, text :: rest)
      else do
        let g ← g.addOperand level text
        readLevel level none g rest
    | .divider, none => (rest.foldlM (Given.addOperand level) g).map (·, [])
    | .letters letters, none => do
      let (g, pending) ← readLetters level letters g
      readLevel level pending g rest
    | .long name value, none => do
      let (g, pending) ← readLong level name value g
      readLevel level pending g rest

/-! ## Commands -/

def fixMode? (g : Given) : Option FixMode :=
  if g.has .fixUnsafely then some .all else if g.has .fix then some .safeOnly else none

def checkOptions (g : Given) : CheckOptions where
  paths := if g.operands.isEmpty then ["."] else g.operands
  format := ((g.value? .format).bind Format.ofName?).getD .text
  fix := fixMode? g
  rules := g.value? .rules

/-- The command of a name: how its words are read, and what they ask for. -/
def command? : String → Option (Level × (Given → Action))
  | "check" => some (checkLevel, fun g => .check (checkOptions g))
  | "list-rules" => some (listRulesLevel, fun _ => .listRules)
  | "init" => some (initLevel, fun g => .init (g.has .force))
  | _ => none

/-- Help is given on the whole or on one command. -/
def readHelp : List String → Halt
  | [] => .help
  | [name] => if name = "help" || (command? name).isSome then .help else .usage
  | _ => .usage

/-- The settings file given last, or else that of the environment, which must not be empty then. -/
def chooseConfig (outer inner : Given) (fallback : Option String) : Except Halt (Option String) :=
  if fallback = some "" && !(outer.has .config && inner.has .config) then .error .usage
  else .ok ((inner.value? .config).or ((outer.value? .config).or fallback))

/-- What a command line asks for; `fallback` is the settings file that the environment names. -/
def Invocation.parse (args : List String) (fallback : Option String) : Except Halt Invocation := do
  let (outer, rest) ← readLevel outerLevel none {} args
  match rest with
  | [] => throw .usage
  | "help" :: rest => throw (readHelp rest)
  | name :: rest =>
    match command? name with
    | none => throw .usage
    | some (level, action) =>
      let (inner, _) ← readLevel level none {} rest
      let config ← chooseConfig outer inner fallback
      return { action := action inner, config }

end TemplateLint.Command
