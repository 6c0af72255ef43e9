import TemplateLint.Document.Edit

/-!
# Events

What happens during a run that a log is to tell.
-/

namespace TemplateLint

inductive Level where
  | info
  | warn
  deriving DecidableEq, Repr

def Level.name : Level → String
  | info => "INFO"
  | warn => "WARN"

inductive Event where
  | globalConfigUsed (path : String)
  | unknownRuleRequested (name : String)
  | lintingBegins (ruleCount : Nat)
  | ruleFailed (rule file message : String)
  | ruleMissing (rule : String)
  | fixRejected (rule : String) (error : TreeError)
  | fixCrashed (rule : String) (node : NodeId)
  | fixingStopped (file : String) (passes : Nat)
  deriving DecidableEq, Repr

namespace Event

def level : Event → Level
  | globalConfigUsed _ | lintingBegins _ | fixingStopped _ _ => .info
  | unknownRuleRequested _ | ruleFailed _ _ _ | ruleMissing _
  | fixRejected _ _ | fixCrashed _ _ => .warn

def message : Event → String
  | globalConfigUsed path => s!"Using global config: {path}"
  | unknownRuleRequested name => s!"Unknown rule: {name}"
  | lintingBegins count => s!"Linting with {count} rules"
  | ruleFailed rule file message => s!"Rule {rule} failed on {file}: {message}"
  | ruleMissing rule => s!"no rule instance for fixable offense {rule}"
  | fixRejected rule error => s!"{rule} fix rejected: {error.message}"
  | fixCrashed rule node => s!"{rule} panicked while fixing node {node.display}"
  | fixingStopped file passes => s!"Stopped fixing {file} after {passes} passes"

/-- The control characters below a space, and the one above a tilde, that steer a terminal. -/
def steering : List Char := ['\x07', '\x08', '\x0c', '\x1b', '\x7f']

def hexadecimal (n : Nat) : String := String.ofList (Nat.toDigits 16 n)

/-- A character as a log on a terminal shows it: what could steer one is given by its code. -/
def shown (c : Char) : String :=
  if steering.contains c then
    "\\x" ++ (if c.toNat < 0x10 then "0" else "") ++ hexadecimal c.toNat
  else if 0x80 ≤ c.toNat && c.toNat < 0xA0 then "\\u\x7b" ++ hexadecimal c.toNat ++ "\x7d"
  else c.toString

/-- What the log says of an event. -/
def line (e : Event) : String :=
  let text := String.join (e.message.toList.map shown)
  s!"{e.level.name} {text}"

end Event

end TemplateLint
