import TemplateLint.Text.Case.Ascii

/-!
# Severities
-/

namespace TemplateLint

inductive Severity where
  | info
  | warning
  | error
  deriving DecidableEq, Repr

namespace Severity

def name : Severity → String
  | info => "info"
  | warning => "warning"
  | error => "error"

def rank : Severity → Nat
  | info => 0
  | warning => 1
  | error => 2

def le (a b : Severity) : Bool := a.rank ≤ b.rank

/-- The severity of exactly this name. -/
def ofName? : String → Option Severity
  | "info" => some info
  | "warning" => some warning
  | "error" => some error
  | _ => none

theorem ofName?_name (s : Severity) : ofName? s.name = some s := by cases s <;> rfl

/-- A text that names no severity, with its capitals made small. -/
structure Unknown where
  text : String
  deriving DecidableEq, Repr

def Unknown.message (e : Unknown) : String :=
  s!"unknown severity `{e.text}`. Valid values: error, warning, info"

/-- Reads a severity as a person writes it: in any case of ASCII letters, and `warn` for short. -/
def parse (text : String) : Except Unknown Severity :=
  let lowered := String.ofList (Text.asciiLower text.toList)
  if lowered = "warn" then .ok warning
  else match ofName? lowered with
    | some severity => .ok severity
    | none => .error ⟨lowered⟩

end Severity

end TemplateLint
