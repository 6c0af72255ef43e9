import TemplateLint.Location
import TemplateLint.Severity

/-!
# Offenses

What a rule reports: where, how severe, and which node a fix would replace. A lint's result holds
the offenses that remain, how many comments silenced, and the comments that silenced nothing.
-/

namespace TemplateLint

/-- The number of a node in its document. -/
abbrev NodeId := Nat

def NodeId.display (id : NodeId) : String := s!"#{id}"

/-! ## Fixes -/

/-- A safe fix keeps the meaning of the page; an unsafe one may change it. -/
inductive Safety where
  | safe
  | risky
  deriving DecidableEq, Repr

def Safety.name : Safety → String
  | safe => "safe"
  | risky => "unsafe"

/-- The node that a fix would replace. -/
structure FixTarget where
  node : NodeId
  safety : Safety
  deriving DecidableEq, Repr

/-! ## One offense -/

structure Offense where
  rule : String
  message : String
  severity : Severity
  location : Location
  fix : Option FixTarget := none
  deriving DecidableEq, Repr

namespace Offense

def isFixable (o : Offense) : Bool := o.fix.isSome

/-- One line: place, severity, rule and message. -/
def display (o : Offense) : String :=
  s!"{o.location.start.display}: {o.severity.name} [{o.rule}] {o.message}"

/-- Several lines for a terminal. -/
def format (o : Offense) : String :=
  let head := s!"{o.rule} at {o.location.start.display}\n  {o.severity.name}: {o.message}\n"
  match o.fix with
  | some fix => head ++ s!"  = help: {fix.safety.name} autofix available\n"
  | none => head

/-- Whether `a` starts no later than `b`. -/
def startsBefore (a b : Offense) : Bool := a.location.start.le b.location.start

/-- Sorts by start; offenses that start together keep their order. -/
def sort (offenses : List Offense) : List Offense := offenses.mergeSort startsBefore

end Offense

/-! ## The result of a lint -/

structure LintResult where
  offenses : List Offense
  suppressedCount : Nat
  unnecessaryDirectives : List Offense
  deriving DecidableEq, Repr

namespace LintResult

def empty : LintResult := ⟨[], 0, []⟩

/-- The offenses and the reports on needless comments, in order of place. -/
def all (r : LintResult) : List Offense := Offense.sort (r.offenses ++ r.unnecessaryDirectives)

def size (r : LintResult) : Nat := r.offenses.length + r.unnecessaryDirectives.length

def isEmpty (r : LintResult) : Bool := r.offenses.isEmpty && r.unnecessaryDirectives.isEmpty

/-- Whether something is at least this severe. -/
def reaches (r : LintResult) (severity : Severity) : Bool := r.all.any (severity.le ·.severity)

def hasErrors (r : LintResult) : Bool := r.reaches .error

def fixableCount (r : LintResult) : Nat := r.offenses.countP (·.isFixable)

def count (r : LintResult) (severity : Severity) : Nat := r.all.countP (·.severity == severity)

end LintResult

end TemplateLint
