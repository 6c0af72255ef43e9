import TemplateLint.Event
import TemplateLint.Rule
import TemplateLint.Suppression

/-!
# Fixes

A pass goes through the offenses in order and lets each one's rule try to mend it. A try works on a
copy of the document, which takes its place only if the rule reports a change. So a fix that fails
leaves nothing behind but its report.
-/

namespace TemplateLint

/-- Which fixes may be applied. -/
inductive FixMode where
  | safeOnly
  | all
  deriving DecidableEq, Repr

def FixMode.allows : FixMode → Safety → Bool
  | safeOnly, .risky => false
  | _, _ => true

/-! ## One try -/

/-- How a try to mend an offense ended. -/
inductive Attempt where
  | changed (document : Document)
  | unchanged
  | stale
  | rejected (error : TreeError)
  | crashed (crash : Crash)

def Attempt.ofRun : EStateM.Result FixFailure Document Bool → Attempt
  | .ok true document => .changed document
  | .ok false _ => .unchanged
  | .error (.tree (.staleNode _)) _ => .stale
  | .error (.tree error) _ => .rejected error
  | .error (.crash crash) _ => .crashed crash

/-! ## One pass -/

/-- A pass so far: the document, how many fixes changed it or were skipped, and what failed. -/
structure FixPass where
  document : Document
  applied : Nat := 0
  skipped : Nat := 0
  failures : List Offense := []
  events : List Event := []

namespace FixPass

def skip (p : FixPass) (events : List Event) : FixPass :=
  { p with skipped := p.skipped + 1, events := p.events ++ events }

def fail (p : FixPass) (offense : Offense) (detail : String) (event : Event) : FixPass :=
  { p.skip [event] with
    failures := p.failures ++ [.ofFailure offense.rule offense.location detail] }

/-- Takes up what came of a try. -/
def record (p : FixPass) (offense : Offense) (node : NodeId) : Attempt → FixPass
  | .changed document => { p with document, applied := p.applied + 1 }
  | .unchanged => p
  | .stale => p.skip []
  | .rejected error =>
    p.fail offense s!"autofix failed: {error.message}" (.fixRejected offense.rule error)
  | .crashed crash =>
    p.fail offense s!"autofix panicked: {crash.message}" (.fixCrashed offense.rule node)

/-- Handles one offense; `find` gives the fix of the rule of a name. -/
def step (find : String → Option (NodeId → Edit Bool)) (mode : FixMode) (p : FixPass)
    (offense : Offense) : FixPass :=
  match offense.fix with
  | none => p
  | some target =>
    if !mode.allows target.safety then p.skip []
    else match find offense.rule with
      | none => p.skip [.ruleMissing offense.rule]
      | some fix => p.record offense target.node (.ofRun ((fix target.node).run p.document))

/-- A pass over all offenses. -/
def run (find : String → Option (NodeId → Edit Bool)) (mode : FixMode) (d : Document)
    (offenses : List Offense) : FixPass :=
  offenses.foldl (step find mode) { document := d }

end FixPass

end TemplateLint
