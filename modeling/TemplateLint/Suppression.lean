import TemplateLint.Context
import TemplateLint.Directive

/-!
# Suppression

Directives hide the offenses that they name on their own lines. Reports about directives and
internal errors are never hidden. A directive that hides nothing is reported, and so is a name of
an enabled rule that hides nothing in a directive that does hide something.
-/

namespace TemplateLint

/-- The name under which directives that hide nothing are reported. -/
def unnecessaryRule : String := "herb-disable-comment-unnecessary"

/-- What the names of all rules about directives start with. -/
def directiveRuleStem : String := "herb-disable-comment-"

/-- What the message of a failed rule starts with. -/
def internalErrorStem : String := "internal error:"

/-- The report on directives is set up like a rule. -/
def unnecessaryDescriptor : Descriptor where
  name := unnecessaryRule
  description := "Reports herb:disable comments that do not suppress any offense"
  severity := .warning

/-- An offense that stands for a failure of its rule. -/
def Offense.ofFailure (rule : String) (location : Location) (detail : String) : Offense :=
  { rule, message := s!"{internalErrorStem} {detail}", severity := .error, location }

def Offense.isSuppressible (o : Offense) : Bool :=
  !directiveRuleStem.toList.isPrefixOf o.rule.toList &&
    !internalErrorStem.toList.isPrefixOf o.message.toList

/-! ## One directive at work -/

/-- An offense, and whether a directive has hidden it. -/
structure Mark where
  offense : Offense
  hidden : Bool
  deriving DecidableEq, Repr

/-- How many offenses a directive hides, and how many each of its entries names. -/
structure Tally where
  hits : Nat
  nameHits : List Nat
  deriving DecidableEq, Repr

namespace Directive

/-- Counts an offense against `rule` for every entry that names it. -/
def countNames (d : Directive) (rule : String) (nameHits : List Nat) : List Nat :=
  d.entries.zipWith (fun e n => if e.name == rule then n + 1 else n) nameHits

/-- The directive looks at one offense. -/
def mark (d : Directive) (m : Mark) (t : Tally) : Mark × Tally :=
  if m.offense.isSuppressible && d.inScope m.offense.location then
    let nameHits := d.countNames m.offense.rule t.nameHits
    let named := d.entries.any (·.name == m.offense.rule)
    if d.disablesEvery || named then ({ m with hidden := true }, ⟨t.hits + 1, nameHits⟩)
    else (m, ⟨t.hits, nameHits⟩)
  else (m, t)

/-- The directive goes over all offenses. What others have hidden stays hidden. -/
def sweep (d : Directive) : List Mark → Tally → List Mark × Tally
  | [], t => ([], t)
  | m :: rest, t =>
    let (m, t) := d.mark m t
    let (rest, t) := d.sweep rest t
    (m :: rest, t)

/-- Before the directive has looked at any offense. -/
def noHits (d : Directive) : Tally := ⟨0, d.entries.map fun _ => 0⟩

/-! ## Needless directives -/

def unnecessaryMessage (d : Directive) : String :=
  match d.rulesText with
  | some rules => s!"Unnecessary herb:disable comment: no `{rules}` offense on this line"
  | none => "Unnecessary herb:disable comment: it names no rules"

def idleMessage (e : Entry) : String :=
  s!"No `{e.name}` offense is suppressed by this herb:disable comment"

/-- The reports on a directive with this tally. -/
def reports (d : Directive) (c : Context) (t : Tally) : List Offense :=
  let report (message : String) (location : Location) : Offense :=
    { unnecessaryDescriptor.offense message location with
      severity := (c.severity? unnecessaryRule).getD unnecessaryDescriptor.severity }
  if t.hits = 0 then [report d.unnecessaryMessage d.location]
  else
    (d.entries.zip t.nameHits).filterMap fun (e, n) =>
      if n = 0 && e.name != everyRule && c.isEnabled e.name then
        some (report (idleMessage e) e.location)
      else none

end Directive

/-! ## A whole document -/

/-- The offenses of a document while its directives go over them, and the reports so far. -/
structure Suppressing where
  marks : List Mark
  reports : List Offense
  deriving DecidableEq, Repr

namespace Suppressing

def start (raw : List Offense) : Suppressing := ⟨raw.map (⟨·, false⟩), []⟩

/-- The next directive goes over the offenses. -/
def step (c : Context) (s : Suppressing) (d : Directive) : Suppressing :=
  let (marks, tally) := d.sweep s.marks d.noHits
  { marks
    reports := if c.isEnabled unnecessaryRule then s.reports ++ d.reports c tally else s.reports }

/-- The offenses that no directive has hidden. -/
def kept (s : Suppressing) : List Offense :=
  s.marks.filterMap fun m => if m.hidden then none else some m.offense

def hiddenCount (s : Suppressing) : Nat := s.marks.countP (·.hidden)

end Suppressing

/-- What remains of the offenses found in a document with these directives. -/
def suppress (raw : List Offense) (directives : List Directive) (c : Context) : LintResult :=
  let s := (directives.filter (·.matched)).foldl (Suppressing.step c) (Suppressing.start raw)
  { offenses := Offense.sort s.kept
    suppressedCount := s.hiddenCount
    unnecessaryDirectives := Offense.sort s.reports }

end TemplateLint
