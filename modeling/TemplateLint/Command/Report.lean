import TemplateLint.Command.Arguments
import TemplateLint.Json
import TemplateLint.Offense

/-!
# Reports

What was found in each file, and how it is printed.
-/

namespace TemplateLint.Command

structure FileReport where
  path : String
  result : LintResult
  /-- Whether the file was written anew. -/
  fixed : Bool
  deriving DecidableEq, Repr

/-- Whether no error is left in any file. -/
def isClean (reports : List FileReport) : Bool := reports.all (!·.result.hasErrors)

structure Summary where
  filesChecked : Nat
  filesFixed : Nat
  errors : Nat
  warnings : Nat
  infos : Nat
  suppressed : Nat
  fixable : Nat
  deriving DecidableEq, Repr

def Summary.ofReports (reports : List FileReport) : Summary :=
  let total (count : FileReport → Nat) : Nat := reports.foldr (fun r n => count r + n) 0
  { filesChecked := reports.length
    filesFixed := reports.countP (·.fixed)
    errors := total (·.result.count .error)
    warnings := total (·.result.count .warning)
    infos := total (·.result.count .info)
    suppressed := total (·.result.suppressedCount)
    fixable := total (·.result.fixableCount) }

/-- What is printed: a text, or details on offenses with closing lines. -/
inductive Printout where
  | plain (text : String)
  | detailed (details closing : String)
  deriving DecidableEq, Repr

def Printout.text : Printout → String
  | plain text => text
  | detailed details closing => details ++ closing

/-- Lines of text, each with its end. -/
def lines (texts : List String) : String := String.join (texts.map (· ++ "\n"))

/-! ## For a terminal -/

/-- Red for errors, yellow for warnings, green otherwise. -/
def Summary.color (s : Summary) : String :=
  if 0 < s.errors then "\x1b[31m" else if 0 < s.warnings then "\x1b[33m" else "\x1b[32m"

def Summary.closing (s : Summary) : List String :=
  let found :=
    s!"Found {s.errors} error(s), {s.warnings} warning(s), {s.infos} info(s) in {s.filesChecked} file(s)"
  let optional (count : Nat) (line : String) : List String := if 0 < count then [line] else []
  (s.color ++ found ++ "\x1b[0m") ::
    optional s.suppressed s!"{s.suppressed} offense(s) suppressed by herb:disable comments" ++
    optional s.filesFixed s!"Fixed {s.filesFixed} file(s)" ++
    optional s.fixable s!"{s.fixable} offense(s) can be fixed with --fix"

def textPrintout (reports : List FileReport) : Printout :=
  let details := reports.flatMap fun r => r.result.all.map fun o => s!"{r.path}: {o.format}"
  .detailed (lines details) (lines (Summary.ofReports reports).closing)

/-! ## One line for each offense -/

def compactPrintout (reports : List FileReport) : Printout :=
  .plain (lines (reports.flatMap fun r => r.result.all.map fun o => s!"{r.path}:{o.display}"))

/-! ## For programs -/

open Json (Value)

def positionValue (p : Position) : Value :=
  .object [("line", .number p.line), ("column", .number p.column)]

def locationValue (l : Location) : Value :=
  .object [("start", positionValue l.start), ("end", positionValue l.stop)]

def fixValue (f : FixTarget) : Value :=
  .object [("node", .number f.node), ("safety", .text f.safety.name)]

def offenseValue (o : Offense) : Value :=
  .object
    ([("rule", .text o.rule), ("message", .text o.message), ("severity", .text o.severity.name),
    ("location", locationValue o.location)] ++ o.fix.toList.map fun fix => ("fix", fixValue fix))

def FileReport.value (r : FileReport) : Value :=
  .object [("path", .text r.path), ("fixed", .boolean r.fixed),
    ("offenses", .array (r.result.all.map offenseValue)),
    ("suppressed_count", .number r.result.suppressedCount)]

def Summary.value (s : Summary) : Value :=
  .object [("files_checked", .number s.filesChecked), ("files_fixed", .number s.filesFixed),
    ("errors", .number s.errors), ("warnings", .number s.warnings), ("infos", .number s.infos),
    ("suppressed", .number s.suppressed), ("fixable", .number s.fixable)]

def jsonPrintout (reports : List FileReport) : Printout :=
  let value : Value :=
    .object [("files", .array (reports.map (·.value))),
      ("summary", (Summary.ofReports reports).value)]
  .plain (lines [value.display])

def Format.printout : Format → List FileReport → Printout
  | text => textPrintout
  | json => jsonPrintout
  | compact => compactPrintout

end TemplateLint.Command
