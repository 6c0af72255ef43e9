import TemplateLint.Context
import TemplateLint.Directive
import TemplateLint.Document.Edit

/-!
# Rules

A rule looks at a whole document or at one directive after the other. It may keep notes, which it
gives up as it sees fit when a new document begins. A rule may fail; the linter then reports the
failure and goes on.
-/

namespace TemplateLint

/-! ## Failures -/

/-- The sudden end of a rule's work, with the text it left, if any. -/
structure Crash where
  text : Option String
  deriving DecidableEq, Repr

def Crash.message (c : Crash) : String := c.text.getD "rule panicked"

/-- Why a fix did not come to its end. -/
inductive FixFailure where
  | tree (error : TreeError)
  | crash (crash : Crash)
  deriving DecidableEq, Repr

/-! ## Fixes -/

/-- Steps that change a document until one fails; the changes before a failure stay. -/
abbrev Edit := EStateM FixFailure Document

namespace Edit

def ofExcept {α : Type} (r : Except TreeError α) : Edit α :=
  match r with
  | .ok a => pure a
  | .error e => throw (.tree e)

/-- The node of an id, which must be live. -/
def node (id : NodeId) : Edit Node := do
  let d ← get
  ofExcept (d.node id)

def replace (id : NodeId) (new : Node) : Edit NodeId := do
  let d ← get
  let (new, d) ← ofExcept (d.replace id new)
  set d
  return new

end Edit

/-! ## Rules -/

/-- A text that a rule came across, and where. -/
structure Note where
  text : String
  location : Location
  deriving DecidableEq, Repr

/-- What a rule finds: offenses and its notes after them, or a crash. -/
abbrev Finding := Except Crash (List Offense × List Note)

/-- A fix that reads no notes serves where notes are at hand. -/
instance : Coe (NodeId → Edit Bool) (NodeId → List Note → Edit Bool) := ⟨fun fix id _ => fix id⟩

structure DocumentRule where
  descriptor : Descriptor
  /-- The notes that the rule starts a document with. -/
  reset : List Note → List Note := id
  check : Document → Context → List Note → Finding
  /-- Tries to mend an offense at this node with the notes of the last check, and tells whether it
  changed something. -/
  fix : NodeId → (notes : List Note := []) → Edit Bool := fun _ _ => pure false

structure DirectiveRule where
  descriptor : Descriptor
  reset : List Note → List Note := id
  check : Directive → Context → List Note → Finding

inductive Rule where
  | document (rule : DocumentRule)
  | directive (rule : DirectiveRule)

namespace Rule

def descriptor : Rule → Descriptor
  | document rule => rule.descriptor
  | directive rule => rule.descriptor

def name (r : Rule) : String := r.descriptor.name

def reset : Rule → List Note → List Note
  | document rule => rule.reset
  | directive rule => rule.reset

end Rule

/-- A rule on documents that keeps no notes and never fails. -/
def DocumentRule.plain (descriptor : Descriptor) (check : Document → List Offense)
    (fix : NodeId → Edit Bool) : DocumentRule where
  descriptor
  check := fun d _ notes => .ok (check d, notes)
  fix

/-- A rule on directives that keeps no notes and never fails. -/
def DirectiveRule.plain (descriptor : Descriptor) (check : Directive → Context → List Offense) :
    DirectiveRule where
  descriptor
  check := fun d c notes => .ok (check d c, notes)

namespace DirectiveRule

/-- Looks at all directives in order. -/
def checkAll (r : DirectiveRule) (c : Context) : List Directive → List Note → Finding
  | [], notes => .ok ([], notes)
  | d :: rest, notes =>
    match r.check d c notes with
    | .error crash => .error crash
    | .ok (found, notes) =>
      match r.checkAll c rest notes with
      | .error crash => .error crash
      | .ok (more, notes) => .ok (found ++ more, notes)

end DirectiveRule

end TemplateLint
