import TemplateLint.Offense

/-!
# Diagnostics

An offense bound to the text it was found in, as a span of bytes of the UTF-8 form.
-/

namespace TemplateLint

/-- The number of bytes in UTF-8. -/
def utf8Length : List Char → Nat
  | [] => 0
  | c :: rest => c.utf8Size + utf8Length rest

/-- The bytes before the position `target`, when `here` is the position of `text`. -/
def bytesBefore (here target : Position) : List Char → Nat
  -- A line that is missing gives the end of the text, a column past its line the end of the line.
  | [] => 0
  | c :: rest =>
    if here = target ∨ (c = '\n' ∧ here.line = target.line) then 0
    else c.utf8Size + bytesBefore (here.next c) target rest

/-- The byte offset of a position in a text. -/
def byteOffset (source : String) (target : Position) : Nat :=
  bytesBefore .start target source.toList

/-- A span of bytes with what stands beside it. -/
structure Label where
  offset : Nat
  length : Nat
  text : String
  deriving DecidableEq, Repr

structure Diagnostic where
  message : String
  help : Option String
  label : Label
  deriving DecidableEq, Repr

namespace Diagnostic

def ofOffense (o : Offense) (source : String) : Diagnostic :=
  let start := byteOffset source o.location.start
  let stop := byteOffset source o.location.stop
  { message := s!"[{o.rule}] {o.message}"
    help := o.fix.map fun fix => s!"run with --fix to apply the {fix.safety.name} autofix"
    label := ⟨start, stop - start, o.rule⟩ }

end Diagnostic

end TemplateLint
