import TemplateLint.Document.Draft
import TemplateLint.Markup.Reader.Piece

/-!
# Parsing templates
-/

namespace TemplateLint

open Markup

/-- A construct without its end, and where it starts. -/
structure ParseError where
  construct : Construct
  position : Position
  deriving DecidableEq, Repr

/-- What a construct is called in messages. -/
def Markup.Construct.name : Construct → String
  | .erb => "ERB tag"
  | .comment => "HTML comment"
  | .doctype => "doctype"
  | .closeTag => "close tag"
  | .openTag => "open tag"
  | .attributeValue => "attribute value"

def ParseError.message (e : ParseError) : String :=
  s!"unterminated {e.construct.name} at line {e.position.line}, column {e.position.column}"

/-- The place of an unterminated construct in the text it was found in. -/
def ParseError.ofUnterminated (source : List Char) (u : Unterminated) : ParseError :=
  ⟨u.construct, Position.start.advance (source.take (source.length - u.rest.length))⟩

/-- Parses a template; `keepBlanks` tells whether blanks inside tags become nodes. -/
def Document.parse (source : String) (keepBlanks : Bool) : Except ParseError Document :=
  match readPieces [] source.toList with
  | .error u => .error (.ofUnterminated source.toList u)
  | .ok pieces => .ok (.ofPieces keepBlanks pieces)

end TemplateLint
