import TemplateLint.Document.Visit
import TemplateLint.Text.Blank
import TemplateLint.Text.Cut

/-!
# Directives

A directive is a comment whose content starts with a keyword. It names rules, separated by commas,
whose offenses on its own lines are not reported. The keyword must be followed by a blank or by the
end of the comment; otherwise the directive counts as malformed and names nothing.
-/

namespace TemplateLint

open Text

/-- The word that makes a comment a directive. -/
def directiveKeyword : String := "herb:disable"

/-- The name that stands for every rule. -/
def everyRule : String := "all"

/-- A name in a directive, and where it stands. -/
structure Entry where
  name : String
  location : Location
  deriving DecidableEq, Repr

structure Directive where
  /-- The comment that the directive was read from. -/
  node : NodeId
  location : Location
  /-- The place of what stands between the delimiters. -/
  contentLocation : Location
  /-- Whether a blank or the end follows the keyword. -/
  matched : Bool
  /-- All that follows the keyword, trimmed, unless it is empty. -/
  rulesText : Option String
  entries : List Entry
  /-- Whether nothing stands before, after or between some commas. -/
  hasBlankEntry : Bool
  deriving DecidableEq, Repr

/-! ## Reading -/

/-- The names among the pieces of a list that starts at `here`. -/
def Entry.ofPieces (here : Position) : List (List Char) → List Entry
  | [] => []
  | piece :: rest =>
    let later := ofPieces (here.advance (piece ++ [','])) rest
    let name := trim piece
    if name.isEmpty then later
    else
      let start := here.advance (piece.takeWhile isBlank)
      ⟨String.ofList name, .spanning start name⟩ :: later

theorem Entry.names_ofPieces (here : Position) (pieces : List (List Char)) :
    (ofPieces here pieces).map Entry.name =
      ((pieces.map trim).filter (!·.isEmpty)).map String.ofList := by
  induction pieces generalizing here with
  | nil => rfl
  | cons piece rest ih =>
    rw [ofPieces, List.map_cons, List.filter_cons]
    split
    · rename_i hblank
      rw [if_neg (by simp [hblank]), ih]
    · rename_i hname
      rw [if_pos (by simp [hname]), List.map_cons, List.map_cons, ih]

namespace Directive

/-- What a directive says when `list`, which starts at `here`, follows its keyword. -/
def ofList (node : NodeId) (location contentLocation : Location) (here : Position)
    (list : List Char) : Directive :=
  let matched := match list with
    | c :: _ => isBlank c
    | [] => true
  let rules := trim list
  if matched && !rules.isEmpty then
    let pieces := splitAt ',' list
    { node, location, contentLocation, matched
      rulesText := some (String.ofList rules)
      entries := Entry.ofPieces here pieces
      hasBlankEntry := pieces.any fun piece => (trim piece).isEmpty }
  else
    { node, location, contentLocation, matched
      rulesText := none, entries := [], hasBlankEntry := false }

/-- Reads the content of a comment; it is a directive only if it starts with the keyword. -/
def ofComment? (node : NodeId) (location : Location) (content : Token) : Option Directive :=
  let keyword := directiveKeyword.toList
  let body := trimStart content.chars
  if keyword.isPrefixOf body then
    let before := content.chars.takeWhile isBlank ++ keyword
    let here := content.location.start.advance before
    some (ofList node location content.location here (body.drop keyword.length))
  else none

/-- The directive that a node is, if it is a comment with the keyword. -/
def ofNode? (id : NodeId) (node : Node) : Option Directive :=
  match node.content with
  | .erb _ content _ =>
    if node.content.isErbComment then ofComment? id node.location content else none
  | .comment _ content _ => ofComment? id node.location content
  | _ => none

/-! ## Meaning -/

def names (d : Directive) : List String := d.entries.map (·.name)

def disablesEvery (d : Directive) : Bool := d.names.contains everyRule

/-- Whether the directive names this rule, or every rule. -/
def disables (d : Directive) (rule : String) : Bool :=
  d.matched && (d.disablesEvery || d.names.contains rule)

/-- A directive concerns what starts on one of its own lines. -/
def inScope (d : Directive) (l : Location) : Bool := d.location.touchesLine l.start.line

end Directive

/-- The directives of a document in order of the text. -/
def Document.directives (d : Document) : List Directive :=
  d.allVisits.filterMap fun v => Directive.ofNode? v.id v.node

end TemplateLint
