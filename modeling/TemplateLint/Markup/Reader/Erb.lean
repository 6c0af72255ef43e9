import TemplateLint.Markup.Nesting
import TemplateLint.Text.Blank
import TemplateLint.Text.Cut

/-!
# Reading embedded Ruby

Markup is read without backing up. The only failure is a construct without its end; it is reported
with the text from where the construct starts. What a reader reads and what it leaves join to what
it was given (`append_of_readErb` here), so each step leaves less to read.
-/

namespace TemplateLint.Markup

open Text

/-! ## Failures -/

inductive Construct where
  | erb
  | comment
  | doctype
  | closeTag
  | openTag
  | attributeValue
  deriving DecidableEq, Repr

/-- A construct without its end; `rest` is the text from its first character on. -/
structure Unterminated where
  construct : Construct
  rest : List Char
  deriving DecidableEq, Repr

/-- What a reader gives: a value and the text that it leaves. -/
abbrev Read (α : Type) := Except Unterminated (α × List Char)

/-! ## Where constructs start -/

def startsErb : List Char → Bool
  | '<' :: '%' :: _ => true
  | _ => false

/-- Whether something other than text starts here. -/
def startsConstruct : List Char → Bool
  | '<' :: '%' :: _ => true
  | '<' :: '!' :: _ => true
  | '<' :: '/' :: c :: _ => isAsciiLetter c
  | '<' :: c :: _ => isAsciiLetter c
  | _ => false

/-- Whether the raw text of the element `name` ends here. -/
def endsRawText (name : List Char) (s : List Char) : Bool :=
  startsErb s || startsWithLetters ('<' :: '/' :: name) s

/-- Characters of tag names. -/
def isNameChar (c : Char) : Bool := !isBlank c && c != '>' && c != '/' && c != '<'

def isAttributeNameChar (c : Char) : Bool := isNameChar c && c != '='

/-! ## Embedded Ruby -/

/-- The longest opening that the text starts with. -/
def readErbOpening : List Char → Option (ErbOpening × List Char)
  | '<' :: '%' :: '=' :: '=' :: rest => some (.rawOutput, rest)
  | '<' :: '%' :: '=' :: rest => some (.output, rest)
  | '<' :: '%' :: '#' :: rest => some (.comment, rest)
  | '<' :: '%' :: '-' :: rest => some (.trimmed, rest)
  | '<' :: '%' :: rest => some (.plain, rest)
  | _ => none

/-- A tag from all that stands before `%>`; a dash at the end of it belongs to the closing. -/
def Erb.ofInside (opening : ErbOpening) (inside : List Char) : Erb :=
  if inside.getLast? = some '-' then ⟨opening, inside.dropLast, true⟩ else ⟨opening, inside, false⟩

def readErb (s : List Char) : Read Erb :=
  match readErbOpening s with
  | none => .error ⟨.erb, s⟩
  | some (opening, body) =>
    match cut ['%', '>'] body with
    | none => .error ⟨.erb, s⟩
    | some (inside, rest) => .ok (.ofInside opening inside, rest)

theorem append_of_readErbOpening {s rest : List Char} {o : ErbOpening}
    (h : readErbOpening s = some (o, rest)) : o.text ++ rest = s := by
  unfold readErbOpening at h
  split at h <;> simp_all <;> obtain ⟨rfl, rfl⟩ := h <;> rfl

theorem Erb.text_ofInside (o : ErbOpening) (inside : List Char) :
    (Erb.ofInside o inside).text = o.text ++ inside ++ ['%', '>'] := by
  unfold Erb.ofInside
  split
  · rename_i h
    obtain ⟨front, rfl⟩ := List.getLast?_eq_some_iff.mp h
    simp [Erb.text, Erb.closing]
  · simp [Erb.text, Erb.closing]

theorem append_of_readErb {s rest : List Char} {e : Erb} (h : readErb s = .ok (e, rest)) :
    e.text ++ rest = s := by
  unfold readErb at h
  split at h
  · cases h
  · rename_i o body ho
    split at h
    · cases h
    · rename_i inside r hc
      cases h
      rw [Erb.text_ofInside, ← append_of_readErbOpening ho, ← append_of_cut hc]
      simp

theorem Erb.text_ne_nil (e : Erb) : e.text ≠ [] := by
  obtain ⟨o, c, t⟩ := e
  cases o <;> simp [Erb.text, ErbOpening.text]

/-- A text that starts with something not empty is longer than what follows. -/
theorem length_lt_of_append {a rest s : List Char} (h : a ++ rest = s) (ha : a ≠ []) :
    rest.length < s.length := by
  have := List.length_pos_iff.mpr ha
  simp [← h]; omega

end TemplateLint.Markup
