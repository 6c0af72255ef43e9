import TemplateLint.Text.Case.Classes
import TemplateLint.Text.Case.Mapping

/-!
# Lowercase text

Each letter has its small letter by the Unicode mapping. Two letters need more: a capital I with a
dot keeps its dot as a mark of its own, and a capital sigma takes the form for the end of a word
when it ends one.
-/

namespace TemplateLint.Text.Case

/-- The small letter of one character, where it is a single character. -/
def lowerSimple (c : Char) : Char :=
  if c.toNat < 0x80 then c.toLower
  else match lowerRuns.find? (·.covers c.toNat) with
    | some run => Char.ofNat (c.toNat + run.shift).toNat
    | none => c

/-- Whether the first character that is not case-ignorable is a letter with case. -/
def reachesCased (s : List Char) : Bool :=
  match s.dropWhile isCaseIgnorable with
  | c :: _ => isCased c
  | [] => false

/-- A sigma ends a word when a cased letter comes before it and none after it. -/
def lowerSigma (before after : List Char) : Char :=
  if reachesCased before && !reachesCased after then 'ς' else 'σ'

/-- Lowercases `s`, where `before` is the text already passed, nearest character first. -/
def lowerFrom (before : List Char) : List Char → List Char
  | [] => []
  | c :: rest =>
    let small :=
      if c = 'Σ' then [lowerSigma before rest]
      else if c = 'İ' then ['i', '\u0307']
      else [lowerSimple c]
    small ++ lowerFrom (c :: before) rest

def lower (s : String) : String := String.ofList (lowerFrom [] s.toList)

end TemplateLint.Text.Case
