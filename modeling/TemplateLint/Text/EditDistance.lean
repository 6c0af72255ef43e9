/-!
# Edit distance

The least number of insertions, deletions and substitutions of one character that turn one text
into another, computed a row at a time.
-/

namespace TemplateLint.Text

/-- The next row: `left` is the entry to the left of the first one, `above` the row before it. -/
def nextRow (c : Char) : (left : Nat) → (above : List Nat) → (b : List Char) → List Nat
  | left, diagonal :: up :: above, d :: b =>
    let here := min (min (diagonal + if c = d then 0 else 1) (up + 1)) (left + 1)
    here :: nextRow c here (up :: above) b
  | _, _, _ => []

/-- The distances from the text read so far to every start of `b`. -/
def distanceRow (b : List Char) : (row : List Nat) → List Char → List Nat
  | row, [] => row
  | row, c :: rest =>
    let first := row.headD 0 + 1
    distanceRow b (first :: nextRow c first row b) rest

def editDistance (a b : List Char) : Nat :=
  (distanceRow b (List.range (b.length + 1)) a).getLastD 0

example : editDistance "kitten".toList "sitting".toList = 3 := by decide +kernel

end TemplateLint.Text
