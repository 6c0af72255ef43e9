/-!
# Places in a text

A position is a line, counted from 1, and a column, counted from 0 in characters. A location is a
half-open span between two positions.
-/

namespace TemplateLint

/-! ## Positions -/

structure Position where
  line : Nat
  column : Nat
  deriving DecidableEq, Repr, Inhabited

namespace Position

/-- The first position of every text. -/
def start : Position := ⟨1, 0⟩

/-- Earlier line first, then earlier column. -/
def le (p q : Position) : Bool := p.line < q.line || (p.line == q.line && p.column ≤ q.column)

def lt (p q : Position) : Bool := !q.le p

def min (p q : Position) : Position := if q.lt p then q else p

def max (p q : Position) : Position := if q.lt p then p else q

/-- The position after one character. -/
def next (p : Position) (c : Char) : Position :=
  if c = '\n' then ⟨p.line + 1, 0⟩ else ⟨p.line, p.column + 1⟩

/-- The position after reading `text` from `p`. -/
def advance (p : Position) (text : List Char) : Position := text.foldl next p

@[simp] theorem advance_nil (p : Position) : p.advance [] = p := rfl

@[simp] theorem advance_cons (p : Position) (c : Char) (text : List Char) :
    p.advance (c :: text) = (p.next c).advance text := rfl

@[simp] theorem advance_append (p : Position) (a b : List Char) :
    p.advance (a ++ b) = (p.advance a).advance b := List.foldl_append

def display (p : Position) : String := s!"{p.line}:{p.column}"

end Position

/-! ## Locations -/

/-- The span from `start` up to `stop`, which it does not hold. -/
structure Location where
  start : Position
  stop : Position
  deriving DecidableEq, Repr, Inhabited

namespace Location

/-- The location between two positions, in whichever order they are given. -/
def between (p q : Position) : Location := if q.lt p then ⟨q, p⟩ else ⟨p, q⟩

/-- The location of `text` when it starts at `p`. -/
def spanning (p : Position) (text : List Char) : Location := between p (p.advance text)

/-- The smallest location that holds both. -/
def join (a b : Location) : Location := between (a.start.min b.start) (a.stop.max b.stop)

def contains (a : Location) (p : Position) : Bool := a.start.le p && p.lt a.stop

/-- Whether `b` lies inside `a`. -/
def covers (a b : Location) : Bool := a.start.le b.start && b.stop.le a.stop

/-- Whether `line` is one of the lines from the first to the last of `a`. -/
def touchesLine (a : Location) (line : Nat) : Bool := a.start.line ≤ line && line ≤ a.stop.line

/-- Ordered by start, then by end. -/
def lt (a b : Location) : Bool := a.start.lt b.start || (a.start == b.start && a.stop.lt b.stop)

def display (a : Location) : String := s!"{a.start.display}-{a.stop.display}"

end Location

end TemplateLint
