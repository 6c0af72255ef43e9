/-!
# Globs

A pattern is a list of parts. A star stands for any run of characters and a question mark for any
one, separators included; a class in brackets stands for one of its members, or for one of all
others. Two stars must make up a whole component of a path and stand for any number of components.
-/

namespace TemplateLint.Glob

/-- A member of a class: the characters from `first` to `last`. -/
structure Range where
  first : Char
  last : Char
  deriving DecidableEq, Repr

def Range.covers (r : Range) (c : Char) : Bool := r.first.val ≤ c.val && c.val ≤ r.last.val

inductive Part where
  | char (c : Char)
  | anyChar
  | anyRun
  | anyComponents
  | within (ranges : List Range)
  | except (ranges : List Range)
  deriving DecidableEq, Repr

/-! ## Malformed patterns -/

inductive Problem where
  | tooManyStars
  | partialComponent
  | badClass
  deriving DecidableEq, Repr

/-- What is wrong with a pattern, and at which of its characters. -/
structure Malformed where
  problem : Problem
  index : Nat
  deriving DecidableEq, Repr

def Problem.message : Problem → String
  | tooManyStars => "wildcards are either regular `*` or recursive `**`"
  | partialComponent => "recursive wildcards must form a single path component"
  | badClass => "invalid range pattern"

def Malformed.message (m : Malformed) : String :=
  s!"Pattern syntax error near position {m.index}: {m.problem.message}"

/-! ## Reading patterns -/

/-- The members of a class; a dash between two characters makes a range of them. -/
def ranges : List Char → List Range
  | a :: '-' :: b :: rest => ⟨a, b⟩ :: ranges rest
  | a :: rest => ⟨a, a⟩ :: ranges rest
  | [] => []

/-- Splits after the members of a class; a bracket that comes first is a member. -/
def classMembers : List Char → Option (List Char × List Char)
  | [] => none
  | c :: rest =>
    match rest.dropWhile (· != ']') with
    | _ :: after => some (c :: rest.takeWhile (· != ']'), after)
    | [] => none

/-- Reads a class after its opening bracket. -/
def readClass : List Char → Option (Part × List Char)
  | '!' :: rest => (classMembers rest).map fun (members, after) => (.except (ranges members), after)
  | rest => (classMembers rest).map fun (members, after) => (.within (ranges members), after)

theorem classMembers_length {s members after : List Char}
    (h : classMembers s = some (members, after)) : after.length < s.length := by
  unfold classMembers at h
  split at h
  · cases h
  · rename_i c rest
    split at h
    · rename_i x after' hd
      cases h
      have := (List.dropWhile_suffix (l := rest) (· != ']')).length_le
      rw [hd] at this
      simp at this ⊢
      omega
    · cases h

theorem readClass_length {s after : List Char} {part : Part}
    (h : readClass s = some (part, after)) : after.length < s.length := by
  unfold readClass at h
  split at h <;> obtain ⟨⟨m, a⟩, hm, he⟩ := Option.map_eq_some_iff.mp h <;> cases he
  · have := classMembers_length hm
    simp; omega
  · exact classMembers_length hm

/-- The parts of a pattern from the character `index` on, behind `last` and the parts `done`, nearest
first. -/
def readParts (index : Nat) (last : Option Char) (done : List Part) (s : List Char) :
    Except Malformed (List Part) :=
  match s with
  | [] => .ok done.reverse
  | '*' :: '*' :: '*' :: _ => .error ⟨.tooManyStars, index + 2⟩
  | '*' :: '*' :: rest =>
    if last.isNone || last == some '/' then
      let done := match done with
        | .anyComponents :: _ :: _ => done
        | _ => .anyComponents :: done
      match rest with
      | [] => .ok done.reverse
      | '/' :: rest => readParts (index + 3) (some '/') done rest
      | _ => .error ⟨.partialComponent, index + 2⟩
    else .error ⟨.partialComponent, index - 1⟩
  | '*' :: rest => readParts (index + 1) (some '*') (.anyRun :: done) rest
  | '?' :: rest => readParts (index + 1) (some '?') (.anyChar :: done) rest
  | '[' :: rest =>
    match h : readClass rest with
    | none => .error ⟨.badClass, index⟩
    | some (part, after) =>
      have := readClass_length h
      readParts (index + 1 + (rest.length - after.length)) (some ']') (part :: done) after
  | c :: rest => readParts (index + 1) (some c) (.char c :: done) rest
termination_by s.length
decreasing_by all_goals simp_all; try omega

def parse (pattern : String) : Except Malformed (List Part) := readParts 0 none [] pattern.toList

/-! ## Matching -/

/-- What a comparison of parts with a text shows. -/
inductive Verdict where
  /-- The parts stand for the whole text. -/
  | fits
  /-- They do not, but they may from a later place on. -/
  | differs
  /-- The text ends too early, and so it does from every later place on. -/
  | tooShort
  deriving DecidableEq, Repr

/-- A verdict, or that from a later place on where it leaves one open. -/
@[macro_inline]
def Verdict.orLater (here later : Verdict) : Verdict :=
  match here with
  | differs => later
  | fits => fits
  | tooShort => tooShort

/-- Compares here and after every character, at last at the end of the text. -/
def afterAny (rest : List Char → Verdict) : List Char → Verdict
  | [] => rest []
  | c :: cs => (rest (c :: cs)).orLater (afterAny rest cs)

/-- Compares after every separator, at last at the end of the text. -/
def afterSeparators (rest : List Char → Verdict) : List Char → Verdict
  | [] => rest []
  | c :: cs =>
    if c == '/' then (rest cs).orLater (afterSeparators rest cs) else afterSeparators rest cs

def matchesOne (part : Part) (c : Char) : Bool :=
  match part with
  | .char d => c == d
  | .anyChar => true
  | .within ranges => ranges.any (·.covers c)
  | .except ranges => !ranges.any (·.covers c)
  | .anyRun | .anyComponents => false

/-- Compares parts with a text from here on. -/
def compareWith : List Part → List Char → Verdict
  | [], [] => .fits
  | [], _ :: _ => .differs
  -- The earliest place that does for the parts up to the next star is as good as any later one: a
  -- star leads from it to every place that a later one leads to, and so do two stars, which begin
  -- and go on after separators only.
  | .anyRun :: parts, s => afterAny (compareWith parts) s
  | .anyComponents :: parts, s =>
    (compareWith parts s).orLater (afterSeparators (compareWith parts) s)
  | part :: parts, c :: s => if matchesOne part c then compareWith parts s else .differs
  | _ :: _, [] => .tooShort

/-- Whether the parts stand for the whole text. -/
def matchesAll (parts : List Part) (s : List Char) : Bool := compareWith parts s == .fits

end TemplateLint.Glob
