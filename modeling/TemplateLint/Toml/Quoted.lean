import TemplateLint.Toml.Digits
import TemplateLint.Toml.Space

/-!
# Quoted text

A text stands on one line between single marks, or over several lines between triple ones. With
double marks a backslash begins an escape; with single marks every character stands for itself.
-/

namespace TemplateLint.Toml

/-! ## Escapes -/

/-- The character of a code written with so many digits. -/
def readCode (width : Nat) (cs : List Char) : Option (Char × List Char) :=
  let digits := cs.take width
  let code := digitsValue 16 digits
  if digits.length = width && digits.all isHex && decide code.isValidChar then
    some (Char.ofNat code, cs.drop width)
  else none

/-- The character that a backslash and what follows it stand for. -/
def readEscape : List Char → Option (Char × List Char)
  | [] => none
  | c :: rest =>
    match c with
    | 'b' => some ('\x08', rest)
    | 't' => some ('\t', rest)
    | 'n' => some ('\n', rest)
    | 'f' => some ('\x0c', rest)
    | 'r' => some ('\r', rest)
    | '"' => some ('"', rest)
    | '\\' => some ('\\', rest)
    | 'u' => readCode 4 rest
    | 'U' => readCode 8 rest
    | _ => none

theorem readCode_length_le {width : Nat} {cs rest : List Char} {c : Char}
    (h : readCode width cs = some (c, rest)) : rest.length ≤ cs.length := by
  simp only [readCode] at h
  split at h
  · simp only [Option.some.injEq, Prod.mk.injEq] at h
    rw [← h.2, List.length_drop]
    omega
  · simp at h

theorem readCode_length_lt {width : Nat} {cs rest : List Char} {c d : Char}
    (h : readCode width cs = some (c, rest)) : rest.length < (d :: cs).length :=
  Nat.lt_succ_of_le (readCode_length_le h)

theorem readEscape_length_lt {cs rest : List Char} {c : Char}
    (h : readEscape cs = some (c, rest)) : rest.length < cs.length := by
  unfold readEscape at h
  split at h
  · simp at h
  · split at h
    case h_8 | h_9 => exact readCode_length_lt h
    case h_10 => simp at h
    all_goals
      simp only [Option.some.injEq, Prod.mk.injEq] at h
      simp [h.2]

/-! ## One line -/

/-- Reads up to the closing mark, which must be on the same line. -/
def readShort (mark : Char) (escapes : Bool) (cs : List Char) : Option (List Char × List Char) :=
  match cs with
  | [] => none
  | c :: rest =>
    if c = mark then some ([], rest)
    else if escapes && c = '\\' then
      match h : readEscape rest with
      | none => none
      | some (char, after) =>
        have : after.length < (c :: rest).length := Nat.lt_succ_of_lt (readEscape_length_lt h)
        (readShort mark escapes after).map fun (text, rest) => (char :: text, rest)
    else if isPrintable c then (readShort mark escapes rest).map fun (text, rest) =>
      (c :: text, rest)
    else none
termination_by cs.length
decreasing_by
  · assumption
  · exact Nat.lt_succ_self _

/-! ## Several lines -/

theorem skipLines_length_le (cs : List Char) : (skipLines cs).length ≤ cs.length := by
  fun_induction skipLines cs with
  | case1 rest ih => simp only [List.length_cons]; omega
  | case2 c rest _ _ ih => simp only [List.length_cons]; omega
  | case3 => exact Nat.le_refl _
  | case4 => exact Nat.le_refl _

theorem afterNewline?_length_lt {cs rest : List Char} (h : afterNewline? cs = some rest) :
    rest.length < cs.length := by
  unfold afterNewline? at h
  split at h
  · simp only [Option.some.injEq] at h
    simp [h]
  · simp only [Option.some.injEq] at h
    simp only [h, List.length_cons]
    omega
  · simp at h

/-- What follows a backslash that stands at the end of a line, with all the blank lines after it. -/
def afterBreak? (cs : List Char) : Option (List Char) :=
  (afterNewline? (skipSpaces cs)).map skipLines

theorem afterBreak?_length_lt {cs rest : List Char} (h : afterBreak? cs = some rest) :
    rest.length < cs.length := by
  obtain ⟨line, hline, rfl⟩ := Option.map_eq_some_iff.1 h
  have h₁ := afterNewline?_length_lt hline
  have h₂ := skipLines_length_le line
  have h₃ : (skipSpaces cs).length ≤ cs.length := (List.dropWhile_suffix _).length_le
  omega

/-- One step inside a text over several lines: what it adds to the text, and the rest. -/
def readPart (escapes : Bool) (cs : List Char) : Option (List Char × List Char) :=
  match cs with
  | [] => none
  | c :: rest =>
    match afterNewline? (c :: rest) with
    | some after => some (['\n'], after)
    | none =>
      if escapes && c = '\\' then
        match afterBreak? rest with
        | some after => some ([], after)
        | none => (readEscape rest).map fun (char, after) => ([char], after)
      else if isPrintable c then some ([c], rest)
      else none

theorem readPart_length_lt {escapes : Bool} {cs part rest : List Char}
    (h : readPart escapes cs = some (part, rest)) : rest.length < cs.length := by
  unfold readPart at h
  split at h
  · simp at h
  · rename_i c tail
    split at h
    · rename_i after hafter
      simp only [Option.some.injEq, Prod.mk.injEq] at h
      exact h.2 ▸ afterNewline?_length_lt hafter
    · split at h
      · split at h
        · rename_i after hafter
          have := afterBreak?_length_lt hafter
          simp only [Option.some.injEq, Prod.mk.injEq] at h
          simp only [← h.2, List.length_cons]
          omega
        · obtain ⟨⟨char, after⟩, hescape, heq⟩ := Option.map_eq_some_iff.1 h
          have := readEscape_length_lt hescape
          simp only [Prod.mk.injEq] at heq
          simp only [← heq.2, List.length_cons]
          omega
      · split at h
        · simp only [Option.some.injEq, Prod.mk.injEq] at h
          simp [h.2]
        · simp at h

/-- Reads up to three closing marks. One or two marks are text, also right before the closing. -/
def readLong (mark : Char) (escapes : Bool) (cs : List Char) : Option (List Char × List Char) :=
  let marks := cs.takeWhile (· = mark)
  let rest := cs.dropWhile (· = mark)
  if 6 ≤ marks.length then none
  else if 3 ≤ marks.length then some (marks.drop 3, rest)
  else
    match h : readPart escapes rest with
    | none => none
    | some (part, after) =>
      have : after.length < cs.length := by
        have h₁ := readPart_length_lt h
        have h₂ : rest.length ≤ cs.length := (List.dropWhile_suffix _).length_le
        omega
      (readLong mark escapes after).map fun (text, rest) => (marks ++ part ++ text, rest)
termination_by cs.length

/-! ## Any text -/

/-- Reads a text, whichever marks it has; an end of line right after three marks is dropped. -/
def readText : List Char → Option (List Char × List Char)
  | '"' :: '"' :: '"' :: rest => readLong '"' true ((afterNewline? rest).getD rest)
  | '\'' :: '\'' :: '\'' :: rest => readLong '\'' false ((afterNewline? rest).getD rest)
  | '"' :: rest => readShort '"' true rest
  | '\'' :: rest => readShort '\'' false rest
  | _ => none

end TemplateLint.Toml
