import TemplateLint.Markup.Reader.Attribute

/-!
# Reading pieces

A template is read piece by piece; which elements are open decides whether a piece is raw text.
Main statement: the pieces of a template that can be read join to its text (`source_readPieces`).
-/

namespace TemplateLint.Markup

open Text

/-! ## Open tags -/

/-- Reads what an open tag that starts at `start` holds after its name, and whether it closes
itself. -/
def readTagParts (start s : List Char) : Read (List TagPart × Bool) :=
  match s with
  | [] => .error ⟨.openTag, start⟩
  | '/' :: '>' :: rest => .ok (([], true), rest)
  | '>' :: rest => .ok (([], false), rest)
  | c :: rest =>
    if startsErb (c :: rest) then
      match h : readErb (c :: rest) with
      | .error e => .error e
      | .ok (tag, rest') =>
        have := length_lt_of_append (append_of_readErb h) tag.text_ne_nil
        match readTagParts start rest' with
        | .error e => .error e
        | .ok ((parts, closes), left) => .ok ((.erb tag :: parts, closes), left)
    else if isBlank c then
      have := (List.dropWhile_suffix (l := rest) isBlank).length_le
      match readTagParts start (rest.dropWhile isBlank) with
      | .error e => .error e
      | .ok ((parts, closes), left) =>
        .ok ((.blank (c :: rest.takeWhile isBlank) :: parts, closes), left)
    else
      match h : readAttribute (c :: rest) with
      | .error e => .error e
      | .ok (attr, rest') =>
        have := length_lt_of_append (append_of_readAttribute h) (text_ne_nil_of_readAttribute h)
        match readTagParts start rest' with
        | .error e => .error e
        | .ok ((parts, closes), left) => .ok ((.attr attr :: parts, closes), left)
termination_by s.length
decreasing_by all_goals simp_all; try omega

theorem append_of_readTagParts {start s left : List Char} {parts : List TagPart} {closes : Bool}
    (h : readTagParts start s = .ok ((parts, closes), left)) :
    parts.flatMap TagPart.text ++ (if closes then ['/', '>'] else ['>']) ++ left = s := by
  fun_induction readTagParts start s generalizing parts with
  | case1 => cases h
  | case2 => cases h; rfl
  | case3 => cases h; rfl
  | case4 => cases h
  | case5 => cases h
  | case6 c rest _ _ _ tag rest' he _ inner closes' left' hr ih =>
    cases h
    rw [← append_of_readErb he, ← ih hr]
    simp [TagPart.text]
  | case7 => cases h
  | case8 c rest _ _ _ _ _ inner closes' left' hr ih =>
    cases h
    have := ih hr
    simp only [List.flatMap_cons, TagPart.text, List.append_assoc, List.cons_append] at this ⊢
    rw [this, List.takeWhile_append_dropWhile]
  | case9 => cases h
  | case10 => cases h
  | case11 c rest _ _ _ _ attr rest' he _ inner closes' left' hr ih =>
    cases h
    rw [← append_of_readAttribute he, ← ih hr]
    simp [TagPart.text]

/-- Reads an open tag; `s` starts with `<` and a letter. -/
def readOpenTag (s : List Char) : Read OpenTag :=
  let afterName := (s.drop 1).dropWhile isNameChar
  match readTagParts s afterName with
  | .error e => .error e
  | .ok ((parts, closes), left) => .ok (⟨(s.drop 1).takeWhile isNameChar, parts, closes⟩, left)

/-! ## Other pieces -/

/-- Reads a close tag; `s` starts with `</` and a letter. -/
def readCloseTag (s : List Char) : Read CloseTag :=
  let afterName := (s.drop 2).dropWhile isNameChar
  match afterName.dropWhile isBlank with
  | '>' :: left => .ok (⟨(s.drop 2).takeWhile isNameChar, afterName.takeWhile isBlank⟩, left)
  | _ => .error ⟨.closeTag, s⟩

/-- Reads a comment; `s` starts with its opening. -/
def readComment (s : List Char) : Read (List Char) :=
  match cut commentClosing (s.drop commentOpening.length) with
  | some r => .ok r
  | none => .error ⟨.comment, s⟩

/-- Reads a doctype; `s` starts with its opening. -/
def readDoctype (s : List Char) : Read (List Char) :=
  match cut doctypeClosing (s.drop doctypeOpening.length) with
  | some r => .ok r
  | none => .error ⟨.doctype, s⟩

theorem append_of_readOpenTag {s left : List Char} {t : OpenTag} (hs : ['<'] <+: s)
    (h : readOpenTag s = .ok (t, left)) : t.text ++ left = s := by
  obtain ⟨rest, rfl⟩ := hs
  unfold readOpenTag at h
  simp only at h
  split at h <;> cases h
  rename_i hp
  have := append_of_readTagParts hp
  simp_all [OpenTag.text, OpenTag.closing]

theorem append_of_readCloseTag {s left : List Char} {t : CloseTag} (hs : ['<', '/'] <+: s)
    (h : readCloseTag s = .ok (t, left)) : t.text ++ left = s := by
  obtain ⟨rest, rfl⟩ := hs
  unfold readCloseTag at h
  simp only at h
  split at h <;> cases h
  rename_i hp
  simp_all [CloseTag.text, ← hp]

theorem append_of_readComment {s left t : List Char} (hs : commentOpening <+: s)
    (h : readComment s = .ok (t, left)) : commentOpening ++ t ++ commentClosing ++ left = s := by
  obtain ⟨rest, rfl⟩ := hs
  unfold readComment at h
  split at h <;> cases h
  rename_i hc
  simpa using append_of_cut hc

theorem append_of_readDoctype {s left t : List Char} (hs : doctypeOpening <+: s)
    (h : readDoctype s = .ok (t, left)) : doctypeOpening ++ t ++ doctypeClosing ++ left = s := by
  obtain ⟨rest, rfl⟩ := hs
  unfold readDoctype at h
  split at h <;> cases h
  rename_i hc
  simpa using append_of_cut hc

/-- What a place of a template starts with. -/
inductive Start where
  | erb
  | comment
  | doctype
  | closeTag
  | openTag
  | text
  deriving DecidableEq, Repr

def Start.of : List Char → Start
  | '<' :: '%' :: _ => .erb
  | '<' :: '!' :: '-' :: '-' :: _ => .comment
  | '<' :: '!' :: _ => .doctype
  | '<' :: '/' :: c :: _ => if isAsciiLetter c then .closeTag else .text
  | '<' :: c :: _ => if isAsciiLetter c then .openTag else .text
  | _ => .text

/-- Reads the piece that starts here, outside raw text. -/
def readMarkup (s : List Char) : Read Piece :=
  match Start.of s with
  | .erb => (readErb s).map fun (e, left) => (.erb e, left)
  | .comment => (readComment s).map fun (t, left) => (.comment t, left)
  | .doctype => (readDoctype s).map fun (t, left) => (.doctype t, left)
  | .closeTag => (readCloseTag s).map fun (t, left) => (.closeTag t, left)
  | .openTag => (readOpenTag s).map fun (t, left) => (.openTag t, left)
  | .text =>
    match s with
    | [] => .ok (.text [], [])
    | c :: rest =>
      .ok (.text (c :: (spanUntil startsConstruct rest).1), (spanUntil startsConstruct rest).2)

/-- Reads the next piece inside the elements `open_`. -/
def readPiece (open_ : Nesting) (s : List Char) : Read Piece :=
  match open_.rawText? with
  | none => readMarkup s
  | some name =>
    let span := spanUntil (endsRawText name) s
    if span.1.isEmpty then readMarkup s else .ok (.text span.1, span.2)

theorem Start.opening_of {s : List Char} :
    (Start.of s = .comment → commentOpening <+: s) ∧
      (Start.of s = .doctype → doctypeOpening <+: s) ∧
      (Start.of s = .closeTag → ['<', '/'] <+: s) ∧ (Start.of s = .openTag → ['<'] <+: s) := by
  unfold Start.of
  split <;> simp [commentOpening, doctypeOpening] <;> split <;> simp

theorem append_of_readMarkup {s left : List Char} {p : Piece} (h : readMarkup s = .ok (p, left)) :
    p.source ++ left = s := by
  have hp := @Start.opening_of s
  unfold readMarkup at h
  split at h
  · cases hr : readErb s with
    | error e => simp [hr, Except.map] at h
    | ok r => simp [hr, Except.map] at h; obtain ⟨rfl, rfl⟩ := h; exact append_of_readErb hr
  · rename_i hs
    cases hr : readComment s with
    | error e => simp [hr, Except.map] at h
    | ok r =>
      simp [hr, Except.map] at h
      obtain ⟨rfl, rfl⟩ := h
      simpa [Piece.source] using append_of_readComment (hp.1 hs) hr
  · rename_i hs
    cases hr : readDoctype s with
    | error e => simp [hr, Except.map] at h
    | ok r =>
      simp [hr, Except.map] at h
      obtain ⟨rfl, rfl⟩ := h
      simpa [Piece.source] using append_of_readDoctype (hp.2.1 hs) hr
  · rename_i hs
    cases hr : readCloseTag s with
    | error e => simp [hr, Except.map] at h
    | ok r =>
      simp [hr, Except.map] at h
      obtain ⟨rfl, rfl⟩ := h
      exact append_of_readCloseTag (hp.2.2.1 hs) hr
  · rename_i hs
    cases hr : readOpenTag s with
    | error e => simp [hr, Except.map] at h
    | ok r =>
      simp [hr, Except.map] at h
      obtain ⟨rfl, rfl⟩ := h
      exact append_of_readOpenTag (hp.2.2.2 hs) hr
  · split at h <;> cases h
    · rfl
    · simp [Piece.source]

theorem append_of_readPiece {open_ : Nesting} {s left : List Char} {p : Piece}
    (h : readPiece open_ s = .ok (p, left)) : p.source ++ left = s := by
  unfold readPiece at h
  split at h
  · exact append_of_readMarkup h
  · simp only at h
    split at h
    · exact append_of_readMarkup h
    · cases h
      simp [Piece.source]

theorem source_ne_nil_of_readMarkup {c : Char} {rest left : List Char} {p : Piece}
    (h : readMarkup (c :: rest) = .ok (p, left)) : p.source ≠ [] := by
  unfold readMarkup at h
  split at h
  · cases hr : readErb (c :: rest) with
    | error e => simp [hr, Except.map] at h
    | ok r => simp [hr, Except.map] at h; obtain ⟨rfl, rfl⟩ := h; exact Erb.text_ne_nil _
  · cases hr : readComment (c :: rest) with
    | error e => simp [hr, Except.map] at h
    | ok r =>
      simp [hr, Except.map] at h
      obtain ⟨rfl, rfl⟩ := h
      simp [Piece.source, commentOpening]
  · cases hr : readDoctype (c :: rest) with
    | error e => simp [hr, Except.map] at h
    | ok r =>
      simp [hr, Except.map] at h
      obtain ⟨rfl, rfl⟩ := h
      simp [Piece.source, doctypeOpening]
  · cases hr : readCloseTag (c :: rest) with
    | error e => simp [hr, Except.map] at h
    | ok r =>
      simp [hr, Except.map] at h
      obtain ⟨rfl, rfl⟩ := h
      simp [Piece.source, CloseTag.text]
  · cases hr : readOpenTag (c :: rest) with
    | error e => simp [hr, Except.map] at h
    | ok r =>
      simp [hr, Except.map] at h
      obtain ⟨rfl, rfl⟩ := h
      simp [Piece.source, OpenTag.text]
  · cases h
    simp [Piece.source]

theorem source_ne_nil_of_readPiece {open_ : Nesting} {c : Char} {rest left : List Char} {p : Piece}
    (h : readPiece open_ (c :: rest) = .ok (p, left)) : p.source ≠ [] := by
  unfold readPiece at h
  split at h
  · exact source_ne_nil_of_readMarkup h
  · simp only at h
    split at h
    · exact source_ne_nil_of_readMarkup h
    · rename_i hne
      cases h
      simpa [Piece.source] using hne

/-! ## Whole templates -/

/-- Reads all pieces inside the elements `open_`. -/
def readPieces (open_ : Nesting) (s : List Char) : Except Unterminated (List Piece) :=
  match s with
  | [] => .ok []
  | c :: rest =>
    match h : readPiece open_ (c :: rest) with
    | .error e => .error e
    | .ok (piece, left) =>
      have := length_lt_of_append (append_of_readPiece h) (source_ne_nil_of_readPiece h)
      match readPieces (open_.after piece) left with
      | .error e => .error e
      | .ok pieces => .ok (piece :: pieces)
termination_by s.length
decreasing_by assumption

theorem source_readPieces {open_ : Nesting} {s : List Char} {pieces : List Piece}
    (h : readPieces open_ s = .ok pieces) : pieces.flatMap Piece.source = s := by
  fun_induction readPieces open_ s generalizing pieces with
  | case1 => cases h; rfl
  | case2 => cases h
  | case3 => cases h
  | case4 open_ c rest piece left he _ inner hr ih =>
    cases h
    rw [← append_of_readPiece he, ← ih hr]
    rfl

end TemplateLint.Markup
