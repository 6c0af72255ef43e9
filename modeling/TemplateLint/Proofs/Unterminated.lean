import Mathlib.Data.List.Infix
import TemplateLint.Document.Parse
import TemplateLint.Proofs.Readable

/-!
# Constructs without an end

A template cannot be parsed if some construct in it has no end. Main statement: the position of the
error is the place where such a construct starts, and its message says which kind of construct it is
(`parse_eq_error`).
-/

namespace TemplateLint

open Text

namespace Markup

/-- Each part of a tag reads back before those behind it, and the text ends with the last one. -/
def Unclosed : List TagPart → Prop
  | [] => True
  | part :: rest => part.Fits (rest.flatMap TagPart.text).head? ∧ Unclosed rest

/-- The text is, from its start, a construct without an end; messages call it so. -/
inductive Unended : String → List Char → Prop where
  | erb {o : ErbOpening} {body : List Char}
      (hlongest : ∀ other : ErbOpening, other.text <+: o.text ++ body →
        other.text.length ≤ o.text.length)
      (hopen : ¬ ['%', '>'] <:+: body) : Unended "ERB tag" (o.text ++ body)
  | comment {body : List Char} (hopen : ¬ ['-', '-', '>'] <:+: body) :
      Unended "HTML comment" ('<' :: '!' :: '-' :: '-' :: body)
  | doctype {body : List Char} (hcomment : ¬ ['-', '-'] <+: body) (hopen : '>' ∉ body) :
      Unended "doctype" ('<' :: '!' :: body)
  | closeTag {name blanks rest : List Char} (hname : IsTagName name)
      (hstops : ∀ c ∈ (blanks ++ rest).head?, isNameChar c = false)
      (hblanks : ∀ c ∈ blanks, isBlank c = true)
      (hrest : ∀ c ∈ rest.head?, isBlank c = false ∧ c ≠ '>') :
      Unended "close tag" ('<' :: '/' :: name ++ blanks ++ rest)
  | openTag {name : List Char} {parts : List TagPart} (hname : IsTagName name)
      (hstops : ∀ c ∈ (parts.flatMap TagPart.text).head?, isNameChar c = false)
      (hparts : Unclosed parts) :
      Unended "open tag" ('<' :: name ++ parts.flatMap TagPart.text)
  | attributeValue {quote : Quote} {parts : List ValuePart}
      (hparts : Parts (· != quote.char) parts) :
      Unended "attribute value" (quote.char :: parts.flatMap ValuePart.text)

/-- What a reader fails at: a construct that starts somewhere in the text and has no end. -/
def Unterminated.Within (u : Unterminated) (s : List Char) : Prop :=
  u.rest <:+ s ∧ Unended u.construct.name u.rest

variable {s start : List Char} {u : Unterminated}

theorem Unterminated.Within.append (h : u.Within s) (before : List Char) : u.Within (before ++ s) :=
  ⟨h.1.trans (List.suffix_append before s), h.2⟩

/-! ## Embedded Ruby and values -/

theorem readErbOpening_isSome (h : startsErb s = true) : (readErbOpening s).isSome = true := by
  obtain ⟨rest, rfl⟩ := (startsErb_iff s).mp h
  unfold readErbOpening
  split <;> simp_all

theorem within_of_readErb (hs : startsErb s = true) (h : readErb s = .error u) : u.Within s := by
  unfold readErb at h
  split at h
  · rename_i hnone
    simpa [hnone] using readErbOpening_isSome hs
  · rename_i o body hopening
    split at h
    · rename_i hcut
      cases h
      refine ⟨List.suffix_rfl, ?_⟩
      have htext := append_of_readErbOpening hopening
      subst htext
      exact .erb (fun _ => length_le_of_readErbOpening hopening)
        ((cut_eq_none_iff (by simp) body).mp hcut)
    · cases h

theorem within_of_readQuotedParts {quote : Quote} (h : readQuotedParts quote start s = .error u) :
    u.Within s ∨ u = ⟨.attributeValue, start⟩ ∧ ∃ parts, Parts (· != quote.char) parts ∧
      parts.flatMap ValuePart.text = s ∧
      (s = [] ∨ endsQuotedLiteral quote s = true → ∀ t rest, parts ≠ .literal t :: rest) := by
  fun_induction readQuotedParts quote start s with
  | case1 =>
    cases h
    exact Or.inr ⟨rfl, [], .nil, rfl, by simp⟩
  | case2 => cases h
  | case3 c rest _ herb e he =>
    cases h
    exact Or.inl (within_of_readErb herb he)
  | case4 c rest _ herb tag rest' he _ e hr ih =>
    cases h
    rw [← append_of_readErb he]
    rcases ih hr with hin | ⟨hu, parts, hparts, htext, -⟩
    · exact Or.inl (hin.append _)
    · refine Or.inr ⟨hu, .erb tag :: parts, .erb (closes_of_readErb he) hparts, ?_, by simp⟩
      rw [List.flatMap_cons, htext]
      rfl
  | case5 => cases h
  | case6 c rest hquote herb span _ e hr ih =>
    cases h
    have hspan : c :: rest = c :: span.1 ++ span.2 := by
      rw [List.cons_append, spanUntil_append]
    have hgo : endsQuotedLiteral quote (c :: rest) = false :=
      endsQuotedLiteral_false.mpr ⟨by simpa using hquote, by simpa using herb⟩
    rcases ih hr with hin | ⟨hu, parts, hparts, htext, hnext⟩
    · exact Or.inl (hspan ▸ hin.append _)
    · refine Or.inr ⟨hu, .literal (c :: span.1) :: parts, ?_, ?_, by simp [hgo]⟩
      · exact parts_cons_literal (isLiteral_span (fun _ _ => endsQuotedLiteral_false.mp) hgo) hparts
          (hnext (spanUntil_stop _ rest))
      · rw [List.flatMap_cons, htext, hspan]
        rfl
  | case7 => cases h

theorem within_of_readBareParts (h : readBareParts s = .error u) : u.Within s := by
  fun_induction readBareParts s with
  | case1 => cases h
  | case2 => cases h
  | case3 c rest _ herb e he =>
    cases h
    exact within_of_readErb herb he
  | case4 c rest _ herb tag rest' he _ e hr ih =>
    cases h
    rw [← append_of_readErb he]
    exact (ih hr).append _
  | case5 => cases h
  | case6 c rest _ _ span _ e hr ih =>
    cases h
    have hspan : c :: rest = c :: span.1 ++ span.2 := by
      rw [List.cons_append, spanUntil_append]
    exact hspan ▸ (ih hr).append _
  | case7 => cases h

theorem within_of_readValue (h : readValue s = .error u) : u.Within s := by
  have hquoted (quote : Quote) (rest : List Char)
      (hr : readQuotedParts quote (quote.char :: rest) rest = .error u) :
          u.Within (quote.char :: rest) := by
    rcases within_of_readQuotedParts hr with hin | ⟨rfl, parts, hparts, rfl, -⟩
    · exact hin.append [quote.char]
    · exact ⟨List.suffix_rfl, .attributeValue hparts⟩
  unfold readValue at h
  simp only at h
  split at h
  · rename_i rest
    split at h <;> cases h
    rename_i hr
    exact hquoted .double rest hr
  · rename_i rest
    split at h <;> cases h
    rename_i hr
    exact hquoted .single rest hr
  · split at h <;> cases h
    rename_i hr
    exact within_of_readBareParts hr

theorem within_of_readAttribute (h : readAttribute s = .error u) : u.Within s := by
  rw [← splitAttributeName_append s]
  unfold readAttribute at h
  simp only at h
  split at h
  · rename_i rest heq
    split at h <;> cases h
    rename_i hr
    rw [heq]
    exact ((within_of_readValue hr).append ['=']).append _
  · cases h

/-! ## Tags -/

theorem within_of_readTagParts (h : readTagParts start s = .error u) :
    u.Within s ∨ u = ⟨.openTag, start⟩ ∧ ∃ parts, Unclosed parts ∧
      parts.flatMap TagPart.text = s := by
  fun_induction readTagParts start s with
  | case1 =>
    cases h
    exact Or.inr ⟨rfl, [], trivial, rfl⟩
  | case2 => cases h
  | case3 => cases h
  | case4 c rest _ _ herb e he =>
    cases h
    exact Or.inl (within_of_readErb herb he)
  | case5 c rest _ _ herb tag rest' he _ e hr ih =>
    cases h
    rw [← append_of_readErb he]
    rcases ih hr with hin | ⟨hu, parts, hparts, rfl⟩
    · exact Or.inl (hin.append _)
    · exact Or.inr ⟨hu, .erb tag :: parts, ⟨closes_of_readErb he, hparts⟩, rfl⟩
  | case6 => cases h
  | case7 c rest _ _ _ hblank _ e hr ih =>
    cases h
    have hspan : c :: rest = (c :: rest.takeWhile isBlank) ++ rest.dropWhile isBlank := by simp
    rw [hspan]
    rcases ih hr with hin | ⟨hu, parts, hparts, htext⟩
    · exact Or.inl (hin.append _)
    · refine Or.inr ⟨hu, .blank (c :: rest.takeWhile isBlank) :: parts,
        ⟨⟨by simp, ?_, ?_⟩, hparts⟩, ?_⟩
      · rw [List.forall_mem_cons]
        exact ⟨hblank, fun x => List.mem_takeWhile_imp⟩
      · rw [htext]
        exact fun x => of_dropWhile
      · rw [List.flatMap_cons, htext]
        rfl
  | case8 => cases h
  | case9 c rest _ _ herb hblank e he =>
    cases h
    exact Or.inl (within_of_readAttribute he)
  | case10 c rest hself hclose herb hblank attr rest' he _ e hr ih =>
    cases h
    have htext := append_of_readAttribute he
    rcases ih hr with hin | ⟨hu, parts, hparts, rfl⟩
    · exact Or.inl (htext ▸ hin.append _)
    · have hfits := fits_of_readAttribute he
      refine Or.inr ⟨hu, .attr attr :: parts, ⟨⟨hfits, ?_⟩, hparts⟩, htext⟩
      apply StartsAttribute.congr (Attribute.text_ne_nil hfits.1.1) (head?_toList_head? _).symm
      rw [htext]
      exact startsAttribute_cons hself hclose herb hblank
  | case11 => cases h

theorem within_of_readOpenTag (hs : Start.of s = .openTag) (h : readOpenTag s = .error u) :
    u.Within s := by
  obtain ⟨c, rest, rfl, hc⟩ := start_eq_openTag hs
  unfold readOpenTag at h
  simp only [List.drop_succ_cons, List.drop_zero] at h
  split at h <;> cases h
  rename_i hr
  have hspan : '<' :: c :: rest = '<' :: (c :: rest).takeWhile isNameChar ++
      (c :: rest).dropWhile isNameChar := by
    rw [List.cons_append, List.takeWhile_append_dropWhile]
  rcases within_of_readTagParts hr with hin | ⟨rfl, parts, hparts, htext⟩
  · exact hspan ▸ hin.append _
  · refine ⟨List.suffix_rfl, ?_⟩
    rw [hspan, ← htext]
    refine .openTag (isTagName_takeWhile hc rest) ?_ hparts
    rw [htext]
    exact fun x => of_dropWhile

theorem within_of_readCloseTag (hs : Start.of s = .closeTag) (h : readCloseTag s = .error u) :
    u.Within s := by
  obtain ⟨c, rest, rfl, hc⟩ := start_eq_closeTag hs
  unfold readCloseTag at h
  simp only [List.drop_succ_cons, List.drop_zero] at h
  split at h <;> cases h
  rename_i hmark
  have hspan : '<' :: '/' :: c :: rest = '<' :: '/' :: (c :: rest).takeWhile isNameChar ++
      ((c :: rest).dropWhile isNameChar).takeWhile isBlank ++
        ((c :: rest).dropWhile isNameChar).dropWhile isBlank := by
    simp [List.takeWhile_append_dropWhile]
  refine ⟨List.suffix_rfl, ?_⟩
  rw [hspan]
  refine .closeTag (isTagName_takeWhile hc rest) ?_ (fun x => List.mem_takeWhile_imp) ?_
  · rw [List.takeWhile_append_dropWhile]
    exact fun x => of_dropWhile
  · intro x hx
    obtain ⟨tail, htail⟩ := List.head?_eq_some_iff.mp hx
    exact ⟨of_dropWhile hx, fun heq => hmark tail (heq ▸ htail)⟩

/-! ## Whole templates -/

theorem within_of_readComment (hs : Start.of s = .comment) (h : readComment s = .error u) :
    u.Within s := by
  obtain ⟨body, rfl⟩ := Start.opening_of.1 hs
  unfold readComment at h
  split at h <;> cases h
  rename_i hcut
  rw [List.drop_left, cut_eq_none_iff (by decide)] at hcut
  exact ⟨List.suffix_rfl, .comment hcut⟩

theorem within_of_readDoctype (hs : Start.of s = .doctype) (h : readDoctype s = .error u) :
    u.Within s := by
  obtain ⟨body, rfl⟩ := Start.opening_of.2.1 hs
  unfold readDoctype at h
  split at h <;> cases h
  rename_i hcut
  rw [List.drop_left, cut_eq_none_iff (by decide)] at hcut
  refine ⟨List.suffix_rfl,
    .doctype (fun hdashes => ?_) (mt (List.singleton_infix_iff '>' body).mpr hcut)⟩
  have hstart : Start.of (doctypeOpening ++ body) = .comment :=
    (start_doctype body).trans (if_pos hdashes)
  cases hs.symm.trans hstart

theorem startsErb_of_start (h : Start.of s = .erb) : startsErb s = true := by
  unfold Start.of at h
  split at h <;> try split at h
  all_goals first | rfl | cases h

theorem within_of_readMarkup (h : readMarkup s = .error u) : u.Within s := by
  have herror {α : Type} {f : α × List Char → Piece × List Char} {r : Read α}
      (hr : r.map f = .error u) : r = .error u := by
    cases r with
    | error e =>
      cases hr
      rfl
    | ok a => cases hr
  unfold readMarkup at h
  split at h
  · rename_i hs
    exact within_of_readErb (startsErb_of_start hs) (herror h)
  · rename_i hs
    exact within_of_readComment hs (herror h)
  · rename_i hs
    exact within_of_readDoctype hs (herror h)
  · rename_i hs
    exact within_of_readCloseTag hs (herror h)
  · rename_i hs
    exact within_of_readOpenTag hs (herror h)
  · split at h <;> cases h

theorem within_of_readPiece {open_ : Nesting} (h : readPiece open_ s = .error u) : u.Within s := by
  unfold readPiece at h
  split at h
  · exact within_of_readMarkup h
  · simp only at h
    split at h
    · exact within_of_readMarkup h
    · cases h

theorem within_of_readPieces {open_ : Nesting} (h : readPieces open_ s = .error u) :
    u.Within s := by
  fun_induction readPieces open_ s with
  | case1 => cases h
  | case2 open_ c rest e he =>
    cases h
    exact within_of_readPiece he
  | case3 open_ c rest piece left he _ e hr ih =>
    cases h
    rw [← append_of_readPiece he]
    exact (ih hr).append _
  | case4 => cases h

end Markup

open Markup

/-- The error of a template that cannot be parsed names a construct that starts there and has no
end. -/
theorem parse_eq_error {source : String} {keep : Bool} {e : ParseError}
    (h : Document.parse source keep = .error e) :
    ∃ before rest, source.toList = before ++ rest ∧ e.position = Position.start.advance before ∧
      ∃ construct, e.message =
          s!"unterminated {construct} at line {e.position.line}, column {e.position.column}" ∧
        Unended construct rest := by
  unfold Document.parse at h
  split at h <;> cases h
  rename_i u hread
  obtain ⟨⟨before, hbefore⟩, hunended⟩ := within_of_readPieces hread
  refine ⟨before, u.rest, hbefore.symm, ?_, u.construct.name, rfl, hunended⟩
  rw [ParseError.ofUnterminated, ← hbefore]
  simp

/-- The quote of a value stands again in embedded Ruby only. -/
def unclosedValue : String := "é\n<p a='<% ' %>b>"

theorem parse_eq_error_unclosedValue : ∃ e, Document.parse unclosedValue false = .error e ∧
    e.message = "unterminated attribute value at line 2, column 5" ∧
    ∃ before rest, unclosedValue.toList = before ++ rest ∧
      e.position = Position.start.advance before ∧
      ∃ construct, e.message =
          s!"unterminated {construct} at line {e.position.line}, column {e.position.column}" ∧
        Unended construct rest := by
  have hmessage : (match Document.parse unclosedValue false with
      | .error e => e.message
      | .ok _ => "") = "unterminated attribute value at line 2, column 5" := by
    decide +kernel
  cases hparse : Document.parse unclosedValue false with
  | error e =>
    rw [hparse] at hmessage
    exact ⟨e, rfl, hmessage, parse_eq_error hparse⟩
  | ok d => simp [hparse] at hmessage

end TemplateLint
