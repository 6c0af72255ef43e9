import TemplateLint.Proofs.Grammar
import TemplateLint.Proofs.Letters

/-!
# Readable lists of pieces

Pieces are readable inside some open elements if each of them reads back where it stands: a text
stops where it is told to, and any other piece starts where a text would stop. Main statement: these
are the lists that a reader gives (`readPieces_eq_ok_iff`).
-/

namespace TemplateLint.Markup

open Text

/-! ## Tags -/

/-- The name of a tag: it starts with a letter and is a run of name characters. -/
def IsTagName (name : List Char) : Prop :=
  (∃ c rest, name = c :: rest ∧ isAsciiLetter c = true) ∧ ∀ c ∈ name, isNameChar c = true

structure OpenTag.Fits (t : OpenTag) : Prop where
  name : IsTagName t.name
  stops : ∀ c, (t.parts.flatMap TagPart.text ++ t.closing).head? = some c → isNameChar c = false
  chained : Chained t.selfClosing t.parts

structure CloseTag.Fits (t : CloseTag) : Prop where
  name : IsTagName t.name
  blank : ∀ c ∈ t.trailing, isBlank c = true

/-- The piece is no text and is read as it is, whatever comes behind it. -/
def Piece.Closed (p : Piece) : Prop := ∀ later, readMarkup (p.source ++ later) = .ok (p, later)

theorem span_append {p : Char → Bool} {a b : List Char} (ha : ∀ c ∈ a, p c = true)
    (hb : ∀ c, b.head? = some c → p c = false) :
    (a ++ b).takeWhile p = a ∧ (a ++ b).dropWhile p = b := by
  have hstop : b.takeWhile p = [] ∧ b.dropWhile p = b := by
    cases b with
    | nil => simp
    | cons x tail => simp [hb x rfl]
  rw [List.takeWhile_append_of_pos ha, List.dropWhile_append_of_pos ha, hstop.1,
    hstop.2, List.append_nil]
  exact ⟨rfl, rfl⟩

theorem of_dropWhile {p : Char → Bool} {s : List Char} {c : Char}
    (h : (s.dropWhile p).head? = some c) :
    p c = false := by
  have := List.head?_dropWhile_not p s
  rw [h] at this
  simpa using this

theorem start_letter {c : Char} (hc : isAsciiLetter c = true) (rest : List Char) :
    Start.of ('<' :: c :: rest) = .openTag ∧ Start.of ('<' :: '/' :: c :: rest) = .closeTag := by
  have hmark : c ≠ '%' ∧ c ≠ '!' ∧ c ≠ '/' := by
    refine ⟨?_, ?_, ?_⟩ <;> rintro rfl <;> exact absurd hc (by decide)
  simp [Start.of, hmark, hc]

theorem OpenTag.Fits.closed {t : OpenTag} (h : t.Fits) : (Piece.openTag t).Closed := by
  obtain ⟨⟨⟨c, rest, hname, hc⟩, hall⟩, hstops, hchained⟩ := h
  obtain ⟨name, parts, closes⟩ := t
  simp only at hname hall hchained
  intro later
  have hstops' : ∀ x, (parts.flatMap TagPart.text ++ tagClosing closes ++ later).head? = some x →
      isNameChar x = false := by
    intro x hx
    rw [head?_append_closing] at hx
    exact hstops x hx
  have hspan := span_append hall hstops'
  have hsource : (Piece.openTag ⟨name, parts, closes⟩).source ++ later =
      '<' :: (name ++ (parts.flatMap TagPart.text ++ tagClosing closes ++ later)) := by
    simp [Piece.source, OpenTag.text, OpenTag.closing, tagClosing]
  rw [hsource, readMarkup]
  have hstart :=
    (start_letter hc (rest ++ (parts.flatMap TagPart.text ++ tagClosing closes ++ later))).1
  rw [← List.cons_append, ← hname] at hstart
  rw [hstart]
  simp only [readOpenTag, List.drop_succ_cons, List.drop_zero, hspan,
    readTagParts_of_chained hchained]
  rfl

theorem CloseTag.Fits.closed {t : CloseTag} (h : t.Fits) : (Piece.closeTag t).Closed := by
  obtain ⟨⟨⟨c, rest, hname, hc⟩, hall⟩, hblank⟩ := h
  obtain ⟨name, trailing⟩ := t
  simp only at hname hall hblank
  intro later
  have hend : ∀ x, ('>' :: later).head? = some x → isBlank x = false := by
    intro x hx
    obtain rfl : '>' = x := by simpa using hx
    decide
  have hstops : ∀ x, (trailing ++ '>' :: later).head? = some x → isNameChar x = false := by
    intro x hx
    cases trailing with
    | nil =>
      obtain rfl : '>' = x := by simpa using hx
      decide
    | cons b _ =>
      obtain rfl : b = x := by simpa using hx
      simp [isNameChar, hblank b List.mem_cons_self]
  have hspan := span_append hall hstops
  have hspan' := span_append hblank hend
  have hsource : (Piece.closeTag ⟨name, trailing⟩).source ++ later =
      '<' :: '/' :: (name ++ (trailing ++ '>' :: later)) := by
    simp [Piece.source, CloseTag.text]
  rw [hsource, readMarkup]
  have hstart := (start_letter hc (rest ++ (trailing ++ '>' :: later))).2
  rw [← List.cons_append, ← hname] at hstart
  rw [hstart]
  simp only [readCloseTag, List.drop_succ_cons, List.drop_zero, hspan, hspan']
  rfl

/-! ## What a reader gives -/

theorem isTagName_takeWhile {c : Char} (hc : isAsciiLetter c = true) (rest : List Char) :
    IsTagName ((c :: rest).takeWhile isNameChar) := by
  refine ⟨⟨c, rest.takeWhile isNameChar, ?_, hc⟩, fun x hx => List.mem_takeWhile_imp hx⟩
  rw [List.takeWhile_cons_of_pos (isNameChar_of_isAsciiLetter hc)]

theorem start_eq_openTag {s : List Char} (h : Start.of s = .openTag) :
    ∃ c rest, s = '<' :: c :: rest ∧ isAsciiLetter c = true := by
  unfold Start.of at h
  split at h <;> try split at h
  all_goals first | exact ⟨_, _, rfl, by assumption⟩ | cases h

theorem start_eq_closeTag {s : List Char} (h : Start.of s = .closeTag) :
    ∃ c rest, s = '<' :: '/' :: c :: rest ∧ isAsciiLetter c = true := by
  unfold Start.of at h
  split at h <;> try split at h
  all_goals first | exact ⟨_, _, rfl, by assumption⟩ | cases h

theorem fits_of_readOpenTag {s left : List Char} {t : OpenTag} (hs : Start.of s = .openTag)
    (h : readOpenTag s = .ok (t, left)) : t.Fits := by
  obtain ⟨c, rest, rfl, hc⟩ := start_eq_openTag hs
  unfold readOpenTag at h
  simp only [List.drop_succ_cons, List.drop_zero] at h
  split at h <;> cases h
  rename_i parts closes hp
  refine ⟨isTagName_takeWhile hc rest, ?_, chained_of_readTagParts hp⟩
  intro x hx
  have htext := append_of_readTagParts hp
  apply of_dropWhile (s := c :: rest)
  rw [← htext]
  exact (head?_append_closing _ _ _).trans hx

theorem fits_of_readCloseTag {s left : List Char} {t : CloseTag} (hs : Start.of s = .closeTag)
    (h : readCloseTag s = .ok (t, left)) : t.Fits := by
  obtain ⟨c, rest, rfl, hc⟩ := start_eq_closeTag hs
  unfold readCloseTag at h
  simp only [List.drop_succ_cons, List.drop_zero] at h
  split at h <;> cases h
  exact ⟨isTagName_takeWhile hc rest, fun x hx => List.mem_takeWhile_imp hx⟩

/-- The piece is no text and reads back anywhere outside raw text. -/
def Piece.Fits : Piece → Prop
  | .text _ => False
  | .openTag t => t.Fits
  | .closeTag t => t.Fits
  | p => p.Closed

theorem Piece.Fits.closed {p : Piece} (h : p.Fits) : p.Closed := by
  cases p with
  | text t => exact h.elim
  | openTag t => exact OpenTag.Fits.closed h
  | closeTag t => exact CloseTag.Fits.closed h
  | erb e => exact h
  | comment t => exact h
  | doctype t => exact h

theorem closed_of_readComment {s left t : List Char} (hs : Start.of s = .comment)
    (h : readComment s = .ok (t, left)) : (Piece.comment t).Closed := by
  intro later
  have hopening := Start.opening_of.1 hs
  obtain ⟨body, rfl⟩ := hopening
  unfold readComment at h
  split at h <;> cases h
  rename_i hcut
  simp only [List.drop_left] at hcut
  have hbody := append_of_cut hcut
  subst hbody
  have hread := cut_append (by decide) hcut later
  have hsource : (Piece.comment t).source ++ later = commentOpening ++
      (t ++ commentClosing ++ later) := by
    simp [Piece.source]
  have hstart : Start.of (commentOpening ++ (t ++ commentClosing ++ later)) = .comment := rfl
  rw [hsource, readMarkup.eq_def, hstart]
  simp only [readComment, List.drop_left, hread]
  rfl

theorem start_doctype (u : List Char) :
    Start.of ('<' :: '!' :: u) = if ['-', '-'] <+: u then .comment else .doctype := by
  match u with
  | [] => rfl
  | [c] => simp [Start.of, List.cons_prefix_cons]
  | c :: x :: rest =>
    by_cases hc : c = '-' <;> by_cases hx : x = '-' <;>
      simp [Start.of, List.cons_prefix_cons, hc, hx, eq_comm]

theorem dashes_append (t later : List Char) :
    ['-', '-'] <+: t ++ doctypeClosing ++ later ↔ ['-', '-'] <+: t := by
  match t with
  | [] => simp [doctypeClosing, List.cons_prefix_cons]
  | [c] => simp [doctypeClosing, List.cons_prefix_cons]
  | c :: x :: rest => simp [List.cons_prefix_cons]

theorem closed_of_readDoctype {s left t : List Char} (hs : Start.of s = .doctype)
    (h : readDoctype s = .ok (t, left)) : (Piece.doctype t).Closed := by
  intro later
  have hopening := Start.opening_of.2.1 hs
  obtain ⟨body, rfl⟩ := hopening
  unfold readDoctype at h
  split at h <;> cases h
  rename_i hcut
  simp only [List.drop_left] at hcut
  have hbody := append_of_cut hcut
  subst hbody
  have hread := cut_append (by decide) hcut later
  have hdashes : ¬ ['-', '-'] <+: t := by
    intro hp
    rw [← dashes_append t left] at hp
    rw [doctypeOpening, List.cons_append, List.cons_append, List.nil_append,
      start_doctype, if_pos hp] at hs
    cases hs
  have hsource : (Piece.doctype t).source ++ later = doctypeOpening ++
      (t ++ doctypeClosing ++ later) := by
    simp [Piece.source]
  have hstart : Start.of (doctypeOpening ++ (t ++ doctypeClosing ++ later)) = .doctype := by
    rw [doctypeOpening, List.cons_append, List.cons_append, List.nil_append, start_doctype, if_neg]
    rwa [dashes_append]
  rw [hsource, readMarkup.eq_def, hstart]
  simp only [readDoctype, List.drop_left, hread]
  rfl

theorem closed_of_readErb {s left : List Char} {e : Erb} (h : readErb s = .ok (e, left)) :
    (Piece.erb e).Closed := by
  intro later
  have hread := closes_of_readErb h later
  have hstart := startsErb_erb e later
  rw [startsErb_iff] at hstart
  obtain ⟨tail, htail⟩ := hstart
  rw [Piece.source, readMarkup.eq_def, hread, ← htail]
  rfl

theorem fits_of_readMarkup {s left : List Char} {p : Piece} (h : readMarkup s = .ok (p, left))
    (hs : Start.of s ≠ .text) : p.Fits := by
  unfold readMarkup at h
  cases hstart : Start.of s with
  | text => exact absurd hstart hs
  | erb =>
    cases hr : readErb s with
    | error e => simp [hstart, hr, Except.map] at h
    | ok r =>
      simp only [hstart, hr, Except.map, Except.ok.injEq, Prod.mk.injEq] at h
      obtain ⟨rfl, rfl⟩ := h
      exact closed_of_readErb hr
  | comment =>
    cases hr : readComment s with
    | error e => simp [hstart, hr, Except.map] at h
    | ok r =>
      simp only [hstart, hr, Except.map, Except.ok.injEq, Prod.mk.injEq] at h
      obtain ⟨rfl, rfl⟩ := h
      exact closed_of_readComment hstart hr
  | doctype =>
    cases hr : readDoctype s with
    | error e => simp [hstart, hr, Except.map] at h
    | ok r =>
      simp only [hstart, hr, Except.map, Except.ok.injEq, Prod.mk.injEq] at h
      obtain ⟨rfl, rfl⟩ := h
      exact closed_of_readDoctype hstart hr
  | closeTag =>
    cases hr : readCloseTag s with
    | error e => simp [hstart, hr, Except.map] at h
    | ok r =>
      simp only [hstart, hr, Except.map, Except.ok.injEq, Prod.mk.injEq] at h
      obtain ⟨rfl, rfl⟩ := h
      exact fits_of_readCloseTag hstart hr
  | openTag =>
    cases hr : readOpenTag s with
    | error e => simp [hstart, hr, Except.map] at h
    | ok r =>
      simp only [hstart, hr, Except.map, Except.ok.injEq, Prod.mk.injEq] at h
      obtain ⟨rfl, rfl⟩ := h
      exact fits_of_readOpenTag hstart hr

/-! ## Text -/

/-- Whether a text inside the elements `open_` ends here. -/
def Stops (open_ : Nesting) (s : List Char) : Bool :=
  match open_.rawText? with
  | none => startsConstruct s
  | some name => endsRawText name s

/-- The text neither ends before its end nor, before the start of a piece, after it. -/
structure IsText (open_ : Nesting) (t : List Char) : Prop where
  ne_nil : t ≠ []
  goes : ∀ u, u ≠ [] → u <:+ t → Stops open_ u = false

theorem startsWithLetters_iff (mark s : List Char) :
    startsWithLetters mark s = true ↔ asciiLower mark <+: asciiLower s := by
  have hlen : (asciiLower mark).length = mark.length := length_asciiLower mark
  rw [startsWithLetters, List.isPrefixOf_iff_prefix, asciiLower, asciiLower,
    asciiLower, List.map_take, List.prefix_take_iff]
  simp

theorem startsConstruct_iff (s : List Char) : startsConstruct s = true ↔ Start.of s ≠ .text := by
  fun_cases Start.of s <;> simp_all [startsConstruct]

theorem startsConstruct_cons (c x : Char) (rest : List Char) : startsConstruct (c :: x :: rest) =
    (c == '<' &&
      (x == '%' || x == '!' || isAsciiLetter x || x == '/' && rest.head?.any isAsciiLetter)) := by
  have hslash : isAsciiLetter '/' = false := by decide
  by_cases hc : c = '<'
  · by_cases hx : x = '/'
    · cases rest <;> simp [startsConstruct, hc, hx, hslash]
    · by_cases hp : x = '%' <;> by_cases hm : x = '!' <;>
        simp [startsConstruct, hc, beq_eq_false_iff_ne.mpr hx, hx, hp, hm, beq_iff_eq]
  · simp [startsConstruct, hc]

theorem startsConstruct_append {u later : List Char} (hu : u ≠ [])
    (h : later = [] ∨ later.head? = some '<') :
    startsConstruct (u ++ later) = startsConstruct u := by
  have hmark : isAsciiLetter '<' = false := by decide
  rcases h with rfl | h
  · rw [List.append_nil]
  obtain ⟨rest, rfl⟩ := List.head?_eq_some_iff.mp h
  match u with
  | [c] =>
    have hone : startsConstruct [c] = false := by simp [startsConstruct]
    rw [List.singleton_append, startsConstruct_cons, hone]
    simp [hmark]
  | [c, x] => simp [startsConstruct_cons, hmark]
  | c :: x :: y :: u => simp [startsConstruct_cons]

theorem startsConstruct_of_append {u : List Char} (later : List Char)
    (h : startsConstruct u = true) :
    startsConstruct (u ++ later) = true := by
  match u with
  | [] => simp [startsConstruct] at h
  | [c] => simp [startsConstruct] at h
  | [c, x] =>
    simp only [List.cons_append, startsConstruct_cons, Bool.and_eq_true, Bool.or_eq_true] at h ⊢
    simp_all
  | c :: x :: y :: u => simpa [startsConstruct_cons] using h

theorem prefix_append_iff {mark u later : List Char} (hu : u ≠ []) (hmark : '<' ∉ mark.tail)
    (h : later = [] ∨ later.head? = some '<') : mark <+: u ++ later ↔ mark <+: u := by
  refine ⟨fun hp => ?_, fun hp => hp.trans (List.prefix_append u later)⟩
  rcases h with rfl | h
  · rwa [List.append_nil] at hp
  obtain ⟨rest, rfl⟩ := List.head?_eq_some_iff.mp h
  apply List.prefix_of_prefix_length_le hp (List.prefix_append u _)
  by_contra hlt
  obtain ⟨more, rfl⟩ :=
    List.prefix_of_prefix_length_le (List.prefix_append u ('<' :: rest)) hp (by omega)
  obtain ⟨x, tail, rfl⟩ : ∃ x tail, more = x :: tail := by
    apply List.exists_cons_of_ne_nil
    rintro rfl
    simp at hlt
  rw [List.prefix_append_right_inj, List.cons_prefix_cons] at hp
  obtain ⟨c, u, rfl⟩ := List.exists_cons_of_ne_nil hu
  simp [hp.1] at hmark

theorem mem_rawTextNames_of_rawText? {open_ : Nesting} {name : List Char}
    (h : open_.rawText? = some name) :
    name ∈ rawTextNames := by
  unfold Nesting.rawText? at h
  split at h
  · split at h
    · rename_i hmem
      cases h
      simpa using hmem
    · cases h
  · cases h

/-- How the end of raw text looks, up to the case of letters. -/
def rawTextEnd (name : List Char) : List Char := asciiLower ('<' :: '/' :: name)

theorem rawTextEnd_spec : ∀ name ∈ rawTextNames,
    '<' ∉ (rawTextEnd name).tail ∧ '>' ∉ rawTextEnd name ∧ ['<', '/', 's'] <+: rawTextEnd name := by
  decide

theorem endsRawText_iff (name s : List Char) :
    endsRawText name s = true ↔ ['<', '%'] <+: s ∨ rawTextEnd name <+: asciiLower s := by
  rw [endsRawText, Bool.or_eq_true, startsErb_iff, startsWithLetters_iff]
  rfl

theorem stops_append {open_ : Nesting} {u later : List Char} (hu : u ≠ [])
    (h : later = [] ∨ later.head? = some '<') : Stops open_ (u ++ later) = Stops open_ u := by
  unfold Stops
  split
  · exact startsConstruct_append hu h
  · rename_i name hraw
    have hmark := (rawTextEnd_spec name (mem_rawTextNames_of_rawText? hraw)).1
    have hlower : asciiLower later = [] ∨ (asciiLower later).head? = some '<' := by
      rcases h with rfl | h
      · exact Or.inl rfl
      · simp [asciiLower, h]
    have hne : asciiLower u ≠ [] := by simpa [asciiLower] using hu
    rw [Bool.eq_iff_iff, endsRawText_iff, endsRawText_iff, prefix_append_iff hu (by decide) h]
    have happend : asciiLower (u ++ later) = asciiLower u ++ asciiLower later := List.map_append
    rw [happend, prefix_append_iff hne hmark hlower]

theorem stops_of_append {open_ : Nesting} {u : List Char} (later : List Char)
    (h : Stops open_ u = true) :
    Stops open_ (u ++ later) = true := by
  unfold Stops at *
  split at *
  · exact startsConstruct_of_append later h
  · rw [endsRawText_iff] at *
    have happend : asciiLower (u ++ later) = asciiLower u ++ asciiLower later := List.map_append
    rw [happend]
    exact h.imp (·.trans (List.prefix_append _ _)) (·.trans (List.prefix_append _ _))

theorem start_of_stops {open_ : Nesting} {s : List Char} (h : Stops open_ s = true) :
    Start.of s ≠ .text := by
  rw [← startsConstruct_iff]
  unfold Stops at h
  split at h
  · exact h
  · rename_i name hraw
    rcases (endsRawText_iff name s).mp h with ⟨rest, rfl⟩ | hend
    · rfl
    · have hmark := (rawTextEnd_spec name (mem_rawTextNames_of_rawText? hraw)).2.2.trans hend
      match s with
      | [] => simp [asciiLower] at hmark
      | [_] => simp [asciiLower] at hmark
      | [_, _] => simp [asciiLower] at hmark
      | a :: b :: c :: rest =>
        simp only [asciiLower, List.map_cons, List.cons_prefix_cons] at hmark
        obtain ⟨ha, hb, hc, -⟩ := hmark
        have hletter : isAsciiLetter c = true := by
          rw [← isAsciiLetter_toLower, ← hc]
          decide
        rw [eq_of_toLower (by decide) ha.symm, eq_of_toLower (by decide) hb.symm]
        simp [startsConstruct_cons, hletter]

theorem head?_of_stops {open_ : Nesting} {s : List Char} (h : Stops open_ s = true) :
    s.head? = some '<' := by
  have hs := (startsConstruct_iff s).mpr (start_of_stops h)
  match s with
  | [] => simp [startsConstruct] at hs
  | [c] => simp [startsConstruct] at hs
  | c :: x :: rest =>
    rw [startsConstruct_cons, Bool.and_eq_true, beq_iff_eq] at hs
    simp [hs.1]

/-! ## Pieces -/

/-- A reader takes a text up to where it stops, and at such a place what starts there. -/
theorem readPiece_cons (open_ : Nesting) (c : Char) (rest : List Char) :
    readPiece open_ (c :: rest) =
      if Stops open_ (c :: rest) then readMarkup (c :: rest)
      else .ok (.text (spanUntil (Stops open_) (c :: rest)).1,
        (spanUntil (Stops open_) (c :: rest)).2) := by
  cases hraw : open_.rawText? with
  | none =>
    have hstops : Stops open_ = startsConstruct := by
      funext s
      simp [Stops, hraw]
    rw [readPiece, hraw, hstops]
    by_cases hs : startsConstruct (c :: rest) = true
    · rw [if_pos hs]
    · have hstart : Start.of (c :: rest) = .text := by
        by_contra hne
        exact hs ((startsConstruct_iff _).mpr hne)
      rw [if_neg hs, spanUntil, if_neg hs, readMarkup.eq_def, hstart]
  | some name =>
    have hstops : Stops open_ = endsRawText name := by
      funext s
      simp [Stops, hraw]
    rw [readPiece, hraw, hstops]
    by_cases hs : endsRawText name (c :: rest) = true
    · simp [spanUntil, hs]
    · simp [spanUntil, hs]

/-- The piece may stand here: a text goes on until the next piece, any other piece starts where one
stops. -/
def Piece.Stands (open_ : Nesting) (p : Piece) (rest : List Piece) : Prop :=
  match p with
  | .text t => IsText open_ t ∧ ∀ u later, rest ≠ .text u :: later
  | p => p.Fits ∧ Stops open_ p.source = true

/-- Each piece may stand where it does, inside the elements that the pieces before it leave open. -/
def Readable (open_ : Nesting) : List Piece → Prop
  | [] => True
  | p :: rest => p.Stands open_ rest ∧ Readable (open_.after p) rest

theorem Piece.stands_of_fits {open_ : Nesting} {p : Piece} {rest : List Piece} (h : p.Fits)
    (hs : Stops open_ p.source = true) : p.Stands open_ rest := by
  cases p with
  | text t => exact h.elim
  | _ => exact ⟨h, hs⟩

theorem Piece.Stands.fits {open_ : Nesting} {p : Piece} {rest : List Piece}
    (h : p.Stands open_ rest) (hp : ∀ t, p ≠ .text t) : p.Fits ∧ Stops open_ p.source = true := by
  cases p with
  | text t => exact absurd rfl (hp t)
  | _ => exact h

theorem isText_of_span {open_ : Nesting} {c : Char} {rest : List Char}
    (h : ¬ Stops open_ (c :: rest) = true) :
    IsText open_ (spanUntil (Stops open_) (c :: rest)).1 := by
  refine ⟨spanUntil_fst_ne_nil (by simpa using h), ?_⟩
  intro u hu hs
  have hgo := spanUntil_go _ _ u hu hs
  by_contra hstop
  rw [Bool.not_eq_false] at hstop
  rw [stops_of_append _ hstop] at hgo
  simp at hgo

theorem not_text_of_readPieces {open_ : Nesting} {s : List Char} {ps : List Piece}
    (h : readPieces open_ s = .ok ps) (hs : s = [] ∨ Stops open_ s = true) :
    ∀ u later, ps ≠ .text u :: later := by
  rintro u later rfl
  cases s with
  | nil => simp [readPieces] at h
  | cons c rest =>
    have hstop := hs.resolve_left (by simp)
    rw [readPieces] at h
    split at h
    · simp at h
    · rename_i p left hread
      split at h
      · simp at h
      · simp only [Except.ok.injEq, List.cons.injEq] at h
        obtain ⟨rfl, rfl⟩ := h
        rw [readPiece_cons, if_pos hstop] at hread
        exact fits_of_readMarkup hread (start_of_stops hstop)

theorem prefix_of_prefix_append {mark u later : List Char} {c : Char}
    (hu : c ∈ u) (hmark : c ∉ mark) (h : mark <+: u ++ later) : mark <+: u := by
  apply List.prefix_of_prefix_length_le h (List.prefix_append u later)
  by_contra hlt
  have hpre := List.prefix_of_prefix_length_le (List.prefix_append u later) h (by omega)
  exact hmark (hpre.subset hu)

theorem Piece.Fits.mem_source {p : Piece} (h : p.Fits) : '>' ∈ p.source := by
  cases p with
  | text t => exact h.elim
  | erb e =>
    have hclosing : '>' ∈ e.closing := by
      unfold Erb.closing
      split <;> simp
    simp [source, Erb.text, hclosing]
  | comment t => simp [source, commentClosing]
  | doctype t => simp [source, doctypeClosing]
  | openTag t =>
    have hclosing : '>' ∈ t.closing := by
      unfold OpenTag.closing
      split <;> simp
    simp [source, OpenTag.text, hclosing]
  | closeTag t => simp [source, CloseTag.text]

theorem Piece.Fits.stops {open_ : Nesting} {p : Piece} {left : List Char} (h : p.Fits)
    (hs : Stops open_ (p.source ++ left) = true) : Stops open_ p.source = true := by
  unfold Stops at *
  split at *
  · rw [startsConstruct_iff]
    intro htext
    have hread := h.closed []
    rw [List.append_nil, readMarkup.eq_def, htext] at hread
    simp only at hread
    split at hread
    · simp only [Except.ok.injEq, Prod.mk.injEq] at hread
      obtain ⟨rfl, -⟩ := hread
      exact h
    · simp only [Except.ok.injEq, Prod.mk.injEq] at hread
      obtain ⟨rfl, -⟩ := hread
      exact h
  · rename_i name hraw
    rw [endsRawText_iff] at *
    have hmem := h.mem_source
    rcases hs with hs | hs
    · exact Or.inl (prefix_of_prefix_append hmem (by decide) hs)
    · have hname := mem_rawTextNames_of_rawText? hraw
      have happend : asciiLower (p.source ++ left) = asciiLower p.source ++
          asciiLower left := List.map_append
      rw [happend] at hs
      have hmem' : '>' ∈ asciiLower p.source := List.mem_map.mpr ⟨'>', hmem, by decide⟩
      exact Or.inr (prefix_of_prefix_append hmem' (rawTextEnd_spec name hname).2.1 hs)

theorem readable_of_readPieces {open_ : Nesting} {s : List Char} {ps : List Piece}
    (h : readPieces open_ s = .ok ps) : Readable open_ ps := by
  fun_induction readPieces open_ s generalizing ps with
  | case1 => cases h; trivial
  | case2 => cases h
  | case3 => cases h
  | case4 open_ c rest p left hread _ inner hr ih =>
    cases h
    refine ⟨?_, ih hr⟩
    have hsource := append_of_readPiece hread
    rw [readPiece_cons] at hread
    split at hread
    · rename_i hstop
      have hfits := fits_of_readMarkup hread (start_of_stops hstop)
      rw [← hsource] at hstop
      exact Piece.stands_of_fits hfits (hfits.stops hstop)
    · rename_i hgo
      cases hread
      exact ⟨isText_of_span hgo, not_text_of_readPieces hr (spanUntil_stop _ _)⟩

theorem Piece.Fits.source_ne_nil {p : Piece} (h : p.Fits) : p.source ≠ [] :=
  List.ne_nil_of_mem h.mem_source

theorem readPieces_append {open_ : Nesting} {p : Piece} {later : List Char}
    {ps : List Piece} (hne : p.source ≠ [])
    (hp : readPiece open_ (p.source ++ later) = .ok (p, later))
    (h : readPieces (open_.after p) later = .ok ps) :
    readPieces open_ (p.source ++ later) = .ok (p :: ps) := by
  obtain ⟨c, rest, hs⟩ := List.exists_cons_of_ne_nil hne
  rw [hs, List.cons_append] at hp ⊢
  rw [readPieces]
  split
  · rename_i hread
    simp [hp] at hread
  · rename_i hread
    rw [hp] at hread
    cases hread
    rw [h]

theorem Readable.stops {open_ : Nesting} {ps : List Piece} (h : Readable open_ ps)
    (hp : ∀ u later, ps ≠ .text u :: later) :
    ps.flatMap Piece.source = [] ∨ Stops open_ (ps.flatMap Piece.source) = true := by
  cases ps with
  | nil => exact Or.inl rfl
  | cons p rest =>
    have hnot (t : List Char) : p ≠ .text t := by
      rintro rfl
      exact hp t rest rfl
    exact Or.inr (stops_of_append _ (h.1.fits hnot).2)

theorem IsText.readPiece {open_ : Nesting} {t later : List Char} (ht : IsText open_ t)
    (hlater : later = [] ∨ Stops open_ later = true) :
    readPiece open_ (t ++ later) = .ok (.text t, later) := by
  have hgo (u : List Char) (hu : u ≠ []) (hs : u <:+ t) : Stops open_ (u ++ later) = false := by
    rw [stops_append hu (hlater.imp_right head?_of_stops)]
    exact ht.goes u hu hs
  have hspan := spanUntil_eq hgo hlater
  have hfirst := hgo t ht.ne_nil List.suffix_rfl
  obtain ⟨c, tail, rfl⟩ := List.exists_cons_of_ne_nil ht.ne_nil
  rw [List.cons_append] at hfirst hspan ⊢
  rw [readPiece_cons, hfirst, hspan]
  rfl

theorem Piece.Fits.readPiece {open_ : Nesting} {p : Piece} (h : p.Fits)
    (hs : Stops open_ p.source = true) (later : List Char) :
    readPiece open_ (p.source ++ later) = .ok (p, later) := by
  have hread := h.closed later
  have hs' := stops_of_append later hs
  obtain ⟨c, tail, hsource⟩ := List.exists_cons_of_ne_nil h.source_ne_nil
  rw [hsource, List.cons_append] at hread hs' ⊢
  rw [readPiece_cons, if_pos hs', hread]

theorem readPieces_of_readable {open_ : Nesting} {ps : List Piece} (h : Readable open_ ps) :
    readPieces open_ (ps.flatMap Piece.source) = .ok ps := by
  induction ps generalizing open_ with
  | nil => simp [readPieces]
  | cons p rest ih =>
    obtain ⟨hp, hrest⟩ := h
    rw [List.flatMap_cons]
    by_cases htext : ∃ t, p = .text t
    · obtain ⟨t, rfl⟩ := htext
      obtain ⟨ht, hnext⟩ := hp
      exact readPieces_append (p := .text t) ht.ne_nil (ht.readPiece (hrest.stops hnext)) (ih hrest)
    · obtain ⟨hfits, hstops⟩ := hp.fits fun t he => htext ⟨t, he⟩
      exact readPieces_append hfits.source_ne_nil (hfits.readPiece hstops _) (ih hrest)

theorem readPieces_eq_ok_iff {open_ : Nesting} {s : List Char} {ps : List Piece} :
    readPieces open_ s = .ok ps ↔ Readable open_ ps ∧ ps.flatMap Piece.source = s := by
  constructor
  · intro h
    exact ⟨readable_of_readPieces h, source_readPieces h⟩
  · rintro ⟨h, rfl⟩
    exact readPieces_of_readable h

end TemplateLint.Markup
