import TemplateLint.Proofs.Lowercase
import TemplateLint.Proofs.Readable
import TemplateLint.Rules.BooleanAttribute
import TemplateLint.Rules.QuotedValue
import Mathlib.Data.List.Forall2

/-!
# Mended markup

What fixes do to markup: a value without quotes gets some, a boolean attribute loses its value, a
tag name becomes lowercase. Main statements: quotes and small letters leave markup readable as it is
(`Readable.restyled`); an attribute that lost its value may run into the next one, and is readable
as one attribute with it (`Sturdy.bared`).
-/

namespace TemplateLint.Markup

open Text Rules.QuotedValue Rules.BooleanAttribute

/-! ## Quoted values -/

def ValuePart.escaped : ValuePart → ValuePart
  | .literal t => .literal (escapeQuotes t)
  | .erb e => .erb e

def ValuePart.literalText : ValuePart → List Char
  | .literal t => t
  | .erb _ => []

def Value.quoted (v : Value) : Value :=
  let text := v.parts.flatMap ValuePart.literalText
  if text.contains '"' then
    if text.contains '\'' then ⟨some .double, v.parts.map ValuePart.escaped⟩
    else ⟨some .single, v.parts⟩
  else ⟨some .double, v.parts⟩

theorem escapeQuotes_cons (c : Char) (rest : List Char) :
    escapeQuotes (c :: rest) = (if c = '"' then "&quot;".toList else [c]) ++ escapeQuotes rest :=
      List.flatMap_cons

theorem head?_escapeQuotes (t : List Char) (h : (escapeQuotes t).head? = some '%') :
    t.head? = some '%' := by
  cases t with
  | nil => cases h
  | cons c rest =>
    rw [escapeQuotes_cons] at h
    split at h
    · simp at h
    · exact h

theorem startsErb_escapeQuotes {t : List Char} (h : ∀ u, u <:+ t → startsErb u = false) :
    ∀ u, u <:+ escapeQuotes t → startsErb u = false := by
  induction t with
  | nil =>
    intro u hu
    rw [List.eq_nil_of_suffix_nil hu]
    rfl
  | cons c rest ih =>
    intro u hu
    have hrest := ih fun u hs => h u (hs.trans (List.suffix_cons c rest))
    rw [escapeQuotes_cons] at hu
    by_cases hc : c = '"'
    · -- No character of the reference is a mark.
      by_contra herb
      rw [Bool.not_eq_false, startsErb_iff] at herb
      obtain ⟨later, rfl⟩ := herb
      have hlater : ['<', '%'] ++ later <:+ escapeQuotes rest := by
        simpa [hc, List.suffix_cons_iff] using hu
      exact absurd (hrest _ hlater) (by simp [startsErb])
    · rw [if_neg hc, List.singleton_append, List.suffix_cons_iff] at hu
      rcases hu with rfl | hu
      · by_contra herb
        rw [Bool.not_eq_false, startsErb_iff] at herb
        obtain ⟨later, hlater⟩ := herb
        simp only [List.cons_append, List.nil_append, List.cons.injEq] at hlater
        obtain ⟨tail, htail⟩ :=
          List.head?_eq_some_iff.mp (head?_escapeQuotes rest (by simp [← hlater.2]))
        have hself := h _ List.suffix_rfl
        rw [htail, ← hlater.1] at hself
        exact absurd hself (by simp [startsErb])
      · exact hrest u hu

theorem IsLiteral.escaped {ok : Char → Bool} {t : List Char} (h : IsLiteral ok t) :
    IsLiteral (· != '"') (escapeQuotes t) := by
  refine ⟨?_, ?_, startsErb_escapeQuotes h.noErb⟩
  · obtain ⟨c, rest, rfl⟩ := List.exists_cons_of_ne_nil h.ne_nil
    rw [escapeQuotes_cons]
    split <;> simp
  · intro c hc
    obtain ⟨b, -, hb⟩ := List.mem_flatMap.mp hc
    split at hb
    · have hplain : ∀ x ∈ "&quot;".toList, (x != '"') = true := by simp
      exact hplain c hb
    · rename_i hne
      obtain rfl := List.mem_singleton.mp hb
      simpa using hne

theorem Parts.escaped {ok : Char → Bool} {parts : List ValuePart} (h : Parts ok parts) :
    Parts (· != '"') (parts.map ValuePart.escaped) := by
  induction h with
  | nil => exact .nil
  | erb he _ ih => exact .erb he ih
  | last ht => exact .last ht.escaped
  | literal ht _ ih => exact .literal ht.escaped ih

theorem not_mem_literal {parts : List ValuePart} {c : Char}
    (h : c ∉ parts.flatMap ValuePart.literalText) :
    ∀ t, .literal t ∈ parts → ∀ x ∈ t, (x != c) = true := by
  intro t ht x hx
  rw [bne_iff_ne]
  rintro rfl
  exact h (List.mem_flatMap.mpr ⟨_, ht, hx⟩)

theorem Value.Fits.quoted {v : Value} {next : Option Char} (h : v.Fits next)
    (hbare : v.quote = none) (next' : Option Char) : v.quoted.Fits next' := by
  rw [Value.Fits, hbare] at h
  obtain ⟨hparts, -, -⟩ := h
  unfold Value.quoted
  simp only [List.contains_eq_mem, decide_eq_true_eq]
  split
  · split
    · exact hparts.escaped
    · rename_i hsingle
      exact hparts.mono (not_mem_literal hsingle)
  · rename_i hdouble
    exact hparts.mono (not_mem_literal hdouble)

/-! ## Restyled tags -/

def Value.Restyled (v v' : Value) : Prop := v' = v ∨ v.quote = none ∧ v' = v.quoted

inductive TagPart.Restyled : TagPart → TagPart → Prop where
  | same (part : TagPart) : Restyled part part
  | value (name : List Char) {v v' : Value} (hv : v.Restyled v') :
      Restyled (.attr ⟨name, some v⟩) (.attr ⟨name, some v'⟩)

def RestyledName (name name' : List Char) : Prop := name' = name ∨ name' = lowercase name

structure OpenTag.Restyled (t t' : OpenTag) : Prop where
  name : RestyledName t.name t'.name
  parts : List.Forall₂ TagPart.Restyled t.parts t'.parts
  selfClosing : t'.selfClosing = t.selfClosing

structure CloseTag.Restyled (t t' : CloseTag) : Prop where
  name : RestyledName t.name t'.name
  trailing : t'.trailing = t.trailing

inductive Piece.Restyled : Piece → Piece → Prop where
  | same (p : Piece) : Restyled p p
  | openTag {t t' : OpenTag} (h : t.Restyled t') : Restyled (.openTag t) (.openTag t')
  | closeTag {t t' : CloseTag} (h : t.Restyled t') : Restyled (.closeTag t) (.closeTag t')

def TagPart.isQuotedFlag : TagPart → Bool
  | .attr ⟨name, some ⟨some _, _⟩⟩ => isBoolean (String.ofList name)
  | _ => false

/-- No boolean attribute ends with a quote right before an equals sign. -/
def Detached : List TagPart → Prop
  | [] => True
  | part :: rest =>
    (part.isQuotedFlag = true → (rest.flatMap TagPart.text).head? ≠ some '=') ∧ Detached rest

theorem TagPart.Fits.text_ne_nil {part : TagPart} {next : Option Char} (h : part.Fits next) :
    part.text ≠ [] := by
  cases part with
  | blank t => exact h.1
  | erb e => exact e.text_ne_nil
  | attr a => exact Attribute.text_ne_nil h.1.1.1

theorem head?_flatMap_cons {part : TagPart} {next : Option Char}
    (h : part.Fits next) (rest : List TagPart) (closes : Bool) :
    ((part :: rest).flatMap TagPart.text ++ tagClosing closes).head? = part.text.head? := by
  rw [List.flatMap_cons, List.append_assoc, List.head?_append_of_ne_nil _ h.text_ne_nil]

theorem head?_append_closing_iff (s : List Char) (closes : Bool) :
    (s ++ tagClosing closes).head? = some '=' ↔ s.head? = some '=' := by
  cases s with
  | nil => cases closes <;> simp [tagClosing]
  | cons c rest => simp

theorem Value.Fits.restyled {v v' : Value} {next : Option Char} (h : v.Fits next)
    (hr : v.Restyled v') :
    v'.Fits next := by
  rcases hr with rfl | ⟨hbare, rfl⟩
  · exact h
  · exact h.quoted hbare next

theorem TagPart.Fits.restyled {part part' : TagPart} {next : Option Char} (h : part.Fits next)
    (hr : part.Restyled part') : part'.Fits next ∧ part'.text.head? = part.text.head? := by
  cases hr with
  | same => exact ⟨h, rfl⟩
  | value name hv =>
    obtain ⟨⟨hname, hvalue⟩, hstarts⟩ := h
    refine ⟨⟨⟨hname, hvalue.restyled hv⟩, ?_⟩, ?_⟩
    · simp only [Attribute.text, List.append_assoc] at hstarts ⊢
      apply StartsAttribute.congr hname.1 _ hstarts
      rfl
    · simp [TagPart.text, Attribute.text, List.head?_append_of_ne_nil name hname.1]

theorem Chained.restyled {closes : Bool} {parts parts' : List TagPart} (h : Chained closes parts)
    (hr : List.Forall₂ TagPart.Restyled parts parts') :
    Chained closes parts' ∧
      (parts'.flatMap TagPart.text ++ tagClosing closes).head? =
        (parts.flatMap TagPart.text ++ tagClosing closes).head? := by
  induction hr with
  | nil => exact ⟨h, rfl⟩
  | @cons part part' rest rest' hpart _ ih =>
    obtain ⟨hfits, hrest⟩ := h
    obtain ⟨hrest', hhead⟩ := ih hrest
    obtain ⟨hfits', htext⟩ := hfits.restyled hpart
    refine ⟨⟨hhead ▸ hfits', hrest'⟩, ?_⟩
    rw [head?_flatMap_cons hfits', head?_flatMap_cons hfits, htext]

theorem Detached.restyled {closes : Bool} {parts parts' : List TagPart} (h : Detached parts)
    (hc : Chained closes parts) (hr : List.Forall₂ TagPart.Restyled parts parts') :
    Detached parts' := by
  -- Quotes are put where a value ends by itself, so no equals sign follows them.
  induction hr with
  | nil => trivial
  | @cons part part' rest rest' hpart hmore ih =>
    obtain ⟨hfits, hrest⟩ := hc
    refine ⟨?_, ih h.2 hrest⟩
    have hhead := (hrest.restyled hmore).2
    intro hflag hequals
    rw [← head?_append_closing_iff _ closes, hhead] at hequals
    cases hpart with
    | same => exact h.1 hflag ((head?_append_closing_iff _ closes).mp hequals)
    | value name hv =>
      rcases hv with rfl | ⟨hbare, rfl⟩
      · exact h.1 hflag ((head?_append_closing_iff _ closes).mp hequals)
      · have hvalue := hfits.1.2
        simp only [Value.Fits, hbare] at hvalue
        exact absurd (hvalue.2.1 '=' hequals) (by decide)

/-! ## Restyled pieces -/

/-- Lowercasing the name of a tag changes letters of ASCII only. -/
def Piece.HasPlainName : Piece → Prop
  | .openTag t => IsPlain t.name
  | .closeTag t => IsPlain t.name
  | _ => True

theorem RestyledName.asciiLower {name name' : List Char}
    (h : RestyledName name name') (hp : IsPlain name) :
    asciiLower name' = asciiLower name := by
  rcases h with rfl | rfl
  · rfl
  · rw [show lowercase name = Text.asciiLower name from hp, asciiLower_asciiLower]

theorem RestyledName.isPlain {name name' : List Char}
    (h : RestyledName name name') (hp : IsPlain name) :
    IsPlain name' := by
  rcases h with rfl | rfl
  · exact hp
  · rw [show lowercase name = Text.asciiLower name from hp]
    exact hp.asciiLower

theorem RestyledName.isTagName {name name' : List Char} (h : RestyledName name name')
    (hname : IsTagName name) :
    IsTagName name' := by
  rcases h with rfl | rfl
  · exact hname
  · obtain ⟨⟨c, rest, rfl, hc⟩, hall⟩ := hname
    have hcons := lowerFrom_cons_of_ascii [] (ascii_of_isAsciiLetter hc) rest
    exact ⟨⟨c.toLower, _, hcons, by rwa [isAsciiLetter_toLower]⟩, isNameChar_lowerFrom [] hall⟩

theorem RestyledName.prefix_asciiLower {name name' w : List Char} (h : RestyledName name name')
    (hw : ∀ c ∈ w, isAsciiLetter c = true) (hp : w <+: Text.asciiLower name) :
    w <+: Text.asciiLower name' := by
  rcases h with rfl | rfl
  · exact hp
  · exact prefix_lowerFrom hw hp []

theorem OpenTag.Fits.restyled {t t' : OpenTag} (h : t.Fits) (hr : t.Restyled t') : t'.Fits := by
  obtain ⟨hchained, hhead⟩ := h.chained.restyled hr.parts
  have hclosing : t'.closing = t.closing := by rw [OpenTag.closing, OpenTag.closing, hr.selfClosing]
  refine ⟨hr.name.isTagName h.name, ?_, hr.selfClosing ▸ hchained⟩
  intro c hc
  rw [hclosing] at hc
  exact h.stops c (hhead.symm.trans hc)

theorem CloseTag.Fits.restyled {t t' : CloseTag} (h : t.Fits) (hr : t.Restyled t') : t'.Fits :=
  ⟨hr.name.isTagName h.name, hr.trailing ▸ h.blank⟩

theorem stops_openTag {open_ : Nesting} {c : Char} {rest : List Char}
    (hc : isAsciiLetter c = true) :
    Stops open_ ('<' :: c :: rest) = true ↔ open_.rawText? = none := by
  cases hraw : open_.rawText? with
  | none => simp [Stops, hraw, startsConstruct_cons, hc]
  | some name =>
    simp only [Stops, hraw, endsRawText_iff, reduceCtorEq, iff_false, not_or]
    constructor
    · rintro hp
      obtain rfl : '%' = c := by simpa [List.cons_prefix_cons] using hp
      exact absurd hc (by decide)
    · intro hp
      have hmark := (rawTextEnd_spec name (mem_rawTextNames_of_rawText? hraw)).2.2.trans hp
      simp only [asciiLower, List.map_cons, List.cons_prefix_cons] at hmark
      rw [← isAsciiLetter_toLower, ← hmark.2.1] at hc
      exact absurd hc (by decide)

theorem toLower_beq {x : Char} (hx : isAsciiLetter x = false) (c : Char) :
    (c.toLower == x) = (c == x) := by
  rw [Bool.eq_iff_iff, beq_iff_eq, beq_iff_eq]
  refine ⟨eq_of_toLower hx, ?_⟩
  rintro rfl
  apply toLower_of_not_isUpper
  intro hu
  have hletter := (isAsciiLetter_iff c).mpr (Or.inl ((isUpper_iff c).mp hu))
  simp [hx] at hletter

theorem OpenTag.Restyled.stops {t t' : OpenTag} (hr : t.Restyled t') (h : t.Fits) {open_ : Nesting}
    (hs : Stops open_ t.text = true) : Stops open_ t'.text = true := by
  obtain ⟨c, rest, hname, hc⟩ := h.name.1
  obtain ⟨c', rest', hname', hc'⟩ := (hr.name.isTagName h.name).1
  simp only [OpenTag.text, hname, hname', List.cons_append] at hs ⊢
  rw [stops_openTag hc] at hs
  rwa [stops_openTag hc']

theorem prefix_of_prefix_append_of_head {w a b : List Char} {p : Char → Bool}
    (hw : ∀ c ∈ w, p c = true) (hb : ∀ c, b.head? = some c → p c = false)
    (h : w <+: a ++ b) : w <+: a := by
  apply List.prefix_of_prefix_length_le h (List.prefix_append a b)
  by_contra hlt
  obtain ⟨more, rfl⟩ := List.prefix_of_prefix_length_le (List.prefix_append a b) h (by omega)
  cases more with
  | nil => simp at hlt
  | cons c more =>
    rw [List.prefix_append_right_inj] at h
    obtain ⟨later, rfl⟩ := h
    have hc := hw c (by simp)
    rw [hb c rfl] at hc
    cases hc

theorem isAsciiLetter_rawTextNames :
    ∀ name ∈ rawTextNames, ∀ c ∈ asciiLower name, isAsciiLetter c = true := by
  have hcheck : (rawTextNames.all fun name => (asciiLower name).all isAsciiLetter) =
      true := by decide
  simpa only [List.all_eq_true] using hcheck

theorem CloseTag.Restyled.stops {t t' : CloseTag} (hr : t.Restyled t')
    (h : t.Fits) {open_ : Nesting} (hs : Stops open_ t.text = true) :
    Stops open_ t'.text = true := by
  -- What ends raw text is in the name of a close tag, which keeps it.
  obtain ⟨c', rest', hname', hc'⟩ := (hr.name.isTagName h.name).1
  unfold Stops at hs ⊢
  split
  · simp [CloseTag.text, hname', startsConstruct_cons, hc']
  · rename_i name hraw
    rw [hraw] at hs
    simp only [endsRawText_iff, CloseTag.text, rawTextEnd, asciiLower,
      List.map_cons, List.cons_append, List.cons_prefix_cons] at hs ⊢
    rcases hs with ⟨-, hmark, -⟩ | ⟨-, -, hend⟩
    · exact absurd hmark (by decide)
    · refine Or.inr ⟨trivial, trivial, ?_⟩
      rw [List.append_assoc, List.map_append] at hend ⊢
      have hletters := isAsciiLetter_rawTextNames name (mem_rawTextNames_of_rawText? hraw)
      have hstop : ∀ c, ((t.trailing ++ ['>']).map Char.toLower).head? = some c →
          isAsciiLetter c = false := by
        intro c hc
        rw [List.head?_map, Option.map_eq_some_iff] at hc
        obtain ⟨x, hx, rfl⟩ := hc
        rw [isAsciiLetter_toLower, ← Bool.not_eq_true]
        intro hletter
        have hblank := isNameChar_of_isAsciiLetter hletter
        cases htrailing : t.trailing with
        | nil =>
          rw [htrailing] at hx
          cases hx
          exact absurd hletter (by decide)
        | cons _ rest =>
          rw [htrailing] at hx
          cases hx
          simp [isNameChar, h.blank x (by simp [htrailing])] at hblank
      have hown := prefix_of_prefix_append_of_head hletters hstop hend
      exact (hr.name.prefix_asciiLower hletters hown).trans (List.prefix_append _ _)

theorem OpenTag.Restyled.lowerName {t t' : OpenTag} (hr : t.Restyled t') (hp : IsPlain t.name) :
    t'.lowerName = t.lowerName := hr.name.asciiLower hp

theorem OpenTag.Restyled.opens {t t' : OpenTag} (hr : t.Restyled t') (hp : IsPlain t.name) :
    t'.opens = t.opens := by
  rw [OpenTag.opens, OpenTag.isVoid, hr.lowerName hp, hr.selfClosing]
  rfl

theorem CloseTag.Restyled.lowerName {t t' : CloseTag} (hr : t.Restyled t') (hp : IsPlain t.name) :
    t'.lowerName = t.lowerName := hr.name.asciiLower hp

theorem Piece.Restyled.after {p p' : Piece} (hr : p.Restyled p')
    (hp : p.HasPlainName) (open_ : Nesting) :
    open_.after p' = open_.after p := by
  cases hr with
  | same => rfl
  | openTag hr => rw [Nesting.after, Nesting.after, hr.opens hp, hr.lowerName hp]
  | closeTag hr => rw [Nesting.after, Nesting.after, hr.lowerName hp]

theorem not_text_of_forall₂ {ps ps' : List Piece} (hr : List.Forall₂ Piece.Restyled ps ps')
    (h : ∀ u later, ps ≠ .text u :: later) : ∀ u later, ps' ≠ .text u :: later := by
  rintro u later rfl
  cases hr with
  | cons hp _ =>
    cases hp
    exact h u _ rfl

theorem stops_of_rawText?_eq {open_ open' : Nesting} (h : open'.rawText? = open_.rawText?) :
    Stops open' = Stops open_ := by
  funext s
  rw [Stops, Stops, h]

theorem Piece.Stands.restyled {open_ open' : Nesting} {p p' : Piece} {rest rest' : List Piece}
    (h : p.Stands open_ rest) (hraw : open'.rawText? = open_.rawText?) (hr : p.Restyled p')
    (hrest : List.Forall₂ Piece.Restyled rest rest') : p'.Stands open' rest' := by
  have hstops := stops_of_rawText?_eq hraw
  cases hr with
  | same =>
    cases p with
    | text t => exact ⟨⟨h.1.ne_nil, by rw [hstops]; exact h.1.goes⟩, not_text_of_forall₂ hrest h.2⟩
    | _ => exact ⟨h.1, by rw [hstops]; exact h.2⟩
  | openTag hr => exact ⟨OpenTag.Fits.restyled h.1 hr, by rw [hstops]; exact hr.stops h.1 h.2⟩
  | closeTag hr => exact ⟨CloseTag.Fits.restyled h.1 hr, by rw [hstops]; exact hr.stops h.1 h.2⟩

theorem Readable.restyled {open_ : Nesting} {ps ps' : List Piece} (h : Readable open_ ps)
    (hp : ∀ p ∈ ps, p.HasPlainName) (hr : List.Forall₂ Piece.Restyled ps ps') :
    Readable open_ ps' := by
  induction hr generalizing open_ with
  | nil => exact h
  | @cons p p' rest rest' hpiece hrest ih =>
    obtain ⟨hstands, hlater⟩ := h
    rw [List.forall_mem_cons] at hp
    refine ⟨hstands.restyled rfl hpiece hrest, ?_⟩
    rw [hpiece.after hp.1]
    exact ih hlater hp.2

theorem Piece.HasPlainName.restyled {p p' : Piece} (h : p.HasPlainName) (hr : p.Restyled p') :
    p'.HasPlainName := by
  cases hr with
  | same => exact h
  | openTag hr => exact hr.name.isPlain h
  | closeTag hr => exact hr.name.isPlain h

/-! ## Bared attributes -/

/-- The part is as it was, or a boolean attribute that lost its value. -/
inductive TagPart.Bared : TagPart → TagPart → Prop where
  | same (part : TagPart) : Bared part part
  | flag {name : List Char} (h : isBoolean (String.ofList name) = true) (v : Value) :
      Bared (.attr ⟨name, some v⟩) (.attr ⟨name, none⟩)

/-- Puts a name without a value in front of some parts; it runs on into a name of the same kind. -/
def joinName (name : List Char) : List TagPart → List TagPart
  | .attr a :: rest =>
    if a.name.all isAttributeNameChar then .attr ⟨name ++ a.name, a.value⟩ :: rest
    else .attr ⟨name, none⟩ :: .attr a :: rest
  | rest => .attr ⟨name, none⟩ :: rest

/-- The parts as they are read: names without values run on into the names behind them. -/
def fuse : List TagPart → List TagPart
  | [] => []
  | .attr ⟨name, none⟩ :: rest =>
    if name.all isAttributeNameChar then joinName name (fuse rest)
    else .attr ⟨name, none⟩ :: fuse rest
  | part :: rest => part :: fuse rest

theorem text_joinName (name : List Char) (parts : List TagPart) :
    (joinName name parts).flatMap TagPart.text = name ++ parts.flatMap TagPart.text := by
  unfold joinName
  split
  · rename_i a rest
    split
    · obtain ⟨n, v⟩ := a
      cases v <;> simp [TagPart.text, Attribute.text]
    · simp [TagPart.text, Attribute.text]
  · simp [TagPart.text, Attribute.text]

theorem text_fuse (parts : List TagPart) :
    (fuse parts).flatMap TagPart.text = parts.flatMap TagPart.text := by
  fun_induction fuse parts with
  | case1 => rfl
  | case2 name rest _ ih => simp [text_joinName, ih, TagPart.text, Attribute.text]
  | case3 name rest _ ih => simp [ih]
  | case4 part rest _ ih => simp [ih]

theorem booleanNames_spec : ∀ a ∈ booleanNames,
    a.toList ≠ [] ∧ (∀ c ∈ asciiLower a.toList, isAsciiLetter c = true) ∧
      ∀ b ∈ booleanNames, asciiLower a.toList <+: asciiLower b.toList → a = b := by
  have hcheck : (booleanNames.all fun a =>
      !a.toList.isEmpty && (asciiLower a.toList).all isAsciiLetter &&
        booleanNames.all fun b => !(asciiLower a.toList).isPrefixOf (asciiLower b.toList) ||
          a == b) = true := by
    decide +kernel
  intro a ha
  have hname := List.all_eq_true.mp hcheck a ha
  simp only [Bool.and_eq_true, List.all_eq_true, Bool.or_eq_true,
    Bool.not_eq_true', beq_iff_eq] at hname
  obtain ⟨⟨hne, hletters⟩, hstart⟩ := hname
  refine ⟨by simpa using hne, hletters, ?_⟩
  intro b hb hle
  refine (hstart b hb).resolve_left ?_
  simp [List.isPrefixOf_iff_prefix.mpr hle]

theorem isBoolean_iff (name : List Char) :
    isBoolean (String.ofList name) = true ↔ ∃ b ∈ booleanNames,
      asciiLower name = asciiLower b.toList := by
  simp [isBoolean, sameLetters]

theorem isAttributeNameChar_of_isBoolean {name : List Char}
    (h : isBoolean (String.ofList name) = true) :
    name ≠ [] ∧ ∀ c ∈ name, isAttributeNameChar c = true := by
  obtain ⟨b, hb, hname⟩ := (isBoolean_iff name).mp h
  obtain ⟨hne, hletters, -⟩ := booleanNames_spec b hb
  constructor
  · rintro rfl
    simp [asciiLower] at hname
    exact hne (by simp [hname])
  · intro c hc
    have hletter : isAsciiLetter c = true := by
      rw [← isAsciiLetter_toLower]
      apply hletters
      rw [← hname]
      exact List.mem_map_of_mem hc
    have hequals : c ≠ '=' := by
      rintro rfl
      exact absurd hletter (by decide)
    simp [isAttributeNameChar, isNameChar_of_isAsciiLetter hletter, hequals]

theorem not_isBoolean_append {name more : List Char}
    (h : isBoolean (String.ofList name) = true) (hmore : more ≠ []) :
    ¬ isBoolean (String.ofList (name ++ more)) = true := by
  intro h'
  obtain ⟨b, hb, hname⟩ := (isBoolean_iff name).mp h
  obtain ⟨b', hb', hname'⟩ := (isBoolean_iff _).mp h'
  have happend : asciiLower (name ++ more) = asciiLower name ++ asciiLower more := List.map_append
  rw [happend] at hname'
  have hsame :=
    (booleanNames_spec b hb).2.2 b' hb' (by rw [← hname, ← hname']; exact List.prefix_append _ _)
  rw [← hsame, ← hname] at hname'
  exact hmore (by simpa [asciiLower] using hname')

theorem startsAttribute_of_nameChar {c : Char}
    (hc : isAttributeNameChar c = true) (rest : List Char) :
    StartsAttribute (c :: rest) := by
  simp only [isAttributeNameChar, isNameChar, Bool.and_eq_true, Bool.not_eq_true',
    bne_iff_ne, ne_eq] at hc
  obtain ⟨⟨⟨⟨hblank, hclose⟩, hslash⟩, hopen⟩, -⟩ := hc
  refine ⟨?_, ?_, ?_, ?_⟩
  · simp [List.cons_prefix_cons, Ne.symm hslash]
  · simp [List.cons_prefix_cons, Ne.symm hclose]
  · simp [List.cons_prefix_cons, Ne.symm hopen]
  · simpa using hblank

theorem fits_name {name : List Char} {next : Option Char} (hne : name ≠ [])
    (hall : ∀ c ∈ name, isAttributeNameChar c = true)
    (hnext : ∀ c, next = some c → isAttributeNameChar c = false) (hequals : next ≠ some '=') :
    (TagPart.attr ⟨name, none⟩).Fits next := by
  refine ⟨⟨⟨hne, Or.inl hall⟩, fun _ => hnext, hequals⟩, ?_⟩
  obtain ⟨c, rest, rfl⟩ := List.exists_cons_of_ne_nil hne
  exact startsAttribute_of_nameChar (hall c List.mem_cons_self) _

theorem Attribute.head?_text {a : Attribute} (h : a.name ≠ []) : a.text.head? = a.name.head? := by
  unfold Attribute.text
  split
  · exact List.head?_append_of_ne_nil _ h
  · rfl

/-- Some parts that a name in front of them runs on into. -/
def RunsOn (parts : List TagPart) : Prop :=
  ∃ a rest, parts = .attr a :: rest ∧ ∀ c ∈ a.name, isAttributeNameChar c = true

theorem joinName_of_not_runsOn {name : List Char} {parts : List TagPart} (h : ¬ RunsOn parts) :
    joinName name parts = .attr ⟨name, none⟩ :: parts := by
  unfold joinName
  split
  · rename_i a rest
    rw [if_neg]
    intro hall
    exact h ⟨a, rest, rfl, by simpa using hall⟩
  · rfl

theorem not_nameChar_of_not_runsOn {closes : Bool} {parts : List TagPart}
    (hc : Chained closes parts) (h : ¬ RunsOn parts) :
    ∀ c, (parts.flatMap TagPart.text ++ tagClosing closes).head? = some c →
      isAttributeNameChar c = false := by
  intro c hhead
  match parts with
  | [] =>
    have hmarks : isAttributeNameChar '/' = false ∧ isAttributeNameChar '>' = false := by decide
    cases closes <;> simp [tagClosing] at hhead <;> simp [← hhead, hmarks]
  | .blank t :: rest =>
    rw [head?_flatMap_cons hc.1] at hhead
    have hblank := hc.1.2.1 c (List.mem_of_mem_head? hhead)
    simp [isAttributeNameChar, isNameChar, hblank]
  | .erb e :: rest =>
    rw [head?_flatMap_cons hc.1] at hhead
    obtain ⟨tail, htail⟩ := e.text_eq_cons
    obtain rfl : '<' = c := by simpa [TagPart.text, htail] using hhead
    decide
  | .attr a :: rest =>
    rw [head?_flatMap_cons hc.1] at hhead
    obtain ⟨⟨⟨hne, hname⟩, -⟩, -⟩ := hc.1
    rcases hname with hall | ⟨x, hx, hstop⟩
    · exact absurd ⟨a, rest, rfl, hall⟩ h
    · rw [TagPart.text, Attribute.head?_text hne, hx] at hhead
      obtain rfl : x = c := by simpa using hhead
      exact hstop

theorem Chained.joinName {closes : Bool} {name : List Char} {parts : List TagPart}
    (h : Chained closes parts) (hne : name ≠ []) (hall : ∀ c ∈ name, isAttributeNameChar c = true)
    (hequals : (parts.flatMap TagPart.text ++ tagClosing closes).head? ≠ some '=') :
    Chained closes (joinName name parts) := by
  by_cases hruns : RunsOn parts
  · obtain ⟨a, rest, rfl, hname⟩ := hruns
    obtain ⟨⟨⟨-, hvalue⟩, -⟩, hrest⟩ := h
    have hjoined : ∀ c ∈ name ++ a.name, isAttributeNameChar c = true := by
      intro c hc
      rcases List.mem_append.mp hc with hc | hc
      · exact hall c hc
      · exact hname c hc
    rw [Markup.joinName, if_pos (by simpa using hname)]
    refine ⟨⟨⟨⟨by simp [hne], Or.inl hjoined⟩, ?_⟩, ?_⟩, hrest⟩
    · cases hv : a.value with
      | none =>
        rw [hv] at hvalue
        exact ⟨fun _ => hvalue.1 hname, hvalue.2⟩
      | some v =>
        rw [hv] at hvalue
        exact hvalue
    · obtain ⟨c, tail, rfl⟩ := List.exists_cons_of_ne_nil hne
      have hc := hall c List.mem_cons_self
      cases hv : a.value <;> exact startsAttribute_of_nameChar hc _
  · rw [joinName_of_not_runsOn hruns]
    exact ⟨fits_name hne hall (not_nameChar_of_not_runsOn h hruns) hequals, h⟩

theorem RunsOn.head? {closes : Bool} {parts : List TagPart} (h : RunsOn parts)
    (hc : Chained closes parts) :
    ∃ c, (parts.flatMap TagPart.text ++ tagClosing closes).head? = some c ∧
      isAttributeNameChar c = true := by
  obtain ⟨a, rest, rfl, hall⟩ := h
  have hne := hc.1.1.1.1
  obtain ⟨c, tail, hname⟩ := List.exists_cons_of_ne_nil hne
  refine ⟨c, ?_, hall c (by simp [hname])⟩
  rw [head?_flatMap_cons hc.1, TagPart.text, Attribute.head?_text hne, hname]
  rfl

theorem fuse_cons_of_fits {closes : Bool} {part : TagPart} {rest : List TagPart}
    (hrest : Chained closes (fuse rest))
    (h : part.Fits ((fuse rest).flatMap TagPart.text ++ tagClosing closes).head?) :
    fuse (part :: rest) = part :: fuse rest := by
  by_cases hbare : ∃ name, part = .attr ⟨name, none⟩
  · obtain ⟨name, rfl⟩ := hbare
    rw [fuse]
    split
    · rename_i hall
      apply joinName_of_not_runsOn
      intro hruns
      obtain ⟨c, hhead, hc⟩ := hruns.head? hrest
      have hstop := h.1.2.1 (by simpa using hall) c hhead
      simp [hc] at hstop
    · rfl
  · rw [fuse]
    intro name he
    exact hbare ⟨name, he⟩

theorem Detached.joinName {name : List Char} {parts : List TagPart} (h : Detached parts)
    (hb : isBoolean (String.ofList name) = true) {closes : Bool} (hc : Chained closes parts) :
    Detached (joinName name parts) := by
  by_cases hruns : RunsOn parts
  · obtain ⟨a, rest, rfl, hname⟩ := hruns
    rw [Markup.joinName, if_pos (by simpa using hname)]
    refine ⟨?_, h.2⟩
    intro hflag
    have hnot := not_isBoolean_append hb hc.1.1.1.1
    unfold TagPart.isQuotedFlag at hflag
    split at hflag
    · rename_i heq
      simp only [TagPart.attr.injEq, Attribute.mk.injEq] at heq
      rw [← heq.1] at hflag
      exact absurd hflag hnot
    · simp at hflag
  · rw [joinName_of_not_runsOn hruns]
    exact ⟨by simp [TagPart.isQuotedFlag], h⟩

theorem Chained.bared {closes : Bool} {parts parts' : List TagPart}
    (h : Chained closes parts) (hd : Detached parts)
    (hb : List.Forall₂ TagPart.Bared parts parts') :
    Chained closes (fuse parts') ∧ Detached (fuse parts') ∧
      ((fuse parts').flatMap TagPart.text ++ tagClosing closes).head? =
        (parts.flatMap TagPart.text ++ tagClosing closes).head? := by
  induction hb with
  | nil => exact ⟨trivial, trivial, rfl⟩
  | @cons part part' rest rest' hpart _ ih =>
    obtain ⟨hfits, hrest⟩ := h
    obtain ⟨hchained, hdetached, hhead⟩ := ih hrest hd.2
    cases hpart with
    | same =>
      have hfits' := hfits
      rw [← hhead] at hfits'
      rw [fuse_cons_of_fits hchained hfits']
      refine ⟨⟨hfits', hchained⟩, ⟨?_, hdetached⟩, ?_⟩
      · intro hflag hequals
        apply hd.1 hflag
        rwa [← head?_append_closing_iff _ closes, ← hhead, head?_append_closing_iff]
      · rw [head?_flatMap_cons hfits', head?_flatMap_cons hfits]
    | @flag name hbool v =>
      obtain ⟨hne, hall⟩ := isAttributeNameChar_of_isBoolean hbool
      have hequals : ((fuse rest').flatMap TagPart.text ++ tagClosing closes).head? ≠ some '=' := by
        rw [hhead]
        intro hequals
        obtain ⟨quote, inner⟩ := v
        cases quote with
        | some q => exact hd.1 hbool ((head?_append_closing_iff _ closes).mp hequals)
        | none =>
          have hstop := hfits.1.2.2.1 '=' hequals
          exact absurd hstop (by decide)
      rw [fuse, if_pos (by simpa using hall)]
      refine ⟨hchained.joinName hne hall hequals, hdetached.joinName hbool hchained, ?_⟩
      rw [text_joinName, head?_flatMap_cons hfits, List.append_assoc,
        List.head?_append_of_ne_nil _ hne, TagPart.text, Attribute.head?_text hne]

/-! ## Bared pieces -/

inductive Piece.Bared : Piece → Piece → Prop where
  | same {p : Piece} (h : ∀ t, p ≠ .openTag t) : Bared p p
  | openTag (name : List Char) {parts parts' : List TagPart} (closes : Bool)
      (h : List.Forall₂ TagPart.Bared parts parts') :
      Bared (.openTag ⟨name, parts, closes⟩) (.openTag ⟨name, parts', closes⟩)

def Piece.fused : Piece → Piece
  | .openTag t => .openTag { t with parts := fuse t.parts }
  | p => p

/-- No attribute of the tag that may lose its value ends right before an equals sign. -/
def Piece.IsDetached : Piece → Prop
  | .openTag t => Detached t.parts
  | _ => True

theorem Piece.source_fused (p : Piece) : p.fused.source = p.source := by
  cases p with
  | openTag t => simp [fused, source, OpenTag.text, OpenTag.closing, text_fuse]
  | _ => rfl

theorem Piece.after_fused (p : Piece) (open_ : Nesting) : open_.after p.fused = open_.after p := by
  cases p <;> rfl

theorem OpenTag.Fits.bared {name : List Char} {parts parts' : List TagPart} {closes : Bool}
    (h : OpenTag.Fits ⟨name, parts, closes⟩) (hd : Detached parts)
    (hb : List.Forall₂ TagPart.Bared parts parts') : OpenTag.Fits ⟨name, fuse parts', closes⟩ := by
  obtain ⟨hchained, -, hhead⟩ := h.chained.bared hd hb
  refine ⟨h.name, ?_, hchained⟩
  intro c hc
  exact h.stops c (hhead.symm.trans hc)

theorem not_text_of_bared {ps ps' : List Piece} (hb : List.Forall₂ Piece.Bared ps ps')
    (h : ∀ u later, ps ≠ .text u :: later) : ∀ u later, ps'.map Piece.fused ≠ .text u :: later := by
  intro u later he
  cases hb with
  | nil => simp at he
  | @cons p p' rest rest' hp _ =>
    cases hp with
    | same hp =>
      cases p with
      | text t => exact h t rest rfl
      | openTag t => exact hp t rfl
      | _ => simp [Piece.fused] at he
    | openTag => simp [Piece.fused] at he

theorem Piece.Stands.bared {open_ : Nesting} {p p' : Piece} {rest rest' : List Piece}
    (h : p.Stands open_ rest) (hb : p.Bared p') (hd : p.IsDetached)
    (hrest : List.Forall₂ Piece.Bared rest rest') :
    p'.fused.Stands open_ (rest'.map Piece.fused) := by
  cases hb with
  | same hp =>
    cases p with
    | text t => exact ⟨h.1, not_text_of_bared hrest h.2⟩
    | openTag t => exact absurd rfl (hp t)
    | _ => exact h
  | openTag name closes hparts =>
    obtain ⟨hfits, hstops⟩ := h
    refine ⟨OpenTag.Fits.bared hfits hd hparts, ?_⟩
    obtain ⟨c, tail, rfl, hc⟩ := hfits.name.1
    exact (stops_openTag hc).mpr ((stops_openTag hc).mp hstops)

theorem Piece.Bared.after {p p' : Piece} (hb : p.Bared p') (open_ : Nesting) :
    open_.after p'.fused = open_.after p := by
  rw [Piece.after_fused]
  cases hb <;> rfl

/-! ## Sturdy markup -/

/-- Markup that stays readable under all fixes. -/
structure Sturdy (open_ : Nesting) (ps : List Piece) : Prop where
  readable : Readable open_ ps
  plain : ∀ p ∈ ps, p.HasPlainName
  detached : ∀ p ∈ ps, p.IsDetached

theorem Sturdy.cons_iff {open_ : Nesting} {p : Piece} {rest : List Piece} :
    Sturdy open_ (p :: rest) ↔
      (p.Stands open_ rest ∧ p.HasPlainName ∧ p.IsDetached) ∧ Sturdy (open_.after p) rest := by
  constructor
  · rintro ⟨hread, hplain, hdetached⟩
    rw [List.forall_mem_cons] at hplain hdetached
    exact ⟨⟨hread.1, hplain.1, hdetached.1⟩, hread.2, hplain.2, hdetached.2⟩
  · rintro ⟨⟨hstands, hplain, hdetached⟩, hrest⟩
    exact ⟨⟨hstands, hrest.readable⟩, List.forall_mem_cons.mpr ⟨hplain, hrest.plain⟩,
      List.forall_mem_cons.mpr ⟨hdetached, hrest.detached⟩⟩

theorem Piece.IsDetached.restyled {open_ : Nesting} {p p' : Piece}
    {rest : List Piece} (h : p.IsDetached) (hs : p.Stands open_ rest) (hr : p.Restyled p') :
    p'.IsDetached := by
  cases hr with
  | same => exact h
  | openTag hr => exact Detached.restyled h hs.1.chained hr.parts
  | closeTag => trivial

theorem Piece.IsDetached.bared {open_ : Nesting} {p p' : Piece}
    {rest : List Piece} (h : p.IsDetached) (hs : p.Stands open_ rest) (hb : p.Bared p') :
    p'.fused.IsDetached := by
  cases hb with
  | same hp =>
    cases p with
    | openTag t => exact absurd rfl (hp t)
    | _ => trivial
  | openTag name closes hparts =>
    have hchained : Chained closes _ := hs.1.chained
    exact (hchained.bared h hparts).2.1

theorem Sturdy.restyled {open_ : Nesting} {ps ps' : List Piece} (h : Sturdy open_ ps)
    (hr : List.Forall₂ Piece.Restyled ps ps') : Sturdy open_ ps' := by
  induction hr generalizing open_ with
  | nil => exact h
  | @cons p p' rest rest' hpiece hrest ih =>
    obtain ⟨⟨hstands, hplain, hdetached⟩, hlater⟩ := Sturdy.cons_iff.mp h
    rw [Sturdy.cons_iff, hpiece.after hplain]
    exact ⟨⟨hstands.restyled rfl hpiece hrest, hplain.restyled hpiece,
      hdetached.restyled hstands hpiece⟩,
      ih hlater⟩

theorem Piece.HasPlainName.bared {p p' : Piece} (h : p.HasPlainName) (hb : p.Bared p') :
    p'.fused.HasPlainName := by
  cases hb with
  | same => cases p <;> exact h
  | openTag => exact h

/-- Bared pieces are read as their fused forms, which have the same source. -/
theorem Sturdy.bared {open_ : Nesting} {ps ps' : List Piece} (h : Sturdy open_ ps)
    (hb : List.Forall₂ Piece.Bared ps ps') : Sturdy open_ (ps'.map Piece.fused) := by
  induction hb generalizing open_ with
  | nil => exact h
  | @cons p p' rest rest' hpiece hrest ih =>
    obtain ⟨⟨hstands, hplain, hdetached⟩, hlater⟩ := Sturdy.cons_iff.mp h
    rw [List.map_cons, Sturdy.cons_iff, hpiece.after]
    exact ⟨⟨hstands.bared hpiece hdetached hrest, hplain.bared hpiece,
      hdetached.bared hstands hpiece⟩, ih hlater⟩

end TemplateLint.Markup
