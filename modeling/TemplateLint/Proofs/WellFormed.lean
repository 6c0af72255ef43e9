import Mathlib.Data.List.Chain
import Mathlib.Data.List.Infix
import TemplateLint.Proofs.Bodies
import TemplateLint.Proofs.Readable
import TemplateLint.Proofs.Recasting

/-!
# The grammar of parsed documents

A node of a parsed document holds nodes of the right kinds only, and its tokens are as long as they
can be: a text goes on until something else starts, a literal until its value ends or embedded Ruby
starts, blanks until the next part of the tag. Main statement: every node is lawful in this sense,
and no two runs of one kind stand side by side (`parse_lawful`).
-/

namespace TemplateLint

open Markup Text

/-! ## Where a text ends -/

namespace Markup

def StartsMarkup (s : List Char) : Prop :=
  ['<', '%'] <+: s ∨ ['<', '!'] <+: s ∨ ∃ c, isAsciiLetter c = true ∧
    (['<', c] <+: s ∨ ['<', '/', c] <+: s)

/-- The raw text of the element `name` ends here. -/
def EndsRawText (name s : List Char) : Prop :=
  ['<', '%'] <+: s ∨ asciiLower ('<' :: '/' :: name) <+: asciiLower s

/-- A text in the body of this element, or outside all elements, ends here. -/
def EndsText (element : Option (List Char)) (s : List Char) : Prop :=
  match element with
  | some name => if name ∈ rawTextNames then EndsRawText name s else StartsMarkup s
  | none => StartsMarkup s

theorem startsConstruct_iff_startsMarkup (s : List Char) :
    startsConstruct s = true ↔ StartsMarkup s := by
  match s with
  | [] => simp [startsConstruct, StartsMarkup]
  | [c] => simp [startsConstruct, StartsMarkup, List.cons_prefix_cons]
  | c :: x :: rest =>
    rw [startsConstruct_cons]
    cases rest <;> simp [StartsMarkup, List.cons_prefix_cons] <;> grind

theorem stops_iff_endsText (open_ : Nesting) (s : List Char) :
    Stops open_ s = true ↔ EndsText open_.head? s := by
  cases open_ with
  | nil => exact startsConstruct_iff_startsMarkup s
  | cons name outer =>
    by_cases hname : name ∈ rawTextNames
    · have hraw : Nesting.rawText? (name :: outer) = some name := by simp [Nesting.rawText?, hname]
      simp only [Stops, hraw, EndsText, List.head?_cons, hname, if_true]
      exact endsRawText_iff name s
    · have hraw : Nesting.rawText? (name :: outer) = none := by simp [Nesting.rawText?, hname]
      simp only [Stops, hraw, EndsText, List.head?_cons, hname, if_false]
      exact startsConstruct_iff_startsMarkup s

/-! ## Readable pieces -/

theorem Readable.of_append {open_ : Nesting} {front rest : List Piece}
    (h : Readable open_ (front ++ rest)) :
    Readable (front.foldl Nesting.after open_) rest := by
  induction front generalizing open_ with
  | nil => exact h
  | cons p front ih => exact ih h.2

theorem Readable.fits_of_mem {open_ : Nesting} {ps : List Piece} {p : Piece}
    (h : Readable open_ ps) (hp : p ∈ ps) (htext : ∀ t, p ≠ .text t) : p.Fits := by
  obtain ⟨front, back, rfl⟩ := List.append_of_mem hp
  exact (h.of_append.1.fits htext).1

theorem Readable.text_apart {open_ : Nesting} {front back : List Piece} {t : List Char}
    (h : Readable open_ (front ++ .text t :: back)) (u : List Char) :
    front.getLast? ≠ some (.text u) := by
  intro hlast
  obtain ⟨before, rfl⟩ := List.getLast?_eq_some_iff.mp hlast
  rw [List.append_assoc] at h
  exact h.of_append.1.2 t back rfl

theorem Readable.text_goes {front back : List Piece} {t : List Char}
    (h : Readable [] (front ++ .text t :: back)) :
    t ≠ [] ∧ ∀ v, v ≠ [] → v <:+ t →
      ¬ EndsText (front.foldl Nesting.after []).head? (v ++ back.flatMap Piece.source) := by
  obtain ⟨⟨htext, hnext⟩, hback⟩ := h.of_append
  refine ⟨htext.ne_nil, fun v hv hs => ?_⟩
  have hlater := (hback.stops hnext).imp_right head?_of_stops
  rw [← stops_iff_endsText, stops_append hv hlater, htext.goes v hv hs]
  simp

/-! ## What fits is as long as it can be -/

theorem exists_of_map {α β : Type} {r : Read α} {f : α × List Char → β} {b : β}
    (h : r.map f = .ok b) :
    ∃ a, r = .ok a ∧ f a = b := by
  cases r with
  | error e => cases h
  | ok a => exact ⟨a, rfl, Except.ok.inj h⟩

theorem closes_of_closed {e : Erb} (h : (Piece.erb e).Closed) : e.Closes := by
  intro rest
  have hread := h rest
  have hstart : Start.of ((Piece.erb e).source ++ rest) = .erb := by
    obtain ⟨tail, htail⟩ := (startsErb_iff _).mp (startsErb_erb e rest)
    rw [Piece.source, ← htail]
    rfl
  rw [readMarkup.eq_def, hstart] at hread
  obtain ⟨⟨e', left⟩, hr, heq⟩ := exists_of_map hread
  cases heq
  exact hr

theorem not_infix_of_closed_comment {t : List Char} (h : (Piece.comment t).Closed) :
    ¬ commentClosing <:+: t := by
  have hread := h []
  have hstart : Start.of ((Piece.comment t).source ++ []) = .comment := rfl
  rw [readMarkup.eq_def, hstart] at hread
  obtain ⟨⟨u, left⟩, hr, heq⟩ := exists_of_map hread
  cases heq
  unfold readComment at hr
  split at hr <;> cases hr
  rename_i hcut
  exact not_infix_of_cut (by decide) hcut

theorem not_mem_of_closed_doctype {t : List Char} (h : (Piece.doctype t).Closed) :
    ¬ ['-', '-'] <+: t ∧ '>' ∉ t := by
  have hread := h []
  have hstart : Start.of ((Piece.doctype t).source ++ []) = if ['-', '-'] <+: t then .comment
      else .doctype :=
    (start_doctype (t ++ doctypeClosing ++ [])).trans (if_congr (dashes_append t []) rfl rfl)
  rw [readMarkup.eq_def, hstart] at hread
  by_cases hdashes : ['-', '-'] <+: t
  · rw [if_pos hdashes] at hread
    obtain ⟨a, -, heq⟩ := exists_of_map hread
    cases heq
  · rw [if_neg hdashes] at hread
    obtain ⟨⟨u, left⟩, hr, heq⟩ := exists_of_map hread
    cases heq
    unfold readDoctype at hr
    split at hr <;> cases hr
    rename_i hcut
    exact ⟨hdashes, mt (List.singleton_infix_iff '>' t).mpr (not_infix_of_cut (by decide) hcut)⟩

theorem IsLiteral.not_infix {ok : Char → Bool} {t : List Char} (h : IsLiteral ok t) :
    ¬ ['<', '%'] <:+: t := by
  rintro ⟨before, after, rfl⟩
  have hstart := h.noErb (['<', '%'] ++ after) ⟨before, by simp⟩
  cases hstart

theorem Parts.single {ok : Char → Bool} {parts : List ValuePart}
    (h : Parts ok parts) {part : ValuePart} (hpart : part ∈ parts) : Parts ok [part] := by
  induction h with
  | nil => cases hpart
  | erb he _ ih =>
    rcases List.mem_cons.mp hpart with rfl | hpart
    · exact .erb he .nil
    · exact ih hpart
  | last ht =>
    obtain rfl := List.mem_singleton.mp hpart
    exact .last ht
  | literal ht _ ih =>
    rcases List.mem_cons.mp hpart with rfl | hpart
    · exact .last ht
    · exact ih hpart

theorem Parts.isLiteral {ok : Char → Bool} {t : List Char} (h : Parts ok [.literal t]) :
    IsLiteral ok t := by
  cases h with
  | last ht => exact ht

theorem Parts.isChain {ok : Char → Bool} {parts : List ValuePart} (h : Parts ok parts) :
    parts.IsChain fun p q => ∀ t u, p = .literal t → q ≠ .literal u := by
  induction h with
  | nil => exact .nil
  | erb _ _ ih => exact ih.cons (by simp)
  | last => exact .singleton _
  | literal _ _ ih => exact ih.cons (by simp)

theorem Value.Fits.exists_parts {v : Value} {next : Option Char} (h : v.Fits next) :
    ∃ ok, Parts ok v.parts := by
  obtain ⟨quote, parts⟩ := v
  cases quote with
  | some q => exact ⟨_, h⟩
  | none => exact ⟨_, h.1⟩

theorem Chained.fits_of_mem {closes : Bool} {parts : List TagPart}
    (h : Chained closes parts) {part : TagPart} (hpart : part ∈ parts) :
    ∃ next, part.Fits next := by
  induction parts with
  | nil => cases hpart
  | cons first rest ih =>
    rcases List.mem_cons.mp hpart with rfl | hpart
    · exact ⟨_, h.1⟩
    · exact ih h.2 hpart

theorem Chained.isChain {closes : Bool} {parts : List TagPart} (h : Chained closes parts) :
    parts.IsChain fun p q => ∀ t u, p = .blank t → q ≠ .blank u := by
  induction parts with
  | nil => exact .nil
  | cons part rest ih =>
    obtain ⟨hpart, hrest⟩ := h
    refine (ih hrest).cons ?_
    rintro q hq t u rfl rfl
    obtain ⟨more, rfl⟩ := List.head?_eq_some_iff.mp hq
    obtain ⟨hne, hblank, -⟩ := hrest.1
    obtain ⟨c, tail, rfl⟩ := List.exists_cons_of_ne_nil hne
    have hstop := hpart.2.2 c rfl
    rw [hblank c List.mem_cons_self] at hstop
    cases hstop

theorem isChain_shown {keep closes : Bool} {parts : List TagPart} (h : Chained closes parts) :
    (parts.filter (TagPart.isShown keep)).IsChain fun p q => ∀ t u,
      p = .blank t → q ≠ .blank u := by
  cases keep with
  | true =>
    have hall : parts.filter (TagPart.isShown true) = parts := by
      rw [List.filter_eq_self]
      intro part _
      cases part <;> rfl
    rw [hall]
    exact h.isChain
  | false =>
    apply List.Pairwise.isChain
    apply List.pairwise_of_forall_mem_list
    rintro p hp q - t u rfl
    simp [TagPart.isShown] at hp

end Markup

/-! ## Kinds of nodes -/

namespace Content

/-- What bodies and the document itself hold. -/
def isFlow : Content → Bool
  | element .. | closeTag .. | text .. | erb .. | comment .. | doctype .. => true
  | _ => false

def isTagPart : Content → Bool
  | attr .. | whitespace .. | erb .. => true
  | _ => false

def isValuePart : Content → Bool
  | literal .. | erb .. => true
  | _ => false

def isAttrValue : Content → Bool
  | attrValue .. => true
  | _ => false

/-- No open tag and no run of characters. -/
def isMarkup : Content → Bool
  | element .. | closeTag .. | erb .. | comment .. | doctype .. => true
  | _ => false

/-- Two runs of characters of one kind, which could have been one. -/
def joins : Content → Content → Bool
  | text _, text _ | literal _, literal _ | whitespace _, whitespace _ => true
  | _, _ => false

theorem joins_comm (c c' : Content) : c.joins c' = c'.joins c := by
  cases c <;> cases c' <;> rfl

theorem isFlow_of_isMarkup {c : Content} (h : c.isMarkup = true) : c.isFlow = true := by
  cases c <;> first | rfl | cases h

theorem joins_of_isMarkup {c : Content} (c' : Content) (h : c.isMarkup = true) :
    c.joins c' = false := by
  cases c <;> first | rfl | cases h

theorem literals_of_joins {c c' : Content} (hc : c.isValuePart = true) (h : c.joins c' = true) :
    ∃ t u, c = .literal t ∧ c' = .literal u := by
  cases c <;> cases c' <;> simp_all [isValuePart, joins]

theorem whitespaces_of_joins {c c' : Content} (hc : c.isTagPart = true) (h : c.joins c' = true) :
    ∃ t u, c = .whitespace t ∧ c' = .whitespace u := by
  cases c <;> cases c' <;> simp_all [isTagPart, joins]

end Content

namespace Document

def HasKind (d : Document) (kind : Content → Bool) (x : NodeId) : Prop :=
  ∃ c, d.content? x = some c ∧ kind c = true

/-- The nodes are not runs of one kind. -/
def Parted (d : Document) (x y : NodeId) : Prop :=
  ∀ c c', d.content? x = some c → d.content? y = some c' → c.joins c' = false

/-- A literal holds no start of embedded Ruby, and neither the quote of its value nor, without one,
what ends it. -/
def LiteralFits (openQuote : Option Token) (t : List Char) : Prop :=
  ¬ ['<', '%'] <:+: t ∧
    match openQuote with
    | some mark => ∀ c ∈ t, c ∉ mark.chars
    | none => ∀ c ∈ t, isBlank c = false ∧ c ≠ '>'

/-- The text stands where its token says, and at no place inside it would one end. -/
def TextFits (d : Document) (source : List Char) (x : NodeId) (t : Token) : Prop :=
  ∃ parent before after, d.parent? x = some parent ∧ source = before ++ t.chars ++ after ∧
    t.location.start = Position.start.advance before ∧
    ∀ v, v ≠ [] → v <:+ t.chars → ¬ EndsText (d.elementName? parent) (v ++ after)

/-- What the grammar says of a node of each kind. -/
def LawFor (d : Document) (source : List Char) (x : NodeId) : Content → Prop
  | .document children => x = d.root ∧ ∀ y ∈ children, d.HasKind Content.isFlow y
  | .element first body last _ =>
    d.HasKind Content.isOpenTag first ∧ (∀ y ∈ body, d.HasKind Content.isFlow y) ∧
      ∀ y ∈ last, d.HasKind Content.isCloseTag y
  | .openTag _ name children _ =>
    IsTagName name.chars ∧ ∀ y ∈ children, d.HasKind Content.isTagPart y
  | .closeTag _ name _ _ => IsTagName name.chars
  | .attr name equals value => IsAttributeName name.chars ∧ equals.isSome = value.isSome ∧
      ∀ y ∈ value, d.HasKind Content.isAttrValue y
  | .attrValue openQuote children closeQuote =>
    closeQuote.map Token.chars = openQuote.map Token.chars ∧
      (∀ mark ∈ openQuote, ∃ quote : Quote, mark.chars = [quote.char]) ∧
      ∀ y ∈ children, d.HasKind Content.isValuePart y ∧
        ∀ t, d.content? y = some (.literal t) → LiteralFits openQuote t.chars
  | .literal content => content.chars ≠ []
  | .whitespace content => content.chars ≠ [] ∧ ∀ c ∈ content.chars, isBlank c = true
  | .text content => content.chars ≠ [] ∧ d.TextFits source x content
  | .erb opening content closing =>
    ∃ e : Erb, opening.chars = e.opening.text ∧ content.chars = e.content ∧
      closing.chars = e.closing ∧ e.Complete
  | .comment _ content _ => ¬ commentClosing <:+: content.chars
  | .doctype _ content _ => ¬ ['-', '-'] <+: content.chars ∧ '>' ∉ content.chars

structure Lawful (d : Document) (source : List Char) (x : NodeId) (c : Content) : Prop where
  law : d.LawFor source x c
  parted : c.children.IsChain d.Parted

variable {d : Document} {source : List Char} {x y : NodeId} {c : Content}

theorem HasKind.of_content? {kind : Content → Bool} (h : d.HasKind kind x)
    (hx : d.content? x = some c) :
    kind c = true := by
  obtain ⟨other, hother, hkind⟩ := h
  rw [hx] at hother
  cases hother
  exact hkind

theorem HasKind.imp {kind kind' : Content → Bool} (h : d.HasKind kind x)
    (hkind : ∀ c, kind c = true → kind' c = true) : d.HasKind kind' x := by
  obtain ⟨c, hc, hk⟩ := h
  exact ⟨c, hc, hkind c hk⟩

theorem parted_of_left {kind : Content → Bool} (h : d.HasKind kind x)
    (hkind : ∀ c c', kind c = true → c.joins c' = false) : d.Parted x y :=
  fun c c' hc _ => hkind c c' (h.of_content? hc)

theorem parted_of_right {kind : Content → Bool} (h : d.HasKind kind y)
    (hkind : ∀ c c', kind c = true → c.joins c' = false) : d.Parted x y := by
  intro c c' _ hc'
  rw [Content.joins_comm]
  exact hkind c' c (h.of_content? hc')

theorem isChain_of_forall₂ {α : Type} {H : NodeId → α → Prop} {S : α → α → Prop}
    {ids : List NodeId} {parts : List α} (h : List.Forall₂ H ids parts) (hparts : parts.IsChain S)
    (hstep : ∀ x y p q, H x p → H y q → S p q → d.Parted x y) : ids.IsChain d.Parted := by
  induction h with
  | nil => exact .nil
  | cons hx hrest ih =>
    refine (ih hparts.tail).cons ?_
    cases hrest with
    | nil => simp
    | cons hy _ =>
      rintro y ⟨⟩
      exact hstep _ _ _ _ hx hy (List.isChain_cons_cons.mp hparts).1

/-! ## Inside a tag -/

theorem HoldsErb.lawful {e : Erb} (h : d.HoldsErb x e) (he : e.Closes)
    (hx : d.content? x = some c) :
    d.Lawful source x c := by
  obtain ⟨opening, content, closing, hc, hopening, hcontent, hclosing⟩ := h
  rw [hc] at hx
  cases hx
  exact ⟨⟨e, hopening, hcontent, hclosing, he.complete⟩, .nil⟩

theorem HoldsPart.hasKind {part : ValuePart} (h : d.HoldsPart x part) :
    d.HasKind Content.isValuePart x := by
  cases part with
  | literal t =>
    obtain ⟨_, hc, -⟩ := h
    exact ⟨_, hc, rfl⟩
  | erb e =>
    obtain ⟨_, _, _, hc, -⟩ := h
    exact ⟨_, hc, rfl⟩

theorem HoldsPart.lawful {ok : Char → Bool} {part : ValuePart} (h : d.HoldsPart x part)
    (hpart : Parts ok [part]) (hx : d.content? x = some c) : d.Lawful source x c := by
  cases part with
  | literal t =>
    obtain ⟨content, hc, rfl⟩ := h
    rw [hc] at hx
    cases hx
    exact ⟨hpart.isLiteral.ne_nil, .nil⟩
  | erb e =>
    cases hpart with
    | erb he _ => exact HoldsErb.lawful h he hx

theorem HoldsPart.literal_of_content? {part : ValuePart} {t : Token} (h : d.HoldsPart x part)
    (hx : d.content? x = some (.literal t)) : part = .literal t.chars := by
  cases part with
  | literal u =>
    obtain ⟨content, hc, rfl⟩ := h
    rw [hc] at hx
    cases hx
    rfl
  | erb e =>
    obtain ⟨_, _, _, hc, -⟩ := h
    rw [hc] at hx
    cases hx

theorem HoldsPart.parted {p q : ValuePart} (hx : d.HoldsPart x p) (hy : d.HoldsPart y q)
    (h : ∀ t u, p = .literal t → q ≠ .literal u) : d.Parted x y := by
  intro c c' hc hc'
  by_contra hjoin
  obtain ⟨t, u, rfl, rfl⟩ :=
    Content.literals_of_joins (hx.hasKind.of_content? hc) (by simpa using hjoin)
  exact h _ _ (hx.literal_of_content? hc) (hy.literal_of_content? hc')

theorem literalFits_of_fits {v : Value} {next : Option Char} (hv : v.Fits next)
    {openQuote : Option Token} (hopen : openQuote.map Token.chars = v.quote.map fun q => [q.char])
    {t : List Char} (ht : .literal t ∈ v.parts) :
    LiteralFits openQuote t := by
  obtain ⟨quote, parts⟩ := v
  cases quote with
  | some q =>
    have hliteral := (Parts.single hv ht).isLiteral
    obtain ⟨mark, rfl, hmark⟩ := Option.map_eq_some_iff.mp hopen
    refine ⟨hliteral.not_infix, fun c hc => ?_⟩
    rw [hmark, List.mem_singleton]
    simpa using hliteral.ok c hc
  | none =>
    have hliteral := (hv.1.single ht).isLiteral
    obtain rfl : openQuote = none := by simpa using hopen
    refine ⟨hliteral.not_infix, fun c hc => ?_⟩
    simpa [isBareChar] using hliteral.ok c hc

theorem HoldsValue.lawful {v : Value} {next : Option Char} (h : d.HoldsValue x v) (hv : v.Fits next)
    (hx : d.content? x = some c) : d.Lawful source x c := by
  obtain ⟨openQuote, children, closeQuote, hc, hopen, hclose, hparts⟩ := h
  rw [hc] at hx
  cases hx
  obtain ⟨ok, hok⟩ := Value.Fits.exists_parts hv
  refine ⟨⟨hclose.trans hopen.symm, ?_, ?_⟩,
    isChain_of_forall₂ hparts hok.isChain fun _ _ _ _ => HoldsPart.parted⟩
  · rintro mark ⟨⟩
    obtain ⟨q, -, hq⟩ := Option.map_eq_some_iff.mp hopen.symm
    exact ⟨q, hq.symm⟩
  · intro y hy
    obtain ⟨part, hmem, hpart⟩ := exists_of_mem_forall₂ hparts hy
    refine ⟨hpart.hasKind, fun t ht => literalFits_of_fits hv hopen ?_⟩
    rwa [← hpart.literal_of_content? ht]

theorem HoldsAttribute.lawful {a : Attribute} {next : Option Char}
    (h : d.HoldsAttribute x a) (ha : a.Fits next) (hx : d.content? x = some c) :
    d.Lawful source x c := by
  obtain ⟨name, equals, value, hc, hname, hequals, hvalue⟩ := h
  rw [hc] at hx
  cases hx
  have hsome : equals.isSome = value.isSome := by
    rw [← Option.isSome_map, hequals, Option.isSome_map]
    generalize a.value = v at hvalue
    cases hvalue <;> rfl
  refine ⟨⟨hname ▸ ha.1, hsome, ?_⟩, by cases value <;> simp [Content.children]⟩
  rintro y ⟨⟩
  generalize a.value = v at hvalue
  cases hvalue with
  | some hv =>
    obtain ⟨_, _, _, hc', -⟩ := hv
    exact ⟨_, hc', rfl⟩

theorem HoldsTagPart.hasKind {part : TagPart} (h : d.HoldsTagPart x part) :
    d.HasKind Content.isTagPart x := by
  cases part with
  | blank t =>
    obtain ⟨_, hc, -⟩ := h
    exact ⟨_, hc, rfl⟩
  | erb e =>
    obtain ⟨_, _, _, hc, -⟩ := h
    exact ⟨_, hc, rfl⟩
  | attr a =>
    obtain ⟨_, _, _, hc, -⟩ := h
    exact ⟨_, hc, rfl⟩

theorem HoldsTagPart.lawful {part : TagPart} {next : Option Char} (h : d.HoldsTagPart x part)
    (hpart : part.Fits next) (hx : d.content? x = some c) : d.Lawful source x c := by
  cases part with
  | blank t =>
    obtain ⟨content, hc, rfl⟩ := h
    rw [hc] at hx
    cases hx
    exact ⟨⟨hpart.1, hpart.2.1⟩, .nil⟩
  | erb e => exact HoldsErb.lawful h hpart hx
  | attr a => exact HoldsAttribute.lawful h hpart.1 hx

theorem HoldsTagPart.blank_of_content? {part : TagPart} {t : Token} (h : d.HoldsTagPart x part)
    (hx : d.content? x = some (.whitespace t)) : part = .blank t.chars := by
  cases part with
  | blank u =>
    obtain ⟨content, hc, rfl⟩ := h
    rw [hc] at hx
    cases hx
    rfl
  | erb e =>
    obtain ⟨_, _, _, hc, -⟩ := h
    rw [hc] at hx
    cases hx
  | attr a =>
    obtain ⟨_, _, _, hc, -⟩ := h
    rw [hc] at hx
    cases hx

theorem HoldsTagPart.parted {p q : TagPart} (hx : d.HoldsTagPart x p) (hy : d.HoldsTagPart y q)
    (h : ∀ t u, p = .blank t → q ≠ .blank u) : d.Parted x y := by
  intro c c' hc hc'
  by_contra hjoin
  obtain ⟨t, u, rfl, rfl⟩ :=
    Content.whitespaces_of_joins (hx.hasKind.of_content? hc) (by simpa using hjoin)
  exact h _ _ (hx.blank_of_content? hc) (hy.blank_of_content? hc')

/-! ## Tags and other pieces -/

variable {keep : Bool} {ps : List Piece} {open_ : Nesting} {ids : List NodeId} {b : Bool}

theorem HoldsOpenTag.lawful {t : OpenTag}
    (h : d.HoldsPiece x (.openTag (t.shown keep))) (ht : t.Fits) (hx : d.content? x = some c) :
    d.Lawful source x c := by
  obtain ⟨opening, name, children, closing, hc, -, hname, hparts, -⟩ := h
  rw [hc] at hx
  cases hx
  refine ⟨⟨hname ▸ ht.name, fun y hy => ?_⟩,
    isChain_of_forall₂ hparts (isChain_shown ht.chained) fun _ _ _ _ => HoldsTagPart.parted⟩
  obtain ⟨part, -, hpart⟩ := exists_of_mem_forall₂ hparts hy
  exact hpart.hasKind

theorem HoldsPiece.lawful {p : Piece} (h : d.HoldsPiece x p) (hp : p.Fits)
    (htag : ∀ t, p ≠ .openTag t) (hx : d.content? x = some c) : d.Lawful source x c := by
  cases p with
  | text t => exact hp.elim
  | openTag t => exact absurd rfl (htag t)
  | erb e => exact HoldsErb.lawful h (closes_of_closed hp) hx
  | closeTag t =>
    obtain ⟨_, _, _, _, hc, -, hname, -⟩ := h
    rw [hc] at hx
    cases hx
    have hfits : IsTagName t.name := hp.name
    rw [← hname] at hfits
    exact ⟨hfits, .nil⟩
  | comment t =>
    obtain ⟨_, _, _, hc, -, rfl, -⟩ := h
    rw [hc] at hx
    cases hx
    exact ⟨not_infix_of_closed_comment hp, .nil⟩
  | doctype t =>
    obtain ⟨_, _, _, hc, -, rfl, -⟩ := h
    rw [hc] at hx
    cases hx
    exact ⟨not_mem_of_closed_doctype hp, .nil⟩

theorem HoldsPiece.isMarkup {p : Piece} (h : d.HoldsPiece x p) (htext : ∀ t, p ≠ .text t)
    (htag : ∀ t, p ≠ .openTag t) :
    d.HasKind Content.isMarkup x := by
  cases p with
  | text t => exact absurd rfl (htext t)
  | openTag t => exact absurd rfl (htag t)
  | closeTag t =>
    obtain ⟨_, _, _, _, hc, -⟩ := h
    exact ⟨_, hc, rfl⟩
  | _ =>
    obtain ⟨_, _, _, hc, -⟩ := h
    exact ⟨_, hc, rfl⟩

/-! ## Bodies -/

inductive Resident (d : Document) (keep : Bool) (ps : List Piece) (open_ : Nesting)
    (x : NodeId) : Prop where
  | text {token : Token} {front back : List Piece} (hx : d.content? x = some (.text token))
      (hps : ps = front ++ .text token.chars :: back) (hopen : front.foldl Nesting.after [] = open_)
      (hstart : token.location.start = Position.start.advance (front.flatMap Piece.source))
  | piece {p : Piece} (hp : p ∈ ps) (hx : d.HoldsPiece x p) (htext : ∀ t, p ≠ .text t)
      (htag : ∀ t, p ≠ .openTag t)
  | element {first : NodeId} {inside : List NodeId} {last : Option NodeId}
      {isVoid b : Bool} {t : OpenTag} (hx : d.content? x = some (.element first inside last isVoid))
      (ht : .openTag t ∈ ps) (hfirst : d.HoldsPiece first (.openTag (t.shown keep)))
      (hinside : d.Body keep ps (t.lowerName :: open_) inside b)
      (hlast : ∀ y ∈ last, ∃ t', .closeTag t' ∈ ps ∧ d.HoldsPiece y (.closeTag t'))

theorem Body.resident (h : d.Body keep ps open_ ids b) (hx : x ∈ ids) :
    d.Resident keep ps open_ x := by
  induction h with
  | nil => cases hx
  | text _ hcontent hps hopen hstart ih =>
    rcases List.mem_append.mp hx with hx | hx
    · exact ih hx
    · obtain rfl := List.mem_singleton.mp hx
      exact .text hcontent hps hopen hstart
  | piece _ hp hholds htext htag ih =>
    rcases List.mem_append.mp hx with hx | hx
    · exact ih hx
    · obtain rfl := List.mem_singleton.mp hx
      exact .piece hp hholds htext htag
  | element _ hcontent ht hfirst hinside hlast ih _ =>
    rcases List.mem_append.mp hx with hx | hx
    · exact ih hx
    · obtain rfl := List.mem_singleton.mp hx
      exact .element hcontent ht hfirst hinside hlast

theorem Resident.isFlow (h : d.Resident keep ps open_ x) : d.HasKind Content.isFlow x := by
  cases h with
  | text hx => exact ⟨_, hx, rfl⟩
  | piece _ hx htext htag => exact (hx.isMarkup htext htag).imp fun _ => Content.isFlow_of_isMarkup
  | element hx => exact ⟨_, hx, rfl⟩

theorem isChain_append_markup (h : ids.IsChain d.Parted) (hx : d.HasKind Content.isMarkup x) :
    (ids ++ [x]).IsChain d.Parted :=
  h.append (.singleton x) fun _ _ y hy => by
    cases hy
    exact parted_of_right hx fun _ => Content.joins_of_isMarkup

theorem Body.isChain (h : d.Body keep ps open_ ids b) :
    ids.IsChain d.Parted ∧ (b = false → ∀ y ∈ ids.getLast?, d.HasKind Content.isMarkup y) := by
  -- What ends in no text can be followed by one, and anything else comes after texts.
  induction h with
  | nil => exact ⟨.nil, by simp⟩
  | text _ _ _ _ _ ih =>
    refine ⟨ih.1.append (.singleton _) fun y hy _ _ => ?_, by simp⟩
    exact parted_of_left (ih.2 rfl y hy) fun _ => Content.joins_of_isMarkup
  | piece _ _ hx htext htag ih =>
    have hmarkup := hx.isMarkup htext htag
    exact ⟨isChain_append_markup ih.1 hmarkup, by simpa using hmarkup⟩
  | element _ hx _ _ _ _ ih _ =>
    have hmarkup : d.HasKind Content.isMarkup _ := ⟨_, hx, rfl⟩
    exact ⟨isChain_append_markup ih.1 hmarkup, by simpa using hmarkup⟩

theorem lawful_of_text {token : Token} {front back : List Piece} {parent : NodeId}
    (hreadable : Readable [] (front ++ .text token.chars :: back))
    (hstart : token.location.start = Position.start.advance (front.flatMap Piece.source))
    (hparent : d.parent? x = some parent)
    (hname : d.elementName? parent = (front.foldl Nesting.after []).head?) :
    d.Lawful ((front ++ Piece.text token.chars :: back).flatMap Piece.source) x (.text token) := by
  obtain ⟨hne, hgoes⟩ := hreadable.text_goes
  refine ⟨⟨hne, parent, front.flatMap Piece.source, back.flatMap Piece.source, hparent,
    ?_, hstart, ?_⟩, .nil⟩
  · simp [Piece.source]
  · rwa [hname]

theorem lawful_of_element {first : NodeId} {inside : List NodeId}
    {last : Option NodeId} {isVoid : Bool} (hfirst : d.HasKind Content.isOpenTag first)
    (hinside : d.Body keep ps open_ inside b) (hlast : ∀ y ∈ last, d.HasKind Content.isCloseTag y) :
    d.Lawful source x (.element first inside last isVoid) := by
  refine ⟨⟨hfirst, fun y hy => (hinside.resident hy).isFlow, hlast⟩, ?_⟩
  have hopen (c c' : Content) (hc : c.isOpenTag = true) : c.joins c' = false := by
    cases c <;> first | rfl | cases hc
  have hclose (c : Content) (hc : c.isCloseTag = true) : c.isMarkup = true := by
    cases c <;> first | rfl | cases hc
  have hbody : (inside ++ last.toList).IsChain d.Parted := by
    cases last with
    | none => simpa using hinside.isChain.1
    | some y => exact isChain_append_markup hinside.isChain.1 ((hlast y rfl).imp hclose)
  exact hbody.cons fun _ _ => parted_of_left hfirst hopen

theorem Resident.lawful {parent : NodeId} (h : d.Resident keep ps open_ x)
    (hreadable : Readable [] ps) (hparent : d.parent? x = some parent)
    (hname : d.elementName? parent = open_.head?) (hx : d.content? x = some c) :
    d.Lawful (ps.flatMap Piece.source) x c := by
  cases h with
  | text hcontent hps hopen hstart =>
    rw [hcontent] at hx
    cases hx
    subst hps hopen
    exact lawful_of_text hreadable hstart hparent hname
  | piece hp hholds htext htag => exact hholds.lawful (hreadable.fits_of_mem hp htext) htag hx
  | element hcontent _ hfirst hinside hlast =>
    rw [hcontent] at hx
    cases hx
    obtain ⟨_, _, _, _, hfirst, -⟩ := hfirst
    refine lawful_of_element ⟨_, hfirst, rfl⟩ hinside fun y hy => ?_
    obtain ⟨_, -, _, _, _, _, hlast, -⟩ := hlast y hy
    exact ⟨_, hlast, rfl⟩

/-! ## Where a node stands -/

/-- What a node of a parsed document is, and what it was read from. -/
inductive Standing (d : Document) (keep : Bool) (ps : List Piece) (x : NodeId) : Prop where
  | root (h : x = d.root)
  | inBody {open_ : Nesting} {parent : NodeId} (hx : d.Resident keep ps open_ x)
      (hparent : d.parent? x = some parent) (hname : d.elementName? parent = open_.head?)
  | openTag {t : OpenTag} (ht : t.Fits) (hx : d.HoldsPiece x (.openTag (t.shown keep)))
  | closeTag {t : CloseTag} (ht : t.Fits) (hx : d.HoldsPiece x (.closeTag t))
  | tagPart {part : TagPart} {next : Option Char} (hpart : part.Fits next)
      (hx : d.HoldsTagPart x part)
  | value {v : Value} {next : Option Char} (hv : v.Fits next) (hx : d.HoldsValue x v)
  | valuePart {part : ValuePart} {ok : Char → Bool} (hpart : Parts ok [part])
      (hx : d.HoldsPart x part)

variable {child : NodeId}

theorem standing_of_openTag {t : OpenTag} (ht : t.Fits)
    (hx : d.HoldsPiece x (.openTag (t.shown keep))) (hchild : child ∈ d.children x) :
    d.Standing keep ps child := by
  obtain ⟨_, _, children, _, hcontent, -, -, hparts, -⟩ := hx
  rw [children_of_content? hcontent] at hchild
  obtain ⟨part, hmem, hpart⟩ := exists_of_mem_forall₂ hparts hchild
  obtain ⟨next, hfits⟩ := ht.chained.fits_of_mem (List.mem_of_mem_filter hmem)
  exact .tagPart hfits hpart

theorem standing_of_tagPart {part : TagPart} {next : Option Char} (hpart : part.Fits next)
    (hx : d.HoldsTagPart x part) (hchild : child ∈ d.children x) : d.Standing keep ps child := by
  cases part with
  | blank t =>
    obtain ⟨_, hcontent, -⟩ := hx
    simp [children_of_content? hcontent, Content.children] at hchild
  | erb e => simp [HoldsErb.children_eq hx] at hchild
  | attr a =>
    obtain ⟨name, equals, value, hcontent, -, -, hvalue⟩ := hx
    obtain rfl : value = some child := by
      simpa [children_of_content? hcontent, Content.children] using hchild
    have hfits := hpart.1.2
    generalize a.value = v at hvalue hfits
    cases hvalue with
    | some hv => exact .value hfits hv

theorem standing_of_value {v : Value} {next : Option Char} (hv : v.Fits next)
    (hx : d.HoldsValue x v) (hchild : child ∈ d.children x) : d.Standing keep ps child := by
  obtain ⟨_, children, _, hcontent, -, -, hparts⟩ := hx
  rw [children_of_content? hcontent] at hchild
  obtain ⟨part, hmem, hpart⟩ := exists_of_mem_forall₂ hparts hchild
  obtain ⟨ok, hok⟩ := hv.exists_parts
  exact .valuePart (hok.single hmem) hpart

section
variable (hf : d.Forest [d.root]) (hreadable : Readable [] ps)
include hf hreadable

theorem Resident.standing_child (h : d.Resident keep ps open_ x) (hchild : child ∈ d.children x) :
    d.Standing keep ps child := by
  cases h with
  | text hx => simp [children_of_content? hx, Content.children] at hchild
  | piece _ hx _ htag =>
    obtain ⟨t, rfl⟩ := hx.openTag_of_child hchild
    exact absurd rfl (htag t)
  | @element first inside last _ _ t hx ht hfirst hinside hlast =>
    have hparent : d.parent? child = some x := (hf.child_iff x child).mp hchild
    have hkids : child = first ∨ child ∈ inside ∨ child ∈ last := by
      simpa [children_of_content? hx, Content.children] using hchild
    rcases hkids with rfl | hmem | hmem
    · exact .openTag (hreadable.fits_of_mem ht (by simp)) hfirst
    · refine .inBody (hinside.resident hmem) hparent ?_
      rw [elementName?_of_element hx, HoldsOpenTag.openName?_eq hfirst]
      rfl
    · obtain ⟨t', ht', hholds⟩ := hlast child hmem
      exact .closeTag (hreadable.fits_of_mem ht' (by simp)) hholds

variable {children : List NodeId} (hroot : d.content? d.root = some (.document children))
  (hbody : d.Body keep ps [] children b)
include hroot hbody

omit hreadable in
theorem standing_of_root (hchild : child ∈ d.children d.root) : d.Standing keep ps child := by
  have hmem : child ∈ children := by rwa [children_of_content? hroot] at hchild
  refine .inBody (hbody.resident hmem) ((hf.child_iff d.root child).mp hchild) ?_
  rw [List.head?_nil, Option.eq_none_iff_forall_ne_some]
  intro name hname
  obtain ⟨_, _, _, _, helement⟩ := element_of_elementName? hname
  rw [hroot] at helement
  cases helement

theorem standing_of_isLive (hx : d.isLive x = true) : d.Standing keep ps x := by
  -- From the root down: each node tells what its children are.
  induction hf.below_of_top_eq hx with
  | refl => exact .root rfl
  | @tail y z hy hz ih =>
    have hlive := hf.isLive_of_below hy ((hf.mem_tops d.root).mp (by simp)).1
    cases ih hlive with
    | root h =>
      subst h
      exact standing_of_root hf hroot hbody hz
    | inBody h _ _ => exact h.standing_child hf hreadable hz
    | openTag ht h => exact standing_of_openTag ht h hz
    | closeTag _ h =>
      obtain ⟨t, ht⟩ := h.openTag_of_child hz
      cases ht
    | tagPart hpart h => exact standing_of_tagPart hpart h hz
    | value hv h => exact standing_of_value hv h hz
    | valuePart _ h => simp [h.children_eq] at hz

theorem lawful_of_body (hx : d.content? x = some c) : d.Lawful (ps.flatMap Piece.source) x c := by
  obtain ⟨node, hget, -⟩ := get?_of_content? hx
  cases standing_of_isLive hf hreadable hroot hbody (isLive_of_get? hget) with
  | root h =>
    subst h
    rw [hroot] at hx
    cases hx
    exact ⟨⟨rfl, fun y hy => (hbody.resident hy).isFlow⟩, hbody.isChain.1⟩
  | inBody h hparent hname => exact h.lawful hreadable hparent hname hx
  | openTag ht h => exact HoldsOpenTag.lawful h ht hx
  | closeTag ht h => exact h.lawful ht (by simp) hx
  | tagPart hpart h => exact h.lawful hpart hx
  | value hv h => exact HoldsValue.lawful h hv hx
  | valuePart hpart h => exact h.lawful hpart hx

end

end Document

/-- Every node of a parsed document obeys the grammar. -/
theorem parse_lawful {source : String} {keep : Bool} {d : Document}
    (h : Document.parse source keep = .ok d) :
    (∃ children, d.content? d.root = some (.document children)) ∧
      ∀ x c, d.content? x = some c → d.Lawful source.toList x c := by
  obtain ⟨ps, hread, hd⟩ := exists_readPieces_of_parse h
  have hreadable := readable_of_readPieces hread
  have hapart (front : List Piece) (t : List Char) (back : List Piece)
      (hps : ps = front ++ .text t :: back) :
      ∀ u, front.getLast? ≠ some (.text u) := by
    rw [hps] at hreadable
    exact hreadable.text_apart
  obtain ⟨children, b, hroot, hbody⟩ := body_ofPieces keep hapart
  rw [← hd] at hroot hbody
  rw [← source_readPieces hread]
  exact ⟨⟨children, hroot⟩,
    fun x c hx => Document.lawful_of_body (forest_of_parse h) hreadable hroot hbody hx⟩

/-- Tags are text inside a script, and a text may end in what looks like a tag. -/
theorem parse_lawful_script : ∃ d raw text mark mark',
    Document.parse "<script>a<b</p></SCRIPT><p b='q<%# c %>r'>1 <<%== 2 -%>" true = .ok d ∧
    d.content? 1 = some (.text raw) ∧ raw.chars = ['a', '<', 'b', '<', '/', 'p', '>'] ∧
    d.content? 11 = some (.text text) ∧ text.chars = ['1', ' ', '<'] ∧
    d.content? 8 = some (.attrValue (some mark) [5, 6, 7] (some mark')) ∧
    d.TextFits "<script>a<b</p></SCRIPT><p b='q<%# c %>r'>1 <<%== 2 -%>".toList 1 raw ∧
    d.TextFits "<script>a<b</p></SCRIPT><p b='q<%# c %>r'>1 <<%== 2 -%>".toList 11 text ∧
    ∀ y ∈ [5, 6, 7], d.HasKind Content.isValuePart y ∧
      ∀ t, d.content? y = some (.literal t) → Document.LiteralFits (some mark) t.chars := by
  have hok : (Document.parse "<script>a<b</p></SCRIPT><p b='q<%# c %>r'>1 <<%== 2 -%>"
      true).toOption.any (fun d =>
      decide (d.content? 1 = some (.text ⟨"a<b</p>", ⟨⟨1, 8⟩, ⟨1, 15⟩⟩⟩) ∧
      d.content? 11 = some (.text ⟨"1 <", ⟨⟨1, 42⟩, ⟨1, 45⟩⟩⟩) ∧
      d.content? 8 = some (.attrValue (some ⟨"'", ⟨⟨1, 29⟩, ⟨1, 30⟩⟩⟩) [5, 6, 7]
        (some ⟨"'", ⟨⟨1, 40⟩, ⟨1, 41⟩⟩⟩)))) = true := by
    decide +kernel
  obtain ⟨d, hd, hfacts⟩ := exists_ok_of_any hok
  obtain ⟨hraw, htext, hvalue⟩ := of_decide_eq_true hfacts
  have hlawful := (parse_lawful hd).2
  exact ⟨d, _, _, _, _, hd, hraw, by decide, htext, by decide, hvalue, (hlawful 1 _ hraw).law.2,
    (hlawful 11 _ htext).law.2, (hlawful 8 _ hvalue).law.2.2⟩

end TemplateLint
