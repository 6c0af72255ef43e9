import TemplateLint.Proofs.RoundTrip
import TemplateLint.Proofs.Rows

/-!
# Pairs of tags

Main statement: in a parsed document the open and close tags pair up by the innermost open element
of a name, and what finds no partner stands where it must (`parse_paired`). It is read off the rows
of the document, node by node from the root on.
-/

namespace TemplateLint

open Markup Text

theorem Markup.OpenTag.opens_iff {t : OpenTag} :
    t.opens = true ↔ t.isVoid = false ∧ t.selfClosing = false := by
  simp [OpenTag.opens]

namespace Document

/-! ## Names and ends -/

def openName? (d : Document) (id : NodeId) : Option (List Char) :=
  match d.content? id with
  | some (.openTag _ name _ _) => some (asciiLower name.chars)
  | _ => none

def closeName? (d : Document) (id : NodeId) : Option (List Char) :=
  match d.content? id with
  | some (.closeTag _ name _ _) => some (asciiLower name.chars)
  | _ => none

def elementName? (d : Document) (id : NodeId) : Option (List Char) :=
  (d.tagName? id).map fun name => asciiLower name.toList

def isSelfClosing (d : Document) (tag : NodeId) : Bool :=
  match d.content? tag with
  | some (.openTag _ _ _ closing) => closing.chars == ['/', '>']
  | _ => false

/-- An element that is neither void nor self-closing and has no close tag. -/
def Unclosed (d : Document) (id : NodeId) : Prop :=
  ∃ first body, d.content? id = some (.element first body none false) ∧
    d.isSelfClosing first = false

def lastOfBody? (d : Document) (id : NodeId) : Option NodeId :=
  match d.content? id with
  | some (.element _ body _ _) => body.getLast?
  | _ => none

/-- The unclosed elements that end with `e`: the last node of its body, of that one's body, and so
on. -/
inductive EndsWith (d : Document) (e : NodeId) : NodeId → Prop where
  | last {x : NodeId} (hx : d.lastOfBody? e = some x) (hu : d.Unclosed x) : EndsWith d e x
  | deeper {y x : NodeId} (hy : EndsWith d e y) (hx : d.lastOfBody? y = some x)
      (hu : d.Unclosed x) : EndsWith d e x

structure Paired (d : Document) : Prop where
  /-- A close tag has the name of the open tag, which is neither void nor self-closing. -/
  closed : ∀ {id first last : NodeId} {body : List NodeId} {isVoid : Bool},
    d.content? id = some (.element first body (some last) isVoid) →
      (∃ name, d.openName? first = some name ∧ d.closeName? last = some name) ∧ isVoid = false ∧
        d.isSelfClosing first = false
  /-- The names tell which elements are void. What is void or self-closing holds nothing. -/
  void : ∀ {id first : NodeId} {body : List NodeId} {last : Option NodeId} {isVoid : Bool},
    d.content? id = some (.element first body last isVoid) →
      (∃ name, d.openName? first = some name ∧ (isVoid = true ↔ name ∈ voidNames)) ∧
        (isVoid = true ∨ d.isSelfClosing first = true → body = [] ∧ last = none)
  /-- A close tag that closes nothing is in no element of its name. -/
  stray : ∀ {id : NodeId} {name : List Char}, d.closeName? id = some name →
    (∀ p first body isVoid, d.parent? id = some p →
      d.content? p ≠ some (.element first body (some id) isVoid)) →
      ∀ a, d.Below a id → d.elementName? a ≠ some name
  /-- An unclosed element is the last node in a body, or of the document. -/
  unclosed : ∀ {id : NodeId}, d.Unclosed id → ∃ p, d.parent? id = some p ∧
    (d.lastOfBody? p = some id ∨ p = d.root ∧ (d.children p).getLast? = some id)
  /-- A close tag closes the innermost element of its name. -/
  innermost : ∀ {id first last : NodeId} {body : List NodeId} {isVoid : Bool},
    d.content? id = some (.element first body (some last) isVoid) → ∀ x, d.EndsWith id x →
      d.elementName? x ≠ d.elementName? id

variable {d : Document} {x c first : NodeId} {enclosing trail : Nesting} {ids body : List NodeId}
  {last : Option NodeId} {isVoid : Bool}

theorem HoldsOpenTag.openName?_eq {t : OpenTag} (h : d.HoldsPiece x (.openTag t)) :
    d.openName? x = some t.lowerName := by
  obtain ⟨opening, name, children, closing, hc, -, hname, -⟩ := h
  simp only [openName?, hc, hname]
  rfl

theorem HoldsOpenTag.isSelfClosing_eq {t : OpenTag} (h : d.HoldsPiece x (.openTag t)) :
    d.isSelfClosing x = t.selfClosing := by
  obtain ⟨opening, name, children, closing, hc, -, -, -, hclosing⟩ := h
  simp only [isSelfClosing, hc, hclosing, OpenTag.closing]
  cases t.selfClosing <;> rfl

theorem HoldsCloseTag.closeName?_eq {t : CloseTag} (h : d.HoldsPiece x (.closeTag t)) :
    d.closeName? x = some t.lowerName := by
  obtain ⟨opening, name, trailing, closing, hc, -, hname, -⟩ := h
  simp only [closeName?, hc, hname]
  rfl

theorem HoldsPiece.content_ne_element {p : Piece} (h : d.HoldsPiece x p) :
    d.content? x ≠ some (.element first body last isVoid) := by
  obtain ⟨content, hcontent, hleaf⟩ := h.leaf
  intro hx
  rw [hx] at hcontent
  exact hleaf _ _ _ _ (Option.some.inj hcontent).symm

theorem elementName?_of_element (hx : d.content? x = some (.element first body last isVoid)) :
    d.elementName? x = d.openName? first := by
  obtain ⟨⟨location, content⟩, hget, rfl⟩ := get?_of_content? hx
  unfold elementName? tagName? openName? content?
  simp only [hget]
  rcases d.get? first with _ | ⟨location', content'⟩
  · rfl
  · cases content' <;> rfl

theorem element_of_elementName? {name : List Char} (h : d.elementName? x = some name) :
    ∃ first body last isVoid, d.content? x = some (.element first body last isVoid) := by
  obtain ⟨text, htext, -⟩ := Option.map_eq_some_iff.mp h
  unfold tagName? at htext
  split at htext
  · rename_i hget
    exact ⟨_, _, _, _, content?_of_get? hget⟩
  · cases htext

theorem closeTag_of_closeName? {name : List Char} (h : d.closeName? x = some name) :
    ∃ opening token trailing closing,
      d.content? x = some (.closeTag opening token trailing closing) := by
  unfold closeName? at h
  split at h
  · rename_i hx
    exact ⟨_, _, _, _, hx⟩
  · cases h

/-! ## Nodes of a row -/

inductive Member (d : Document) (enclosing : Nesting) (ids : List NodeId) (trail : Nesting)
    (x : NodeId) : Prop where
  | piece {p : Piece} (hp : d.HoldsPiece x p) (hopen : ∀ t, p ≠ .openTag t)
      (hstray : ∀ t, p = .closeTag t → t.lowerName ∉ enclosing)
  | empty {first : NodeId} {t : OpenTag}
      (hx : d.content? x = some (.element first [] none t.isVoid))
      (htag : d.HoldsPiece first (.openTag t)) (hopens : t.opens = false)
  | closed {first last : NodeId} {body : List NodeId} {t : OpenTag}
      {t' : CloseTag} {inner : Nesting}
      (hx : d.content? x = some (.element first body (some last) false))
      (htag : d.HoldsPiece first (.openTag t)) (hopens : t.opens = true)
      (hbody : d.Row (t.lowerName :: enclosing) body inner)
      (hlast : d.HoldsPiece last (.closeTag t')) (hname : t'.lowerName = t.lowerName)
      (hinner : t.lowerName ∉ inner)
  | unclosed {first : NodeId} {body : List NodeId} {t : OpenTag} {inner : Nesting}
      (hx : d.content? x = some (.element first body none false))
      (htag : d.HoldsPiece first (.openTag t)) (hopens : t.opens = true)
      (hbody : d.Row (t.lowerName :: enclosing) body inner) (hlast : ids.getLast? = some x)
      (htrail : trail = t.lowerName :: inner)

theorem Row.member (h : d.Row enclosing ids trail) (hx : x ∈ ids) :
    d.Member enclosing ids trail x := by
  -- Before the last node nothing is unclosed.
  have hbefore {ids : List NodeId} {y : NodeId} {trail' : Nesting}
      (h : d.Member enclosing ids [] x) :
      d.Member enclosing (ids ++ [y]) trail' x := by
    cases h with
    | piece hp hopen hstray => exact .piece hp hopen hstray
    | empty hx htag hopens => exact .empty hx htag hopens
    | closed hx htag hopens hbody hlast hname hinner =>
      exact .closed hx htag hopens hbody hlast hname hinner
    | unclosed _ _ _ _ _ htrail => cases htrail
  induction h with
  | nil => cases hx
  | piece _ hp hopen hstray ih =>
    rcases List.mem_append.mp hx with hx | hx
    · exact hbefore (ih hx hbefore)
    · obtain rfl := List.mem_singleton.mp hx
      exact .piece hp hopen hstray
  | empty _ hcontent htag hopens ih =>
    rcases List.mem_append.mp hx with hx | hx
    · exact hbefore (ih hx hbefore)
    · obtain rfl := List.mem_singleton.mp hx
      exact .empty hcontent htag hopens
  | closed _ hcontent htag hopens hbody hlast hname htrail ih _ =>
    rcases List.mem_append.mp hx with hx | hx
    · exact hbefore (ih hx hbefore)
    · obtain rfl := List.mem_singleton.mp hx
      exact .closed hcontent htag hopens hbody hlast hname htrail
  | unclosed _ hcontent htag hopens hbody ih _ =>
    rcases List.mem_append.mp hx with hx | hx
    · exact hbefore (ih hx hbefore)
    · obtain rfl := List.mem_singleton.mp hx
      exact .unclosed hcontent htag hopens hbody (by simp) rfl

theorem Unclosed.member (hu : d.Unclosed x) (h : d.Member enclosing ids trail x) :
    ∃ first body name inner, d.content? x = some (.element first body none false) ∧
      d.elementName? x = some name ∧
      d.Row (name :: enclosing) body inner ∧ ids.getLast? = some x ∧ trail = name :: inner := by
  obtain ⟨first, body, hx, hself⟩ := hu
  cases h with
  | piece hp _ _ => exact absurd hx hp.content_ne_element
  | @empty first' t hx' htag hopens =>
    rw [hx, Option.some.injEq, Content.element.injEq] at hx'
    obtain ⟨rfl, -, -, hvoid⟩ := hx'
    rw [HoldsOpenTag.isSelfClosing_eq htag] at hself
    simp [OpenTag.opens, hself, ← hvoid] at hopens
  | closed hx' =>
    rw [hx, Option.some.injEq, Content.element.injEq] at hx'
    exact absurd hx'.2.2.1 (by simp)
  | @unclosed first' body' t inner hx' htag _ hbody hlast htrail =>
    refine ⟨first', body', t.lowerName, inner, hx', ?_, hbody, hlast, htrail⟩
    rw [elementName?_of_element hx', HoldsOpenTag.openName?_eq htag]

theorem Member.closed_of {last : NodeId} (h : d.Member enclosing ids trail x)
    (hx : d.content? x = some (.element first body (some last) isVoid)) :
    isVoid = false ∧ ∃ t t' inner, d.HoldsPiece first (.openTag t) ∧ t.opens = true ∧
      d.Row (t.lowerName :: enclosing) body inner ∧ d.HoldsPiece last (.closeTag t') ∧
      t'.lowerName = t.lowerName ∧
      t.lowerName ∉ inner := by
  cases h with
  | piece hp _ _ => exact absurd hx hp.content_ne_element
  | empty hx' =>
    rw [hx] at hx'
    cases hx'
  | closed hx' htag hopens hbody hlast hname hinner =>
    rw [hx] at hx'
    cases hx'
    exact ⟨rfl, _, _, _, htag, hopens, hbody, hlast, hname, hinner⟩
  | unclosed hx' =>
    rw [hx] at hx'
    cases hx'

theorem Member.void_of (h : d.Member enclosing ids trail x)
    (hx : d.content? x = some (.element first body last isVoid)) :
    ∃ t, d.HoldsPiece first (.openTag t) ∧ t.isVoid = isVoid ∧
      (t.isVoid = true ∨ t.selfClosing = true → body = [] ∧ last = none) := by
  have hholds {t : OpenTag} (hopens : t.opens = true) :
      ¬ (t.isVoid = true ∨ t.selfClosing = true) := by
    obtain ⟨hvoid, hself⟩ := OpenTag.opens_iff.mp hopens
    simp [hvoid, hself]
  cases h with
  | piece hp _ _ => exact absurd hx hp.content_ne_element
  | @empty first' t hx' htag hopens =>
    rw [hx, Option.some.injEq, Content.element.injEq] at hx'
    obtain ⟨rfl, rfl, rfl, hvoid⟩ := hx'
    exact ⟨t, htag, hvoid.symm, fun _ => ⟨rfl, rfl⟩⟩
  | closed hx' htag hopens =>
    rw [hx] at hx'
    cases hx'
    exact ⟨_, htag, (OpenTag.opens_iff.mp hopens).1, fun hor => absurd hor (hholds hopens)⟩
  | unclosed hx' htag hopens =>
    rw [hx] at hx'
    cases hx'
    exact ⟨_, htag, (OpenTag.opens_iff.mp hopens).1, fun hor => absurd hor (hholds hopens)⟩

theorem EndsWith.suffix {e : NodeId} (h : d.EndsWith e x)
    (he : d.content? e = some (.element first body last isVoid))
    (hbody : d.Row enclosing body trail) :
    ∃ name enclosing' first' body' inner, d.content? x = some (.element first' body' none false) ∧
      d.elementName? x = some name ∧ d.Row enclosing' body' inner ∧ name :: inner <:+ trail := by
  have hends {ids : List NodeId} {first y x : NodeId} {last : Option NodeId} {isVoid : Bool}
      (hy : d.content? y = some (.element first ids last isVoid))
        (hx : d.lastOfBody? y = some x) : x ∈ ids := by
    rw [lastOfBody?, hy] at hx
    exact List.mem_of_getLast? hx
  induction h with
  | last hx hu =>
    obtain ⟨first', body', name, inner, hcontent, hname, hrow, -, rfl⟩ :=
      hu.member (hbody.member (hends he hx))
    exact ⟨name, _, first', body', inner, hcontent, hname, hrow, List.suffix_rfl⟩
  | deeper _ hx hu ih =>
    obtain ⟨_, enclosing', first', body', inner, hcontent, -, hrow, hsuffix⟩ := ih
    obtain ⟨first'', body'', name, inner', hcontent', hname, hrow', -, rfl⟩ :=
      hu.member (hrow.member (hends hcontent hx))
    exact ⟨name, _, first'', body'', inner', hcontent', hname, hrow',
      (List.suffix_cons _ _).trans hsuffix⟩

/-! ## Inside a tag -/

inductive InTag (d : Document) (x : NodeId) : Prop where
  | part {part : TagPart} (h : d.HoldsTagPart x part)
  | value {v : Value} (h : d.HoldsValue x v)
  | valuePart {part : ValuePart} (h : d.HoldsPart x part)

theorem inTag_of_openTag {t : OpenTag} (h : d.HoldsPiece x (.openTag t)) (hc : c ∈ d.children x) :
    d.InTag c := by
  obtain ⟨_, _, children, _, hx, -, -, hparts, -⟩ := h
  rw [children_of_content? hx] at hc
  obtain ⟨part, -, hpart⟩ := exists_of_mem_forall₂ hparts hc
  exact .part hpart

theorem InTag.child (h : d.InTag x) (hc : c ∈ d.children x) : d.InTag c := by
  cases h with
  | @part part h =>
    cases part with
    | blank t =>
      obtain ⟨_, hx, -⟩ := h
      simp [children_of_content? hx, Content.children] at hc
    | erb e => simp [HoldsErb.children_eq h] at hc
    | attr a =>
      obtain ⟨name, equals, value, hx, -, -, hvalue⟩ := h
      obtain rfl : value = some c := by simpa [children_of_content? hx, Content.children] using hc
      generalize a.value = v at hvalue
      cases hvalue with
      | some hv => exact .value hv
  | value h =>
    obtain ⟨_, children, _, hx, -, -, hparts⟩ := h
    rw [children_of_content? hx] at hc
    obtain ⟨part, -, hpart⟩ := exists_of_mem_forall₂ hparts hc
    exact .valuePart hpart
  | valuePart h => simp [h.children_eq] at hc

theorem InTag.content (h : d.InTag x) :
    (∀ first body last isVoid, d.content? x ≠ some (.element first body last isVoid)) ∧
    d.closeName? x = none := by
  cases h with
  | @part part h => cases part <;> grind [HoldsTagPart, HoldsErb, HoldsAttribute, closeName?]
  | value h => grind [HoldsValue, closeName?]
  | @valuePart part h => cases part <;> grind [HoldsPart, HoldsErb, closeName?]

/-! ## Where a node stands -/

/-- What a node of a document of rows is, and what is above it. -/
inductive Spot (d : Document) (x : NodeId) : Prop where
  | root (h : x = d.root)
  | inRow {enclosing trail : Nesting} {ids : List NodeId} {p : NodeId}
      (hrow : d.Row enclosing ids trail) (hx : x ∈ ids)
      (habove : ∀ a name, d.Below a x → a ≠ x → d.elementName? a = some name → name ∈ enclosing)
      (hp : d.parent? x = some p)
      (hids : (∃ first last isVoid, d.content? p = some (.element first ids last isVoid)) ∨
        p = d.root ∧ d.children p = ids)
  | openTag {t : OpenTag} (h : d.HoldsPiece x (.openTag t))
  | closeTag {t : CloseTag} {p first : NodeId} {body : List NodeId} {isVoid : Bool}
      (h : d.HoldsPiece x (.closeTag t)) (hp : d.parent? x = some p)
      (hclose : d.content? p = some (.element first body (some x) isVoid))
  | inTag (h : d.InTag x)

section
variable (hf : d.Forest [d.root])
include hf

theorem spot_of_body {inner : Nesting} {t : OpenTag} (hc : c ∈ body)
    (hx : d.content? x = some (.element first body last isVoid))
    (htag : d.HoldsPiece first (.openTag t)) (hrow : d.Row (t.lowerName :: enclosing) body inner)
    (habove : ∀ a name, d.Below a x → a ≠ x → d.elementName? a = some name → name ∈ enclosing) :
    d.Spot c := by
  have hchild : c ∈ d.children x := by
    rw [children_of_content? hx]
    simp [Content.children, hc]
  refine .inRow hrow hc ?_ ((hf.child_iff x c).mp hchild) (Or.inl ⟨_, _, _, hx⟩)
  intro a name ha hne hname
  by_cases hax : a = x
  · subst hax
    rw [elementName?_of_element hx, HoldsOpenTag.openName?_eq htag] at hname
    obtain rfl := Option.some.inj hname
    exact List.mem_cons_self
  · exact List.mem_cons_of_mem _ (habove a name (hf.below_parent ha hne.symm hchild) hax hname)

theorem Member.spot_child (h : d.Member enclosing ids trail x)
    (habove : ∀ a name, d.Below a x → a ≠ x → d.elementName? a = some name → name ∈ enclosing)
    (hc : c ∈ d.children x) :
    d.Spot c := by
  have hparent : d.parent? c = some x := (hf.child_iff x c).mp hc
  cases h with
  | @piece p hp hopen hstray =>
    obtain ⟨t, rfl⟩ := hp.openTag_of_child hc
    exact absurd rfl (hopen t)
  | empty hx htag hopens =>
    obtain rfl : c = _ := by simpa [children_of_content? hx, Content.children] using hc
    exact .openTag htag
  | @closed first last body t t' inner hx htag hopens hbody hlast hname hinner =>
    have hkids : c = first ∨ c ∈ body ∨ c = last := by
      simpa [children_of_content? hx, Content.children] using hc
    rcases hkids with rfl | hc | rfl
    · exact .openTag htag
    · exact spot_of_body hf hc hx htag hbody habove
    · exact .closeTag hlast hparent hx
  | @unclosed first body t inner hx htag hopens hbody hlast htrail =>
    have hkids : c = first ∨ c ∈ body := by
      simpa [children_of_content? hx, Content.children] using hc
    rcases hkids with rfl | hc
    · exact .openTag htag
    · exact spot_of_body hf hc hx htag hbody habove

variable {children : List NodeId} (hroot : d.content? d.root = some (.document children))
  (hrow : d.Row [] children trail)
include hroot hrow

theorem spot_of_root (hc : c ∈ d.children d.root) : d.Spot c := by
  have hkids : d.children d.root = children := children_of_content? hroot
  refine .inRow hrow (by rwa [← hkids]) ?_ ((hf.child_iff d.root c).mp hc) (Or.inr ⟨rfl, hkids⟩)
  intro a name ha hne hname
  obtain rfl := hf.eq_of_below_top List.mem_cons_self (hf.below_parent ha hne.symm hc)
  obtain ⟨_, _, _, _, helement⟩ := element_of_elementName? hname
  rw [hroot] at helement
  cases helement

theorem spot_of_isLive (hx : d.isLive x = true) : d.Spot x := by
  induction hf.below_of_top_eq hx with
  | refl => exact .root rfl
  | @tail b c hb hc ih =>
    have hlive := hf.isLive_of_below hb ((hf.mem_tops d.root).mp (by simp)).1
    cases ih hlive with
    | root h =>
      subst h
      exact spot_of_root hf hroot hrow hc
    | inRow hrow hx habove _ _ => exact (hrow.member hx).spot_child hf habove hc
    | openTag h => exact .inTag (inTag_of_openTag h hc)
    | closeTag h _ _ =>
      obtain ⟨t, ht⟩ := h.openTag_of_child hc
      cases ht
    | inTag h => exact .inTag (h.child hc)

/-! ## The law of pairs -/

theorem member_of_element (hx : d.content? x = some (.element first body last isVoid)) :
    ∃ enclosing ids trail p, d.Member enclosing ids trail x ∧ d.parent? x = some p ∧
      ((∃ first last isVoid, d.content? p = some (.element first ids last isVoid)) ∨ p = d.root ∧
        d.children p = ids) := by
  obtain ⟨node, hget, -⟩ := get?_of_content? hx
  cases spot_of_isLive hf hroot hrow (isLive_of_get? hget) with
  | root h =>
    rw [h, hroot] at hx
    cases hx
  | inRow hrow hmem habove hp hids => exact ⟨_, _, _, _, hrow.member hmem, hp, hids⟩
  | openTag h => exact absurd hx h.content_ne_element
  | closeTag h _ _ => exact absurd hx h.content_ne_element
  | inTag h => exact absurd hx (h.content.1 _ _ _ _)

theorem stray_of_row {name : List Char} (hname : d.closeName? x = some name)
    (hstray : ∀ p first body isVoid, d.parent? x = some p →
      d.content? p ≠ some (.element first body (some x) isVoid))
    (a : NodeId) (ha : d.Below a x) : d.elementName? a ≠ some name := by
  intro hsame
  obtain ⟨_, _, _, _, hx⟩ := closeTag_of_closeName? hname
  have hne : a ≠ x := by
    rintro rfl
    obtain ⟨_, _, _, _, helement⟩ := element_of_elementName? hsame
    rw [hx] at helement
    cases helement
  obtain ⟨node, hget, -⟩ := get?_of_content? hx
  cases spot_of_isLive hf hroot hrow (isLive_of_get? hget) with
  | root h =>
    rw [h, hroot] at hx
    cases hx
  | inRow hrow hmem habove _ _ =>
    have hmem := hrow.member hmem
    cases hmem with
    | @piece p hp _ hpiece =>
      cases p with
      | closeTag t =>
        rw [HoldsCloseTag.closeName?_eq hp] at hname
        obtain rfl := Option.some.inj hname
        exact hpiece t rfl (habove a _ ha hne hsame)
      | _ => simp [HoldsPiece, HoldsErb, HoldsOpenTag, hx] at hp
    | empty hx' =>
      rw [hx] at hx'
      cases hx'
    | closed hx' =>
      rw [hx] at hx'
      cases hx'
    | unclosed hx' =>
      rw [hx] at hx'
      cases hx'
  | openTag h =>
    obtain ⟨_, _, _, _, hx', -⟩ := h
    rw [hx] at hx'
    cases hx'
  | closeTag _ hp hclose => exact hstray _ _ _ _ hp hclose
  | inTag h =>
    rw [h.content.2] at hname
    cases hname

theorem paired_of_row : d.Paired where
  closed := by
    intro id first last body isVoid hx
    obtain ⟨_, _, _, _, hmember, -⟩ := member_of_element hf hroot hrow hx
    obtain ⟨hvoid, t, t', inner, htag, hopens, -, hlast, hname, -⟩ := hmember.closed_of hx
    refine ⟨⟨t.lowerName, HoldsOpenTag.openName?_eq htag, ?_⟩, hvoid, ?_⟩
    · rw [HoldsCloseTag.closeName?_eq hlast, hname]
    · rw [HoldsOpenTag.isSelfClosing_eq htag, (OpenTag.opens_iff.mp hopens).2]
  void := by
    intro id first body last isVoid hx
    obtain ⟨_, _, _, _, hmember, -⟩ := member_of_element hf hroot hrow hx
    obtain ⟨t, htag, rfl, hempty⟩ := hmember.void_of hx
    refine ⟨⟨t.lowerName, HoldsOpenTag.openName?_eq htag, List.contains_iff_mem⟩, ?_⟩
    rw [HoldsOpenTag.isSelfClosing_eq htag]
    exact hempty
  stray := stray_of_row hf hroot hrow
  unclosed := by
    intro x hu
    have ⟨_, _, hx, _⟩ := hu
    obtain ⟨_, ids, _, p, hmember, hp, hids⟩ := member_of_element hf hroot hrow hx
    obtain ⟨_, _, _, _, -, -, -, hlast, -⟩ := hu.member hmember
    refine ⟨p, hp, ?_⟩
    rcases hids with ⟨_, _, _, hcontent⟩ | ⟨hroot, hkids⟩
    · left
      rw [lastOfBody?, hcontent]
      exact hlast
    · right
      rw [hkids]
      exact ⟨hroot, hlast⟩
  innermost := by
    intro id first last body isVoid hx y hy
    obtain ⟨_, _, _, _, hmember, -⟩ := member_of_element hf hroot hrow hx
    obtain ⟨-, t, -, inner, htag, -, hbody, -, -, hinner⟩ := hmember.closed_of hx
    obtain ⟨name, _, _, _, _, -, hname, -, hsuffix⟩ := hy.suffix hx hbody
    rw [hname, elementName?_of_element hx, HoldsOpenTag.openName?_eq htag]
    intro heq
    obtain rfl := Option.some.inj heq
    exact hinner (hsuffix.subset List.mem_cons_self)

end

end Document

/-- A close tag belongs to the innermost open element of its name; void elements hold nothing. -/
theorem parse_paired {source : String} {keep : Bool} {d : Document}
    (h : Document.parse source keep = .ok d) : d.Paired := by
  obtain ⟨ps, rfl, -⟩ := exists_pieces_of_parse h
  obtain ⟨children, trail, hroot, hrow⟩ := row_ofPieces keep ps
  exact Document.paired_of_row (forest_of_parse h) hroot hrow

/-- The close tag of `A` ends two elements in it, and that of `b` comes too late. -/
theorem parse_paired_crossed_tags :
    ∃ d, Document.parse "<A><b><i>x</a ></b><Br><p/><q>" true = .ok d ∧
      d.content? 7 = some (.element 0 [6] (some 4) false) ∧ d.EndsWith 7 5 ∧
      d.closeName? 8 = some ['b'] ∧
      (∃ name, d.openName? 0 = some name ∧ d.closeName? 4 = some name) ∧
      d.elementName? 5 ≠ d.elementName? 7 ∧
    ∀ a, d.Below a 8 → d.elementName? a ≠ some ['b'] := by
  have hok : (Document.parse "<A><b><i>x</a ></b><Br><p/><q>" true).toOption.any (fun d => decide (
      d.content? 7 = some (.element 0 [6] (some 4) false) ∧
      d.content? 6 = some (.element 1 [5] none false) ∧
      d.content? 5 = some (.element 2 [3] none false) ∧ d.isSelfClosing 1 = false ∧
      d.isSelfClosing 2 = false ∧
      d.closeName? 8 = some ['b'] ∧ d.parent? 8 = some 15 ∧
      d.content? 15 = some (.document [7, 8, 10, 12, 14]))) = true := by
    decide +kernel
  obtain ⟨d, hd, hfacts⟩ := exists_ok_of_any hok
  obtain ⟨h7, h6, h5, hself, hself', h8, hparent, h15⟩ := of_decide_eq_true hfacts
  have hpaired := parse_paired hd
  have hends : d.EndsWith 7 5 := by
    refine .deeper (.last (x := 6) ?_ ⟨1, [5], h6, hself⟩) ?_ ⟨2, [3], h5, hself'⟩
    · rw [Document.lastOfBody?, h7]
      rfl
    · rw [Document.lastOfBody?, h6]
      rfl
  refine ⟨d, hd, h7, hends, h8, (hpaired.closed h7).1,
    hpaired.innermost h7 5 hends, hpaired.stray h8 ?_⟩
  intro p first body isVoid hp
  obtain rfl := Option.some.inj (hparent.symm.trans hp)
  rw [h15]
  simp

end TemplateLint
