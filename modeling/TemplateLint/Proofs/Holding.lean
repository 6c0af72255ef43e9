import Mathlib.Data.List.Forall2
import Mathlib.Data.Option.Basic
import TemplateLint.Proofs.Elements

/-!
# Documents that hold markup

A node holds a construct if its tokens and children spell it part by part. The leaves of a document
are the nodes that hold pieces: all that elements name, down to the tags. Main statements: the
document of some pieces holds them (`holds_ofPieces`), and a document prints what it holds
(`Holds.text_root`).
-/

namespace TemplateLint

open Markup

theorem rel_imp {α β : Type} {R S : α → β → Prop} (h : ∀ a b, R a b → S a b)
    {x : Option α} {y : Option β} (hr : Option.Rel R x y) : Option.Rel S x y := by
  cases hr with
  | some hab => exact .some (h _ _ hab)
  | none => exact .none

namespace Document

def content? (d : Document) (id : NodeId) : Option Content := (d.get? id).map Node.content

theorem content?_of_get? {d : Document} {id : NodeId} {node : Node} (h : d.get? id = some node) :
    d.content? id = some node.content := by
  rw [content?, h]
  rfl

theorem get?_of_content? {d : Document} {id : NodeId} {c : Content} (h : d.content? id = some c) :
    ∃ node, d.get? id = some node ∧ node.content = c := Option.map_eq_some_iff.mp h

/-! ## Nodes -/

def HoldsErb (d : Document) (id : NodeId) (e : Erb) : Prop :=
  ∃ opening content closing, d.content? id = some (.erb opening content closing) ∧
    opening.chars = e.opening.text ∧ content.chars = e.content ∧ closing.chars = e.closing

def HoldsPart (d : Document) (id : NodeId) : ValuePart → Prop
  | .literal t => ∃ content, d.content? id = some (.literal content) ∧ content.chars = t
  | .erb e => d.HoldsErb id e

def HoldsValue (d : Document) (id : NodeId) (v : Value) : Prop :=
  ∃ openQuote children closeQuote, d.content? id = some (.attrValue openQuote children closeQuote) ∧
    openQuote.map Token.chars = v.quote.map (fun q => [q.char]) ∧
    closeQuote.map Token.chars = v.quote.map (fun q => [q.char]) ∧
    List.Forall₂ d.HoldsPart children v.parts

def HoldsAttribute (d : Document) (id : NodeId) (a : Attribute) : Prop :=
  ∃ name equals value, d.content? id = some (.attr name equals value) ∧ name.chars = a.name ∧
    equals.map Token.chars = a.value.map (fun _ => ['=']) ∧ Option.Rel d.HoldsValue value a.value

def HoldsTagPart (d : Document) (id : NodeId) : TagPart → Prop
  | .blank t => ∃ content, d.content? id = some (.whitespace content) ∧ content.chars = t
  | .erb e => d.HoldsErb id e
  | .attr a => d.HoldsAttribute id a

def HoldsOpenTag (d : Document) (id : NodeId) (t : OpenTag) : Prop :=
  ∃ opening name children closing, d.content? id = some (.openTag opening name children closing) ∧
    opening.chars = ['<'] ∧ name.chars = t.name ∧ List.Forall₂ d.HoldsTagPart children t.parts ∧
    closing.chars = t.closing

def HoldsCloseTag (d : Document) (id : NodeId) (t : CloseTag) : Prop :=
  ∃ opening name trailing closing, d.content? id = some (.closeTag opening name trailing closing) ∧
    opening.chars = ['<', '/'] ∧ name.chars = t.name ∧
    trailing.toList.flatMap Token.chars = t.trailing ∧
    closing.chars = ['>']

def HoldsPiece (d : Document) (id : NodeId) : Piece → Prop
  | .text t => ∃ content, d.content? id = some (.text content) ∧ content.chars = t
  | .erb e => d.HoldsErb id e
  | .comment t =>
    ∃ opening content closing, d.content? id = some (.comment opening content closing) ∧
      opening.chars = commentOpening ∧ content.chars = t ∧ closing.chars = commentClosing
  | .doctype t =>
    ∃ opening content closing, d.content? id = some (.doctype opening content closing) ∧
      opening.chars = doctypeOpening ∧ content.chars = t ∧ closing.chars = doctypeClosing
  | .openTag t => d.HoldsOpenTag id t
  | .closeTag t => d.HoldsCloseTag id t

/-! ## Leaves -/

/-- `leaves` are the nodes that `ids` name by way of elements, in order of the text. -/
inductive Leaves (d : Document) : List NodeId → List NodeId → Prop where
  | nil : Leaves d [] []
  | leaf {id : NodeId} {ids leaves : List NodeId} {c : Content} (hc : d.content? id = some c)
      (hleaf : ∀ first body last isVoid, c ≠ .element first body last isVoid)
      (hrest : Leaves d ids leaves) :
      Leaves d (id :: ids) (id :: leaves)
  | element {id first : NodeId} {body ids inner leaves : List NodeId}
      {last : Option NodeId} {isVoid : Bool}
      (hc : d.content? id = some (.element first body last isVoid)) (hbody : Leaves d body inner)
      (hrest : Leaves d ids leaves) : Leaves d (id :: ids) (first :: inner ++ last.toList ++ leaves)

def Bears (d : Document) (ids : List NodeId) (ps : List Piece) : Prop :=
  ∃ leaves, d.Leaves ids leaves ∧ List.Forall₂ d.HoldsPiece leaves ps

def Holds (d : Document) (ps : List Piece) : Prop :=
  ∃ children, d.content? d.root = some (.document children) ∧ d.Bears children ps

/-! ## What stays held -/

/-- Whatever a node of `d` is, it is in `d'` too. -/
def Keeps (d d' : Document) : Prop := ∀ id c, d.content? id = some c → d'.content? id = some c

namespace Keeps

variable {d d' d'' : Document}

theorem refl (d : Document) : d.Keeps d := fun _ _ h => h

theorem trans (h : d.Keeps d') (h' : d'.Keeps d'') : d.Keeps d'' :=
  fun id c hc => h' id c (h id c hc)

theorem holdsErb (h : d.Keeps d') {id : NodeId} {e : Erb} (he : d.HoldsErb id e) :
    d'.HoldsErb id e := by
  obtain ⟨opening, content, closing, hc, htexts⟩ := he
  exact ⟨opening, content, closing, h id _ hc, htexts⟩

theorem holdsPart (h : d.Keeps d') {id : NodeId} {part : ValuePart} (hp : d.HoldsPart id part) :
    d'.HoldsPart id part := by
  cases part with
  | literal t =>
    obtain ⟨content, hc, htext⟩ := hp
    exact ⟨content, h id _ hc, htext⟩
  | erb e => exact h.holdsErb hp

theorem holdsValue (h : d.Keeps d') {id : NodeId} {v : Value} (hv : d.HoldsValue id v) :
    d'.HoldsValue id v := by
  obtain ⟨openQuote, children, closeQuote, hc, hopen, hclose, hparts⟩ := hv
  exact ⟨openQuote, children, closeQuote, h id _ hc, hopen, hclose,
    hparts.imp fun _ _ => h.holdsPart⟩

theorem holdsAttribute (h : d.Keeps d') {id : NodeId} {a : Attribute} (ha : d.HoldsAttribute id a) :
    d'.HoldsAttribute id a := by
  obtain ⟨name, equals, value, hc, hname, hequals, hvalue⟩ := ha
  exact ⟨name, equals, value, h id _ hc, hname, hequals, rel_imp (fun _ _ => h.holdsValue) hvalue⟩

theorem holdsTagPart (h : d.Keeps d') {id : NodeId} {part : TagPart} (hp : d.HoldsTagPart id part) :
    d'.HoldsTagPart id part := by
  cases part with
  | blank t =>
    obtain ⟨content, hc, htext⟩ := hp
    exact ⟨content, h id _ hc, htext⟩
  | erb e => exact h.holdsErb hp
  | attr a => exact h.holdsAttribute hp

theorem holdsPiece (h : d.Keeps d') {id : NodeId} {p : Piece} (hp : d.HoldsPiece id p) :
    d'.HoldsPiece id p := by
  cases p with
  | text t =>
    obtain ⟨content, hc, htext⟩ := hp
    exact ⟨content, h id _ hc, htext⟩
  | erb e => exact h.holdsErb hp
  | comment t =>
    obtain ⟨opening, content, closing, hc, htexts⟩ := hp
    exact ⟨opening, content, closing, h id _ hc, htexts⟩
  | doctype t =>
    obtain ⟨opening, content, closing, hc, htexts⟩ := hp
    exact ⟨opening, content, closing, h id _ hc, htexts⟩
  | openTag t =>
    obtain ⟨opening, name, children, closing, hc, hopening, hname, hparts, hclosing⟩ := hp
    exact ⟨opening, name, children, closing, h id _ hc, hopening, hname, hparts.imp fun _ _ =>
      h.holdsTagPart, hclosing⟩
  | closeTag t =>
    obtain ⟨opening, name, trailing, closing, hc, htexts⟩ := hp
    exact ⟨opening, name, trailing, closing, h id _ hc, htexts⟩

theorem leaves (h : d.Keeps d') {ids leaves : List NodeId} (hl : d.Leaves ids leaves) :
    d'.Leaves ids leaves := by
  induction hl with
  | nil => exact .nil
  | leaf hc hleaf _ ih => exact .leaf (h _ _ hc) hleaf ih
  | element hc _ _ ihbody ihrest => exact .element (h _ _ hc) ihbody ihrest

theorem bears (h : d.Keeps d') {ids : List NodeId} {ps : List Piece} (hb : d.Bears ids ps) :
    d'.Bears ids ps := by
  obtain ⟨leaves, hleaves, hps⟩ := hb
  exact ⟨leaves, h.leaves hleaves, hps.imp fun _ _ => h.holdsPiece⟩

end Keeps

/-! ## Rows of nodes -/

variable {d : Document}

theorem Leaves.append {ids ids' leaves leaves' : List NodeId} (h : d.Leaves ids leaves)
    (h' : d.Leaves ids' leaves') :
    d.Leaves (ids ++ ids') (leaves ++ leaves') := by
  induction h with
  | nil => exact h'
  | leaf hc hleaf _ ih => exact .leaf hc hleaf ih
  | @element id first body ids inner leaves last isVoid hc hbody _ _ ih =>
    have hnext := Leaves.element hc hbody ih
    simp only [List.cons_append, List.append_assoc] at hnext ⊢
    exact hnext

theorem Bears.append {ids ids' : List NodeId} {ps ps' : List Piece} (h : d.Bears ids ps)
    (h' : d.Bears ids' ps') :
    d.Bears (ids ++ ids') (ps ++ ps') := by
  obtain ⟨leaves, hleaves, hps⟩ := h
  obtain ⟨leaves', hleaves', hps'⟩ := h'
  exact ⟨leaves ++ leaves', hleaves.append hleaves', List.rel_append hps hps'⟩

theorem bears_nil : d.Bears [] [] := ⟨[], .nil, .nil⟩

theorem HoldsPiece.leaf {id : NodeId} {p : Piece} (h : d.HoldsPiece id p) :
    ∃ c, d.content? id = some c ∧ ∀ first body last isVoid,
      c ≠ .element first body last isVoid := by
  cases p with
  | text t =>
    obtain ⟨_, hc, -⟩ := h
    exact ⟨_, hc, by simp⟩
  | erb e =>
    obtain ⟨_, _, _, hc, -⟩ := h
    exact ⟨_, hc, by simp⟩
  | comment t =>
    obtain ⟨_, _, _, hc, -⟩ := h
    exact ⟨_, hc, by simp⟩
  | doctype t =>
    obtain ⟨_, _, _, hc, -⟩ := h
    exact ⟨_, hc, by simp⟩
  | openTag t =>
    obtain ⟨_, _, _, _, hc, -⟩ := h
    exact ⟨_, hc, by simp⟩
  | closeTag t =>
    obtain ⟨_, _, _, _, hc, -⟩ := h
    exact ⟨_, hc, by simp⟩

theorem bears_piece {id : NodeId} {p : Piece} (h : d.HoldsPiece id p) : d.Bears [id] [p] := by
  obtain ⟨c, hc, hleaf⟩ := h.leaf
  exact ⟨[id], .leaf hc hleaf .nil, .cons h .nil⟩

theorem bears_element {id first : NodeId} {body : List NodeId} {last : Option NodeId}
    {isVoid : Bool} {t : OpenTag} {ps ends : List Piece}
    (hc : d.content? id = some (.element first body last isVoid))
    (hfirst : d.HoldsPiece first (.openTag t)) (hbody : d.Bears body ps)
    (hlast : List.Forall₂ d.HoldsPiece last.toList ends) :
    d.Bears [id] (.openTag t :: ps ++ ends) := by
  obtain ⟨inner, hinner, hps⟩ := hbody
  have hleaves := Leaves.element hc hinner .nil
  rw [List.append_nil] at hleaves
  exact ⟨_, hleaves, List.rel_append (.cons hfirst hps) hlast⟩

/-! ## Texts -/

theorem Grounded.text_of_content? (hg : d.Grounded) {id : NodeId} {c : Content}
    (hc : d.content? id = some c) :
    d.text id = c.render d.text := by
  obtain ⟨node, hget, rfl⟩ := get?_of_content? hc
  exact hg.text_eq_render hget

theorem HoldsErb.text_eq {id : NodeId} {e : Erb} (hg : d.Grounded) (h : d.HoldsErb id e) :
    d.text id = e.text := by
  obtain ⟨opening, content, closing, hc, hopening, hcontent, hclosing⟩ := h
  simp [hg.text_of_content? hc, Content.render, Erb.text, hopening, hcontent, hclosing]

theorem flatMap_text_of_forall₂ {α : Type} {R : NodeId → α → Prop}
    {text : α → List Char} {ids : List NodeId} {parts : List α} (h : List.Forall₂ R ids parts)
    (htext : ∀ id part, R id part → d.text id = text part) :
    ids.flatMap d.text = parts.flatMap text := by
  induction h with
  | nil => rfl
  | cons hpart _ ih => rw [List.flatMap_cons, List.flatMap_cons, htext _ _ hpart, ih]

theorem HoldsPart.text_eq (hg : d.Grounded) {id : NodeId} {part : ValuePart}
    (h : d.HoldsPart id part) :
    d.text id = part.text := by
  cases part with
  | literal t =>
    obtain ⟨content, hc, htext⟩ := h
    simp [hg.text_of_content? hc, Content.render, ValuePart.text, htext]
  | erb e => exact HoldsErb.text_eq hg h

theorem flatMap_chars_of_map {marks : Option Token} {quote : Option Quote}
    (h : marks.map Token.chars = quote.map (fun q => [q.char])) :
    marks.toList.flatMap Token.chars = (quote.map Quote.char).toList := by
  cases marks <;> cases quote <;> simp_all

theorem HoldsValue.text_eq (hg : d.Grounded) {id : NodeId} {v : Value} (h : d.HoldsValue id v) :
    d.text id = v.text := by
  obtain ⟨openQuote, children, closeQuote, hc, hopen, hclose, hparts⟩ := h
  rw [hg.text_of_content? hc, Content.render, flatMap_chars_of_map hopen,
    flatMap_chars_of_map hclose, flatMap_text_of_forall₂ hparts fun _ _ => HoldsPart.text_eq hg]
  rfl

theorem HoldsAttribute.text_eq (hg : d.Grounded) {id : NodeId} {a : Attribute}
    (h : d.HoldsAttribute id a) :
    d.text id = a.text := by
  obtain ⟨name, equals, value, hc, hname, hequals, hvalue⟩ := h
  obtain ⟨n, v⟩ := a
  rw [hg.text_of_content? hc, Content.render]
  cases hvalue with
  | none =>
    simp only [Option.map_none, Option.map_eq_none_iff] at hequals
    simp [hequals, hname, Attribute.text]
  | some hv =>
    obtain ⟨mark, rfl, hmark⟩ := Option.map_eq_some_iff.mp hequals
    simp [hname, hmark, HoldsValue.text_eq hg hv, Attribute.text]

theorem HoldsTagPart.text_eq (hg : d.Grounded) {id : NodeId} {part : TagPart}
    (h : d.HoldsTagPart id part) :
    d.text id = part.text := by
  cases part with
  | blank t =>
    obtain ⟨content, hc, htext⟩ := h
    simp [hg.text_of_content? hc, Content.render, TagPart.text, htext]
  | erb e => exact HoldsErb.text_eq hg h
  | attr a => exact HoldsAttribute.text_eq hg h

theorem HoldsPiece.text_eq (hg : d.Grounded) {id : NodeId} {p : Piece} (h : d.HoldsPiece id p) :
    d.text id = p.source := by
  cases p with
  | text t =>
    obtain ⟨content, hc, htext⟩ := h
    simp [hg.text_of_content? hc, Content.render, Piece.source, htext]
  | erb e => exact HoldsErb.text_eq hg h
  | comment t =>
    obtain ⟨opening, content, closing, hc, hopening, hcontent, hclosing⟩ := h
    simp [hg.text_of_content? hc, Content.render, Piece.source, hopening, hcontent, hclosing]
  | doctype t =>
    obtain ⟨opening, content, closing, hc, hopening, hcontent, hclosing⟩ := h
    simp [hg.text_of_content? hc, Content.render, Piece.source, hopening, hcontent, hclosing]
  | openTag t =>
    obtain ⟨opening, name, children, closing, hc, hopening, hname, hparts, hclosing⟩ := h
    rw [hg.text_of_content? hc, Content.render, hopening, hname, hclosing,
      flatMap_text_of_forall₂ hparts fun _ _ => HoldsTagPart.text_eq hg]
    rfl
  | closeTag t =>
    obtain ⟨opening, name, trailing, closing, hc, hopening, hname, htrailing, hclosing⟩ := h
    rw [hg.text_of_content? hc, Content.render, hopening, hname, htrailing, hclosing]
    rfl

theorem Leaves.text_eq (hg : d.Grounded) {ids leaves : List NodeId} (h : d.Leaves ids leaves) :
    ids.flatMap d.text = leaves.flatMap d.text := by
  induction h with
  | nil => rfl
  | leaf _ _ _ ih => rw [List.flatMap_cons, List.flatMap_cons, ih]
  | element hc _ _ ihbody ihrest =>
    rw [List.flatMap_cons, hg.text_of_content? hc, Content.render, ihbody, ihrest]
    simp

theorem Holds.text_root (hg : d.Grounded) {ps : List Piece} (h : d.Holds ps) :
    d.text d.root = ps.flatMap Piece.source := by
  obtain ⟨children, hc, leaves, hleaves, hps⟩ := h
  rw [hg.text_of_content? hc, Content.render, hleaves.text_eq hg,
    flatMap_text_of_forall₂ hps fun _ _ => HoldsPiece.text_eq hg]

/-! ## Roles -/

section Roles

variable {d e : Document} {now : NodeId → NodeId} {ps : List Piece}

/-- What a node is in a document that holds `ps`; `now` gives the same node of another document. -/
inductive SameRole (d e : Document) (now : NodeId → NodeId) (ps : List Piece)
    (x : NodeId) : Prop where
  | root (h : x = d.root)
  | row {ids leaves : List NodeId} (h : d.Leaves ids leaves)
      (hp : ∀ y ∈ leaves, ∃ p ∈ ps, d.HoldsPiece y p ∧ e.HoldsPiece (now y) p) (hx : x ∈ ids)
  | piece {p : Piece} (hp : p ∈ ps) (h : d.HoldsPiece x p) (h' : e.HoldsPiece (now x) p)
  | tagPart {part : TagPart} (h : d.HoldsTagPart x part) (h' : e.HoldsTagPart (now x) part)
  | value {v : Value} (h : d.HoldsValue x v) (h' : e.HoldsValue (now x) v)
  | part {part : ValuePart} (h : d.HoldsPart x part) (h' : e.HoldsPart (now x) part)

theorem children_of_content? {x : NodeId} {c : Content} (h : d.content? x = some c) :
    d.children x = c.children := by
  obtain ⟨node, hget, rfl⟩ := get?_of_content? h
  exact children_of_get? hget

theorem exists_of_forall₂ {α : Type} {R S : NodeId → α → Prop} {ids : List NodeId} {parts : List α}
    (h : List.Forall₂ R ids parts) (h' : List.Forall₂ S (ids.map now) parts) :
    ∀ x ∈ ids, ∃ part ∈ parts, R x part ∧ S (now x) part := by
  induction h with
  | nil => simp
  | @cons id part ids parts hr _ ih =>
    obtain ⟨hs, hrest⟩ := List.forall₂_cons.mp h'
    rw [List.forall_mem_cons]
    refine ⟨⟨part, List.mem_cons_self, hr, hs⟩, fun x hx => ?_⟩
    obtain ⟨other, hmem, hother⟩ := ih hrest x hx
    exact ⟨other, List.mem_cons_of_mem _ hmem, hother⟩

theorem exists_of_mem_forall₂ {α : Type} {R : NodeId → α → Prop} {ids : List NodeId}
    {parts : List α} {x : NodeId} (h : List.Forall₂ R ids parts) (hx : x ∈ ids) :
    ∃ part ∈ parts, R x part := by
  have hself : List.Forall₂ R (ids.map id) parts := by rwa [List.map_id]
  obtain ⟨part, hmem, hpart, -⟩ := exists_of_forall₂ h hself x hx
  exact ⟨part, hmem, hpart⟩

theorem HoldsErb.children_eq {x : NodeId} {erb : Erb} (h : d.HoldsErb x erb) :
    d.children x = [] := by
  obtain ⟨_, _, _, hc, -⟩ := h
  exact children_of_content? hc

theorem HoldsPart.children_eq {x : NodeId} {part : ValuePart} (h : d.HoldsPart x part) :
    d.children x = [] := by
  cases part with
  | literal t =>
    obtain ⟨_, hc, -⟩ := h
    exact children_of_content? hc
  | erb erb => exact HoldsErb.children_eq h

variable {x c : NodeId}

theorem HoldsValue.sameRole_child {v : Value} (h : d.HoldsValue x v) (h' : e.HoldsValue (now x) v)
    (hkids : e.children (now x) = (d.children x).map now) (hc : c ∈ d.children x) :
    d.SameRole e now ps c := by
  obtain ⟨_, children, _, hx, -, -, hparts⟩ := h
  obtain ⟨_, children', _, hx', -, -, hparts'⟩ := h'
  rw [children_of_content? hx, children_of_content? hx'] at hkids
  rw [children_of_content? hx] at hc
  obtain rfl : children' = children.map now := hkids
  obtain ⟨part, -, hpart, hpart'⟩ := exists_of_forall₂ hparts hparts' c hc
  exact .part hpart hpart'

theorem HoldsTagPart.sameRole_child {part : TagPart} (h : d.HoldsTagPart x part)
    (h' : e.HoldsTagPart (now x) part) (hkids : e.children (now x) = (d.children x).map now)
    (hc : c ∈ d.children x) : d.SameRole e now ps c := by
  cases part with
  | blank t =>
    obtain ⟨_, hx, -⟩ := h
    simp [children_of_content? hx, Content.children] at hc
  | erb erb => simp [HoldsErb.children_eq h] at hc
  | attr a =>
    obtain ⟨name, equals, value, hx, -, -, hvalue⟩ := h
    obtain ⟨name', equals', value', hx', -, -, hvalue'⟩ := h'
    rw [children_of_content? hx, children_of_content? hx'] at hkids
    obtain rfl : value = some c := by simpa [children_of_content? hx, Content.children] using hc
    obtain ⟨n, v⟩ := a
    cases hvalue with
    | some hv =>
      cases hvalue' with
      | some hv' =>
        obtain rfl := List.singleton_inj.mp hkids
        exact .value hv hv'

theorem HoldsPiece.openTag_of_child {p : Piece} (h : d.HoldsPiece x p) (hc : c ∈ d.children x) :
    ∃ t, p = .openTag t := by
  cases p with
  | openTag t => exact ⟨t, rfl⟩
  | text t =>
    obtain ⟨_, hx, -⟩ := h
    simp [children_of_content? hx, Content.children] at hc
  | erb erb => simp [HoldsErb.children_eq h] at hc
  | comment t =>
    obtain ⟨_, _, _, hx, -⟩ := h
    simp [children_of_content? hx, Content.children] at hc
  | doctype t =>
    obtain ⟨_, _, _, hx, -⟩ := h
    simp [children_of_content? hx, Content.children] at hc
  | closeTag t =>
    obtain ⟨_, _, _, _, hx, -⟩ := h
    simp [children_of_content? hx, Content.children] at hc

theorem HoldsPiece.sameRole_child {p : Piece} (h : d.HoldsPiece x p) (h' : e.HoldsPiece (now x) p)
    (hkids : e.children (now x) = (d.children x).map now) (hc : c ∈ d.children x) :
    d.SameRole e now ps c := by
  obtain ⟨t, rfl⟩ := h.openTag_of_child hc
  obtain ⟨_, _, children, _, hx, -, -, hparts, -⟩ := h
  obtain ⟨_, _, children', _, hx', -, -, hparts', -⟩ := h'
  rw [children_of_content? hx, children_of_content? hx'] at hkids
  rw [children_of_content? hx] at hc
  obtain rfl : children' = children.map now := hkids
  obtain ⟨part, -, hpart, hpart'⟩ := exists_of_forall₂ hparts hparts' c hc
  exact .tagPart hpart hpart'

theorem Leaves.leaf_or_element {ids leaves : List NodeId} (h : d.Leaves ids leaves) (hx : x ∈ ids) :
    x ∈ leaves ∨ ∃ first body last isVoid,
      d.content? x = some (.element first body last isVoid) := by
  induction h with
  | nil => simp at hx
  | leaf _ _ _ ih =>
    rcases List.mem_cons.mp hx with rfl | hx
    · exact Or.inl List.mem_cons_self
    · exact (ih hx).imp_left (List.mem_cons_of_mem _)
  | element hc _ _ _ ih =>
    rcases List.mem_cons.mp hx with rfl | hx
    · exact Or.inr ⟨_, _, _, _, hc⟩
    · exact (ih hx).imp_left fun hmem => List.mem_append_right _ hmem

theorem Leaves.child_cases {ids leaves : List NodeId} (h : d.Leaves ids leaves) (hx : x ∈ ids)
    (hc : c ∈ d.children x) :
    x ∈ leaves ∨ c ∈ leaves ∨ ∃ body inner, d.Leaves body inner ∧
      (∀ y ∈ inner, y ∈ leaves) ∧ c ∈ body := by
  induction h with
  | nil => simp at hx
  | leaf _ _ _ ih =>
    rcases List.mem_cons.mp hx with rfl | hx
    · exact Or.inl List.mem_cons_self
    · rcases ih hx with hx | hc | ⟨body, inner, hbody, hinner, hc⟩
      · exact Or.inl (List.mem_cons_of_mem _ hx)
      · exact Or.inr (Or.inl (List.mem_cons_of_mem _ hc))
      · exact Or.inr
          (Or.inr ⟨body, inner, hbody, fun y hy => List.mem_cons_of_mem _ (hinner y hy), hc⟩)
  | element hcontent hbody _ _ ih =>
    rcases List.mem_cons.mp hx with rfl | hx
    · rw [children_of_content? hcontent] at hc
      simp only [Content.children, List.mem_append, List.mem_cons, Option.mem_toList] at hc
      rcases hc with (rfl | hc) | hc
      · exact Or.inr (Or.inl (by simp))
      · exact Or.inr (Or.inr ⟨_, _, hbody, fun y hy => by simp [hy], hc⟩)
      · exact Or.inr (Or.inl (by simp [hc]))
    · rcases ih hx with hx | hc | ⟨body, inner, hbody, hinner, hc⟩
      · exact Or.inl (List.mem_append_right _ hx)
      · exact Or.inr (Or.inl (List.mem_append_right _ hc))
      · exact Or.inr
          (Or.inr ⟨body, inner, hbody, fun y hy => List.mem_append_right _ (hinner y hy), hc⟩)

theorem Leaves.sameRole_child {ids leaves : List NodeId} (h : d.Leaves ids leaves)
    (hp : ∀ y ∈ leaves, ∃ p ∈ ps, d.HoldsPiece y p ∧ e.HoldsPiece (now y) p) (hx : x ∈ ids)
    (hkids : e.children (now x) = (d.children x).map now) (hc : c ∈ d.children x) :
    d.SameRole e now ps c := by
  rcases h.child_cases hx hc with hx | hc | ⟨body, inner, hbody, hinner, hc⟩
  · obtain ⟨p, -, hpiece, hpiece'⟩ := hp x hx
    exact hpiece.sameRole_child hpiece' hkids hc
  · obtain ⟨p, hmem, hpiece, hpiece'⟩ := hp c hc
    exact .piece hmem hpiece hpiece'
  · exact .row hbody (fun y hy => hp y (hinner y hy)) hc

/-- Two documents of one shape that hold the same pieces are the same node by node. -/
theorem sameRole_of_leaves (hf : d.Forest [d.root]) {children leaves : List NodeId}
    (hroot : d.content? d.root = some (.document children)) (hleaves : d.Leaves children leaves)
    (hp : ∀ y ∈ leaves, ∃ p ∈ ps, d.HoldsPiece y p ∧ e.HoldsPiece (now y) p)
    (hkids : ∀ x, d.isLive x = true → e.children (now x) = (d.children x).map now)
    (hx : d.isLive x = true) :
    d.SameRole e now ps x := by
  induction hf.below_of_top_eq hx with
  | refl => exact .root rfl
  | @tail b c hb hc ih =>
    have hlive := hf.isLive_of_below hb ((hf.mem_tops d.root).mp (by simp)).1
    cases ih hlive with
    | root he =>
      rw [he, children_of_content? hroot] at hc
      exact .row hleaves hp hc
    | row hl hp hx => exact hl.sameRole_child hp hx (hkids b hlive) hc
    | piece _ h h' => exact h.sameRole_child h' (hkids b hlive) hc
    | tagPart h h' => exact h.sameRole_child h' (hkids b hlive) hc
    | value h h' => exact h.sameRole_child h' (hkids b hlive) hc
    | part h _ => simp [h.children_eq] at hc

theorem Holds.sameRole (h : d.Holds ps) (hf : d.Forest [d.root]) (hx : d.isLive x = true) :
    d.SameRole d id ps x := by
  obtain ⟨children, hroot, leaves, hleaves, hps⟩ := h
  apply sameRole_of_leaves hf hroot hleaves _ (by simp) hx
  intro y hy
  obtain ⟨p, hmem, hp⟩ := exists_of_mem_forall₂ hps hy
  exact ⟨p, hmem, hp, hp⟩

namespace SameRole

variable {children : List NodeId} (hroot : d.content? d.root = some (.document children))
include hroot

theorem construct (h : d.SameRole e now ps x) {content : Content} (hx : d.content? x = some content)
    (hdocument : ∀ ids, content ≠ .document ids)
    (helement : ∀ first body last isVoid, content ≠ .element first body last isVoid) :
    (∃ p ∈ ps, d.HoldsPiece x p ∧ e.HoldsPiece (now x) p) ∨
      (∃ part, d.HoldsTagPart x part ∧ e.HoldsTagPart (now x) part) ∨
      (∃ v, d.HoldsValue x v ∧ e.HoldsValue (now x) v) ∨ ∃ part, d.HoldsPart x part ∧
        e.HoldsPart (now x) part := by
  cases h with
  | root he =>
    rw [he, hroot] at hx
    exact absurd (Option.some.inj hx).symm (hdocument _)
  | row hl hp hmem =>
    rcases hl.leaf_or_element hmem with hleaf | ⟨first, body, last, isVoid, hc⟩
    · exact Or.inl (hp x hleaf)
    · rw [hc] at hx
      exact absurd (Option.some.inj hx).symm (helement _ _ _ _)
  | piece hmem hp hp' => exact Or.inl ⟨_, hmem, hp, hp'⟩
  | tagPart hp hp' => exact Or.inr (Or.inl ⟨_, hp, hp'⟩)
  | value hv hv' => exact Or.inr (Or.inr (Or.inl ⟨_, hv, hv'⟩))
  | part hp hp' => exact Or.inr (Or.inr (Or.inr ⟨_, hp, hp'⟩))

theorem value_of_content? (h : d.SameRole e now ps x)
    {openQuote closeQuote : Option Token} {ids : List NodeId}
    (hx : d.content? x = some (.attrValue openQuote ids closeQuote)) :
    ∃ v, d.HoldsValue x v ∧ e.HoldsValue (now x) v := by
  rcases h.construct hroot hx (by simp) (by simp)
    with ⟨p, -, hp, -⟩ | ⟨part, hp, -⟩ | hv | ⟨part, hp, -⟩
  · cases p <;> simp [HoldsPiece, HoldsErb, HoldsOpenTag, HoldsCloseTag, hx] at hp
  · cases part <;> simp [HoldsTagPart, HoldsErb, HoldsAttribute, hx] at hp
  · exact hv
  · cases part <;> simp [HoldsPart, HoldsErb, hx] at hp

theorem openTag_of_content? (h : d.SameRole e now ps x)
    {opening name closing : Token} {ids : List NodeId}
    (hx : d.content? x = some (.openTag opening name ids closing)) :
    ∃ t, .openTag t ∈ ps ∧ d.HoldsOpenTag x t ∧ e.HoldsOpenTag (now x) t := by
  rcases h.construct hroot hx (by simp) (by simp)
    with ⟨p, hmem, hp, hp'⟩ | ⟨part, hp, -⟩ | ⟨v, hv, -⟩ | ⟨part, hp, -⟩
  · cases p with
    | openTag t => exact ⟨t, hmem, hp, hp'⟩
    | _ => simp [HoldsPiece, HoldsErb, HoldsCloseTag, hx] at hp
  · cases part <;> simp [HoldsTagPart, HoldsErb, HoldsAttribute, hx] at hp
  · simp [HoldsValue, hx] at hv
  · cases part <;> simp [HoldsPart, HoldsErb, hx] at hp

theorem closeTag_of_content? (h : d.SameRole e now ps x) {opening name closing : Token}
    {trailing : Option Token} (hx : d.content? x = some (.closeTag opening name trailing closing)) :
    ∃ t, .closeTag t ∈ ps ∧ d.HoldsCloseTag x t ∧ e.HoldsCloseTag (now x) t := by
  rcases h.construct hroot hx (by simp) (by simp)
    with ⟨p, hmem, hp, hp'⟩ | ⟨part, hp, -⟩ | ⟨v, hv, -⟩ | ⟨part, hp, -⟩
  · cases p with
    | closeTag t => exact ⟨t, hmem, hp, hp'⟩
    | _ => simp [HoldsPiece, HoldsErb, HoldsOpenTag, hx] at hp
  · cases part <;> simp [HoldsTagPart, HoldsErb, HoldsAttribute, hx] at hp
  · simp [HoldsValue, hx] at hv
  · cases part <;> simp [HoldsPart, HoldsErb, hx] at hp

end SameRole

end Roles

end Document

/-! ## Layouts -/

namespace Draft

theorem content?_push (d : Draft) (location : Location) (c : Content) :
    ((d.push location c).2.view 0).content? (d.push location c).1 = some c :=
  Document.content?_of_get? (Document.grows_push 0 d location c).get?_new

theorem keeps_push (d : Draft) (location : Location) (c : Content) :
    (d.view 0).Keeps ((d.push location c).2.view 0) := by
  intro id c' hc
  obtain ⟨node, hget, hnode⟩ := Document.get?_of_content? hc
  rw [Document.content?, (Document.grows_push 0 d location c).get?_old
    (Document.ne_size_of_isLive (Document.isLive_of_get? hget)), hget, Option.map_some, hnode]

end Draft

theorem Draft.keeps_view (d : Draft) (root root' : NodeId) : (d.view root).Keeps (d.view root') :=
  fun _ _ h => h

/-- `d'` came from `d` by nodes that are attached nowhere yet. -/
structure Extends (d d' : Draft) : Prop where
  keeps : (d.view 0).Keeps (d'.view 0)
  openElements : d'.openElements = d.openElements
  top : d'.top = d.top

theorem Extends.refl (d : Draft) : Extends d d := ⟨.refl _, rfl, rfl⟩

theorem Extends.trans {d d' d'' : Draft} (h : Extends d d') (h' : Extends d' d'') : Extends d d'' :=
  ⟨h.keeps.trans h'.keeps, h'.openElements.trans h.openElements, h'.top.trans h.top⟩

/-- The step only adds nodes, and its result is as `holds` says, now and in all that keeps them. -/
structure Makes {α : Type} (step : Layout α) (holds : Document → α → Prop) : Prop where
  spread : ∀ d, Extends d (step d).2
  result : ∀ d, holds ((step d).2.view 0) (step d).1

namespace Layout

theorem spread_token (text : List Char) (d : Draft) :
    Extends d (token text d).2 := ⟨.refl _, rfl, rfl⟩

theorem chars_token (text : List Char) (d : Draft) : (token text d).1.chars = text := by
  simp [token, Token.chars]

theorem spread_node (start : Position) (c : Content) (d : Draft) : Extends d (node start c d).2 :=
  ⟨d.keeps_push _ c, rfl, rfl⟩

theorem content?_node (start : Position) (c : Content) (d : Draft) :
    ((node start c d).2.view 0).content? (node start c d).1 = some c := d.content?_push _ c

theorem makes_erb (e : Erb) : Makes (erb e) fun d id => d.HoldsErb id e := by
  constructor
  · intro d
    exact (((spread_token _ d).trans (spread_token _ _)).trans (spread_token _ _)).trans
      (spread_node _ _ _)
  · intro d
    exact ⟨_, _, _, content?_node _ _ _, chars_token _ _, chars_token _ _, chars_token _ _⟩

theorem makes_valuePart (part : ValuePart) :
    Makes (valuePart part) fun d id => d.HoldsPart id part := by
  cases part with
  | literal t =>
    constructor
    · intro d
      exact (spread_token _ d).trans (spread_node _ _ _)
    · intro d
      exact ⟨_, content?_node _ _ _, chars_token _ _⟩
  | erb e => exact makes_erb e

theorem makes_valueParts (parts : List ValuePart) :
    Makes (valueParts parts) fun d ids => List.Forall₂ d.HoldsPart ids parts := by
  induction parts with
  | nil => exact ⟨fun d => .refl d, fun d => .nil⟩
  | cons part rest ih =>
    have hpart := makes_valuePart part
    constructor
    · intro d
      exact (hpart.spread d).trans (ih.spread _)
    · intro d
      exact .cons ((ih.spread _).keeps.holdsPart (hpart.result d)) (ih.result _)

theorem makes_quoteMark (quote : Option Quote) :
    Makes (quoteMark quote) fun _ mark => mark.map Token.chars = quote.map (fun q => [q.char]) := by
  cases quote with
  | none => exact ⟨fun d => .refl d, fun d => rfl⟩
  | some q => exact ⟨fun d => spread_token _ d, fun d => congrArg some (chars_token _ d)⟩

theorem makes_value (v : Value) : Makes (value v) fun d id => d.HoldsValue id v := by
  have hmark := makes_quoteMark v.quote
  have hparts := makes_valueParts v.parts
  constructor
  · intro d
    exact (((hmark.spread d).trans (hparts.spread _)).trans (hmark.spread _)).trans
      (spread_node _ _ _)
  · intro d
    refine ⟨_, _, _, content?_node _ _ _, hmark.result _, hmark.result _, ?_⟩
    exact (hparts.result _).imp fun _ _ =>
      ((hmark.spread _).trans (spread_node _ _ _)).keeps.holdsPart

theorem makes_attr (a : Attribute) : Makes (attr a) fun d id => d.HoldsAttribute id a := by
  obtain ⟨name, value⟩ := a
  cases value with
  | none =>
    constructor
    · intro d
      exact (spread_token _ d).trans (spread_node _ _ _)
    · intro d
      exact ⟨_, _, _, content?_node _ _ _, chars_token _ _, rfl, .none⟩
  | some v =>
    have hvalue := makes_value v
    constructor
    · intro d
      exact (((spread_token _ d).trans (spread_token _ _)).trans (hvalue.spread _)).trans
        (spread_node _ _ _)
    · intro d
      refine ⟨_, _, _, content?_node _ _ _, chars_token _ _,
        congrArg some (chars_token _ _), .some ?_⟩
      exact (spread_node _ _ _).keeps.holdsValue (hvalue.result _)

theorem makes_tagPart (part : TagPart) :
    Makes (tagPart true part) fun d ids => List.Forall₂ d.HoldsTagPart ids [part] := by
  cases part with
  | blank t =>
    constructor
    · intro d
      exact (spread_token _ d).trans (spread_node _ _ _)
    · intro d
      exact .cons ⟨_, content?_node _ _ _, chars_token _ _⟩ .nil
  | erb e => exact ⟨(makes_erb e).spread, fun d => .cons ((makes_erb e).result d) .nil⟩
  | attr a => exact ⟨(makes_attr a).spread, fun d => .cons ((makes_attr a).result d) .nil⟩

theorem makes_tagParts (parts : List TagPart) :
    Makes (tagParts true parts) fun d ids => List.Forall₂ d.HoldsTagPart ids parts := by
  induction parts with
  | nil => exact ⟨fun d => .refl d, fun d => .nil⟩
  | cons part rest ih =>
    have hpart := makes_tagPart part
    constructor
    · intro d
      exact (hpart.spread d).trans (ih.spread _)
    · intro d
      exact List.rel_append
        ((hpart.result d).imp fun _ _ => (ih.spread _).keeps.holdsTagPart) (ih.result _)

theorem makes_openTag (t : OpenTag) :
    Makes (openTag true t) fun d id => d.HoldsPiece id (.openTag t) := by
  have hparts := makes_tagParts t.parts
  constructor
  · intro d
    exact ((((spread_token _ d).trans (spread_token _ _)).trans (hparts.spread _)).trans
      (spread_token _ _)).trans
      (spread_node _ _ _)
  · intro d
    refine ⟨_, _, _, _, content?_node _ _ _, chars_token _ _, chars_token _ _, ?_, chars_token _ _⟩
    exact (hparts.result _).imp fun _ _ =>
      ((spread_token _ _).trans (spread_node _ _ _)).keeps.holdsTagPart

theorem chars_trailing {t : Token} {text : List Char} (h : t.chars = text) :
    (if text.isEmpty then none else some t).toList.flatMap Token.chars = text := by
  cases text with
  | nil => rfl
  | cons c rest => simp [h]

theorem makes_closeTag (t : CloseTag) :
    Makes (closeTag t) fun d id => d.HoldsPiece id (.closeTag t) := by
  constructor
  · intro d
    exact ((((spread_token _ d).trans (spread_token _ _)).trans (spread_token _ _)).trans
      (spread_token _ _)).trans
      (spread_node _ _ _)
  · intro d
    exact ⟨_, _, _, _, content?_node _ _ _, chars_token _ _, chars_token _ _,
      chars_trailing (chars_token _ _), chars_token _ _⟩

end Layout

/-! ## Open elements -/

/-- The nodes on top hold the first pieces; each open element holds those from its open tag on. -/
def Stacked (d : Document) (top : List NodeId) : List OpenElement → List Piece → Prop
  | [], ps => d.Bears top ps
  | e :: outer, ps =>
    ∃ before t own, ps = before ++ .openTag t :: own ∧ d.HoldsPiece e.openTag (.openTag t) ∧
      d.Bears e.body.toList own ∧ Stacked d top outer before

theorem Stacked.mono {d d' : Document} {top : List NodeId}
    {frames : List OpenElement} {ps : List Piece} (h : Stacked d top frames ps) (hk : d.Keeps d') :
    Stacked d' top frames ps := by
  induction frames generalizing ps with
  | nil => exact hk.bears h
  | cons e outer ih =>
    obtain ⟨before, t, own, hps, htag, hbody, houter⟩ := h
    exact ⟨before, t, own, hps, hk.holdsPiece htag, hk.bears hbody, ih houter⟩

def Draft.Bearing (d : Draft) (ps : List Piece) : Prop :=
  Stacked (d.view 0) d.top.toList d.openElements ps

theorem Draft.Bearing.spread {d d' : Draft} {ps : List Piece}
    (h : d.Bearing ps) (he : Extends d d') :
    d'.Bearing ps := by
  unfold Draft.Bearing
  rw [he.openElements, he.top]
  exact Stacked.mono h he.keeps

theorem Draft.Bearing.attach {d : Draft} {id : NodeId} {ps more : List Piece} (h : d.Bearing ps)
    (hid : (d.view 0).Bears [id] more) : (d.attach id).Bearing (ps ++ more) := by
  unfold Draft.Bearing at h
  unfold Draft.attach
  split
  · rename_i inner outer hopen
    rw [hopen] at h
    obtain ⟨before, t, own, rfl, htag, hbody, houter⟩ := h
    refine ⟨before, t, own ++ more, by simp, htag, ?_, houter⟩
    rw [Array.toList_push]
    exact hbody.append hid
  · rename_i hopen
    rw [hopen] at h
    unfold Draft.Bearing
    rw [hopen]
    have htop : (d.view 0).Bears (d.top.toList ++ [id]) (ps ++ more) := h.append hid
    rw [← Array.toList_push] at htop
    exact htop

theorem Draft.bears_endElement {d : Draft} {e : OpenElement} {t : OpenTag}
    {own ended ends : List Piece} (location : Location) (inner : Array NodeId) (tag : Option NodeId)
    (hopen : (d.view 0).HoldsPiece e.openTag (.openTag t))
    (hbody : (d.view 0).Bears e.body.toList own) (hinner : (d.view 0).Bears inner.toList ended)
    (htag : List.Forall₂ (d.view 0).HoldsPiece tag.toList ends) :
    let pushed := d.push location (.element e.openTag (e.body ++ inner).toList tag false)
    (pushed.2.view 0).Bears [pushed.1] (.openTag t :: (own ++ ended) ++ ends) := by
  intro pushed
  have hkeeps := d.keeps_push location (.element e.openTag (e.body ++ inner).toList tag false)
  have hall : (d.view 0).Bears (e.body ++ inner).toList (own ++ ended) := by
    rw [Array.toList_append]
    exact hbody.append hinner
  exact Document.bears_element (d.content?_push location _)
    (hkeeps.holdsPiece hopen) (hkeeps.bears hall)
    (htag.imp fun _ _ => hkeeps.holdsPiece)

namespace Layout

theorem bearing_attach {p : Piece} (step : Layout NodeId)
    (hstep : Makes step fun d id => d.HoldsPiece id p) {d : Draft}
    {ps : List Piece} (h : d.Bearing ps) :
    ((step d).2.attach (step d).1).Bearing (ps ++ [p]) :=
  (h.spread (hstep.spread d)).attach (Document.bears_piece (hstep.result d))

theorem bearing_beginElement {d : Draft} {ps : List Piece} (h : d.Bearing ps) (t : OpenTag) :
    (beginElement t d.here (openTag true t d).1 (openTag true t d).2).2.Bearing
      (ps ++ [.openTag t]) := by
  have htag := makes_openTag t
  have hafter := h.spread (htag.spread d)
  unfold beginElement
  split
  · exact ⟨ps, t, [], rfl, htag.result d, Document.bears_nil, hafter⟩
  · have hnode :=
      spread_node d.here (.element (openTag true t d).1 [] none t.isVoid) (openTag true t d).2
    have helement := Document.bears_element (content?_node d.here _ (openTag true t d).2)
      (hnode.keeps.holdsPiece (htag.result d)) Document.bears_nil .nil
    exact (hafter.spread hnode).attach helement

theorem bearing_endElements {name : List Char} {tag : NodeId} (before : Position) {t : CloseTag}
    (frames : List OpenElement) (hname : ∃ e ∈ frames, e.name = name) {d : Draft}
    (inner : Array NodeId) {ps ended : List Piece} (h : Stacked (d.view 0) d.top.toList frames ps)
    (hinner : (d.view 0).Bears inner.toList ended)
    (htag : (d.view 0).HoldsPiece tag (.closeTag t)) :
    (endElements name tag before inner frames d).2.Bearing (ps ++ ended ++ [.closeTag t]) := by
  -- `inner` are the elements inside the innermost open one that were just ended.
  induction frames generalizing d inner ps ended with
  | nil => simp at hname
  | cons e outer ih =>
    obtain ⟨front, o, own, rfl, hopen, hbody, houter⟩ := h
    rw [endElements]
    split
    · have helement :=
        d.bears_endElement ⟨e.start, d.here⟩ inner (some tag) hopen hbody hinner (.cons htag .nil)
      have houter' :
          ({ (node e.start (.element e.openTag (e.body ++ inner).toList (some tag) false) d).2 with
          openElements := outer } : Draft).Bearing front := houter.mono (d.keeps_push _ _)
      have hresult := houter'.attach helement
      simp only [List.cons_append, List.append_assoc] at hresult ⊢
      exact hresult
    · rename_i hne
      have hkeeps :=
        d.keeps_push ⟨e.start, before⟩ (.element e.openTag (e.body ++ inner).toList none false)
      have helement := d.bears_endElement ⟨e.start, before⟩ inner none hopen hbody hinner .nil
      have hrest : ∃ e ∈ outer, e.name = name := by
        obtain ⟨e', hmem, he'⟩ := hname
        rcases List.mem_cons.mp hmem with rfl | hmem
        · exact absurd he' hne
        · exact ⟨e', hmem, he'⟩
      have hresult := ih hrest (d := (d.push _ _).2) #[_] (houter.mono hkeeps) helement
        (hkeeps.holdsPiece htag)
      simp only [List.cons_append, List.append_assoc, List.append_nil] at hresult ⊢
      exact hresult

theorem bearing_endByTag {d : Draft} {ps : List Piece} (h : d.Bearing ps) (t : CloseTag) :
    (endByTag t d.here (closeTag t d).1 (closeTag t d).2).2.Bearing (ps ++ [.closeTag t]) := by
  have htag := makes_closeTag t
  change (if _ then _ else _ : Layout Unit) _ |>.2.Bearing _
  split
  · rename_i hany
    obtain ⟨e, he, hname⟩ := List.any_eq_true.mp hany
    have hafter := h.spread (htag.spread d)
    have hresult :=
      bearing_endElements d.here _ ⟨e, he, by simpa using hname⟩ #[] hafter Document.bears_nil
      (htag.result d)
    rw [List.append_nil] at hresult
    exact hresult
  · exact bearing_attach (closeTag t) htag h

theorem bears_endAll (frames : List OpenElement) {d : Draft} (inner : Array NodeId)
    {ps ended : List Piece} (h : Stacked (d.view 0) d.top.toList frames ps)
    (hinner : (d.view 0).Bears inner.toList ended) :
    ((endAll inner frames d).2.view 0).Bears
      (endAll inner frames d).2.top.toList (ps ++ ended) := by
  induction frames generalizing d inner ps ended with
  | nil =>
    have htop : (d.view 0).Bears (d.top ++ inner).toList (ps ++ ended) := by
      rw [Array.toList_append]
      exact h.append hinner
    exact htop
  | cons e outer ih =>
    obtain ⟨front, o, own, rfl, hopen, hbody, houter⟩ := h
    have hkeeps :=
      d.keeps_push ⟨e.start, d.here⟩ (.element e.openTag (e.body ++ inner).toList none false)
    have helement := d.bears_endElement ⟨e.start, d.here⟩ inner none hopen hbody hinner .nil
    have hresult := ih (d := (d.push _ _).2) #[_] (houter.mono hkeeps) helement
    simp only [List.cons_append, List.append_assoc, List.append_nil] at hresult ⊢
    exact hresult

/-! ## Pieces -/

theorem makes_text (content : List Char) :
    Makes (do let start ← here; let t ← token content; node start (.text t)) fun d id =>
      d.HoldsPiece id (.text content) := by
  constructor
  · intro d
    exact (spread_token _ d).trans (spread_node _ _ _)
  · intro d
    exact ⟨_, content?_node _ _ _, chars_token _ _⟩

def threeNode (opening content closing : List Char) (make : Token → Token → Token → Content) :
    Layout NodeId := do
  let start ← here
  let first ← token opening
  let middle ← token content
  let last ← token closing
  node start (make first middle last)

theorem spread_threeNode (opening content closing : List Char)
    (make : Token → Token → Token → Content) (d : Draft) :
    Extends d (threeNode opening content closing make d).2 :=
  (((spread_token _ d).trans (spread_token _ _)).trans (spread_token _ _)).trans (spread_node _ _ _)

theorem bearing_piece {d : Draft} {ps : List Piece} (h : d.Bearing ps) (p : Piece) :
    (piece true p d).2.Bearing (ps ++ [p]) := by
  cases p with
  | text content => exact bearing_attach _ (makes_text content) h
  | erb e => exact bearing_attach (p := .erb e) (erb e) (makes_erb e) h
  | comment content =>
    refine bearing_attach (p := .comment content)
      (threeNode commentOpening content commentClosing .comment)
      ⟨spread_threeNode _ _ _ _, ?_⟩ h
    intro d
    exact ⟨_, _, _, content?_node _ _ _, chars_token _ _, chars_token _ _, chars_token _ _⟩
  | doctype content =>
    refine bearing_attach (p := .doctype content)
      (threeNode doctypeOpening content doctypeClosing .doctype)
      ⟨spread_threeNode _ _ _ _, ?_⟩ h
    intro d
    exact ⟨_, _, _, content?_node _ _ _, chars_token _ _, chars_token _ _, chars_token _ _⟩
  | openTag t => exact bearing_beginElement h t
  | closeTag t => exact bearing_endByTag h t

theorem bearing_pieces (more : List Piece) {d : Draft} {ps : List Piece} (h : d.Bearing ps) :
    (pieces true more d).2.Bearing (ps ++ more) := by
  induction more generalizing d ps with
  | nil =>
    rw [List.append_nil]
    exact h
  | cons p rest ih =>
    rw [List.append_cons]
    exact ih (bearing_piece h p)

end Layout

/-- A document keeps what the draft holds in the end, and its root names what is on top of the
draft. -/
theorem keeps_ofPieces (keep : Bool) (ps : List Piece) :
    ((Draft.ofPieces keep ps).view 0).Keeps (Document.ofPieces keep ps) ∧
      (Document.ofPieces keep ps).content? (Document.ofPieces keep ps).root =
        some (.document (Draft.ofPieces keep ps).top.toList) := by
  rw [Document.ofPieces_eq_view]
  exact ⟨(Draft.keeps_push _ _ _).trans (Draft.keeps_view _ 0 _), Draft.content?_push _ _ _⟩

theorem holds_ofPieces (ps : List Piece) : (Document.ofPieces true ps).Holds ps := by
  have hempty : Draft.empty.Bearing [] := Document.bears_nil
  have hpieces := Layout.bearing_pieces ps hempty
  have hbears := Layout.bears_endAll _ #[] hpieces Document.bears_nil
  rw [List.nil_append, List.append_nil] at hbears
  obtain ⟨hkeeps, hroot⟩ := keeps_ofPieces true ps
  exact ⟨_, hroot, hkeeps.bears hbears⟩

end TemplateLint
