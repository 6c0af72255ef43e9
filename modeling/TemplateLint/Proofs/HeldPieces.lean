import TemplateLint.Proofs.Holding
import TemplateLint.Proofs.Prune

/-!
# What a tree says about its pieces

A document holds one list of pieces only, and places do not matter for it. Main statements:
documents that differ in places only hold the same pieces (`Holds.unique`), and a document with the
links of another one is that one with other contents (`unplaced_eq_retouch`).
-/

namespace TemplateLint

open Markup

/-! ## Documents from afar -/

namespace Document

theorem content?_seen (d : Document) (move : Position → Position)
    (look : Content → Content) (x : NodeId) :
    (d.seen move look).content? x = (d.content? x).map look := by
  simp only [content?, get?, seen, Array.getElem?_map]
  cases d.slots[x]? with
  | none => rfl
  | some slot =>
    simp only [Option.map_some, Slot.seen]
    split <;> rfl

theorem parent?_seen (d : Document) (move : Position → Position)
    (look : Content → Content) (x : NodeId) :
    (d.seen move look).parent? x = d.parent? x := by
  simp only [parent?, seen, Array.getElem?_map]
  cases d.slots[x]? <;> rfl

theorem size_seen (d : Document) (move : Position → Position) (look : Content → Content) :
    (d.seen move look).slots.size = d.slots.size := Array.size_map

def retouch (d : Document) (f : NodeId → Content → Content) : Document :=
  { d with slots := d.slots.mapIdx fun x slot =>
      { slot with node := { slot.node with content := f x slot.node.content } } }

theorem content?_retouch (d : Document) (f : NodeId → Content → Content) (x : NodeId) :
    (d.retouch f).content? x = (d.content? x).map (f x) := by
  simp only [content?, get?, retouch, Array.getElem?_mapIdx]
  cases d.slots[x]? with
  | none => rfl
  | some slot =>
    simp only [Option.map_some]
    split <;> rfl

theorem unplaced_eq_retouch {d d' : Document} {f : NodeId → Content → Content}
    (hd : d.Tabled) (hd' : d'.Tabled) (hroot : d'.root = d.root)
    (hsize : d'.slots.size = d.slots.size) (hparents : ∀ x, d'.parent? x = d.parent? x)
    (hcontents : ∀ x b b', d.content? x = some b → d'.content? x = some b' →
      b'.relocate (fun _ => .start) = (f x b).relocate fun _ => .start) :
    d'.unplaced = (d.retouch f).unplaced := by
  have hslots : d'.unplaced.slots = (d.retouch f).unplaced.slots := by
    apply Array.ext_getElem?
    intro x
    simp only [unplaced, seen, retouch, Array.getElem?_map, Array.getElem?_mapIdx]
    by_cases hlt : x < d.slots.size
    · have hslot := Array.getElem?_eq_getElem hlt
      have hslot' := Array.getElem?_eq_getElem (hsize ▸ hlt : x < d'.slots.size)
      have hlive := (hd x _ hslot).1
      have hlive' := (hd' x _ hslot').1
      have hparent := hparents x
      rw [parent?_of_slot hslot, parent?_of_slot hslot', if_pos hlive, if_pos hlive'] at hparent
      have hcontent := hcontents x _ _ (content?_of_get? (by rw [get?_of_slot hslot, if_pos hlive]))
        (content?_of_get? (by rw [get?_of_slot hslot', if_pos hlive']))
      rw [hslot, hslot']
      simp only [Option.map_some, Slot.seen, hparent, hlive, hlive', hcontent]
      rfl
    · rw [Array.getElem?_eq_none (Nat.le_of_not_lt hlt),
        Array.getElem?_eq_none (hsize ▸ Nat.le_of_not_lt hlt)]
      rfl
  simp only [unplaced, seen] at hslots ⊢
  rw [hslots, hroot]
  rfl

end Document

/-! ## One list of pieces -/

theorem forall₂_unique {α β : Type} {R S : α → β → Prop} {xs : List α} {ys zs : List β}
    (h : List.Forall₂ R xs ys) (h' : List.Forall₂ S xs zs)
    (heq : ∀ x y z, R x y → S x z → z = y) : zs = ys := by
  induction h generalizing zs with
  | nil =>
    cases h'
    rfl
  | cons hr _ ih =>
    cases h' with
    | cons hs hrest => rw [heq _ _ _ hr hs, ih hrest]

@[simp] theorem Content.kindName_relocate (move : Position → Position) (c : Content) :
    (c.relocate move).kindName = c.kindName := by
  cases c <;> rfl

/-! ## Kinds -/

def Markup.TagPart.kindName : TagPart → String
  | blank _ => "whitespace"
  | erb _ => "erb-content"
  | attr _ => "attribute"

def Markup.Piece.kindName : Piece → String
  | text _ => "text"
  | erb _ => "erb-content"
  | comment _ => "html-comment"
  | doctype _ => "doctype"
  | openTag _ => "open-tag"
  | closeTag _ => "close-tag"

namespace Document

variable {d d' : Document} {id : NodeId}

theorem HoldsTagPart.kind {part : TagPart} (h : d.HoldsTagPart id part) :
    ∃ c, d.content? id = some c ∧ c.kindName = part.kindName := by
  cases part with
  | blank t => exact h.elim fun _ h => ⟨_, h.1, rfl⟩
  | erb e =>
    obtain ⟨_, _, _, hc, -⟩ := h
    exact ⟨_, hc, rfl⟩
  | attr a =>
    obtain ⟨_, _, _, hc, -⟩ := h
    exact ⟨_, hc, rfl⟩

theorem HoldsPiece.kind {p : Piece} (h : d.HoldsPiece id p) :
    ∃ c, d.content? id = some c ∧ c.kindName = p.kindName := by
  cases p with
  | text t => exact h.elim fun _ h => ⟨_, h.1, rfl⟩
  | erb e =>
    obtain ⟨_, _, _, hc, -⟩ := h
    exact ⟨_, hc, rfl⟩
  | comment t =>
    obtain ⟨_, _, _, hc, -⟩ := h
    exact ⟨_, hc, rfl⟩
  | doctype t =>
    obtain ⟨_, _, _, hc, -⟩ := h
    exact ⟨_, hc, rfl⟩
  | openTag t =>
    obtain ⟨_, _, _, _, hc, -⟩ := h
    exact ⟨_, hc, rfl⟩
  | closeTag t =>
    obtain ⟨_, _, _, _, hc, -⟩ := h
    exact ⟨_, hc, rfl⟩

/-! ## Nodes that differ in places -/

/-- The nodes of one id differ in places only. -/
def Matches (d d' : Document) : Prop :=
  ∀ id c c', d.content? id = some c → d'.content? id = some c' →
    c'.relocate (fun _ => .start) = c.relocate fun _ => .start

theorem Matches.refl (d : Document) : d.Matches d := by
  intro id c c' hc hc'
  rw [hc] at hc'
  cases hc'
  rfl

theorem matches_of_unplaced_eq (h : d'.unplaced = d.unplaced) : d.Matches d' := by
  intro id c c' hc hc'
  have hcontents := congrArg (fun e : Document => e.content? id) h
  simp only [unplaced, content?_seen, hc, hc', Option.map_some, Option.some.injEq] at hcontents
  exact hcontents

theorem Matches.kindName_eq (hm : d.Matches d') {kind kind' : String}
    (h : ∃ c, d.content? id = some c ∧ c.kindName = kind)
    (h' : ∃ c, d'.content? id = some c ∧ c.kindName = kind') : kind' = kind := by
  obtain ⟨c, hc, rfl⟩ := h
  obtain ⟨c', hc', rfl⟩ := h'
  rw [← Content.kindName_relocate, hm id _ _ hc hc', Content.kindName_relocate]

theorem chars_eq {t t' : Token} (h : t'.relocate (fun _ => .start) = t.relocate fun _ => .start) :
    t'.chars = t.chars := by
  have htext := congrArg Token.text h
  exact congrArg String.toList htext

theorem map_chars_eq {t t' : Option Token}
    (h : t'.map (Token.relocate fun _ => .start) = t.map (Token.relocate fun _ => .start)) :
    t'.map Token.chars = t.map Token.chars := by
  have hmap := congrArg (Option.map Token.chars) h
  rwa [Option.map_map, Option.map_map] at hmap

section Unique

variable (hm : d.Matches d')
include hm

theorem HoldsErb.unique {e e' : Erb} (h : d.HoldsErb id e) (h' : d'.HoldsErb id e') : e' = e := by
  obtain ⟨opening, content, closing, hc, hopening, hcontent, hclosing⟩ := h
  obtain ⟨opening', content', closing', hc', hopening', hcontent', hclosing'⟩ := h'
  have hsame := hm id _ _ hc hc'
  simp only [Content.relocate, Content.erb.injEq] at hsame
  have ho : e'.opening = e.opening := by
    have htext : e'.opening.text = e.opening.text := by
      rw [← hopening, ← hopening', chars_eq hsame.1]
    revert htext
    cases e.opening <;> cases e'.opening <;> decide
  have htext : e'.content = e.content := by rw [← hcontent, ← hcontent', chars_eq hsame.2.1]
  have htrims : e'.trimsEnd = e.trimsEnd := by
    have htext : e'.closing = e.closing := by rw [← hclosing, ← hclosing', chars_eq hsame.2.2]
    revert htext
    rw [Erb.closing, Erb.closing]
    cases e.trimsEnd <;> cases e'.trimsEnd <;> decide
  cases e
  cases e'
  exact Erb.mk.injEq .. ▸ ⟨ho, htext, htrims⟩

theorem HoldsPart.unique {part part' : ValuePart} (h : d.HoldsPart id part)
    (h' : d'.HoldsPart id part') :
    part' = part := by
  cases part with
  | literal t =>
    obtain ⟨content, hc, htext⟩ := h
    cases part' with
    | literal t' =>
      obtain ⟨content', hc', htext'⟩ := h'
      have hsame := hm id _ _ hc hc'
      simp only [Content.relocate, Content.literal.injEq] at hsame
      rw [← htext, ← htext', chars_eq hsame]
    | erb e' =>
      obtain ⟨_, _, _, hc', -⟩ := h'
      simpa [Content.relocate] using hm id _ _ hc hc'
  | erb e =>
    cases part' with
    | literal t' =>
      obtain ⟨_, _, _, hc, -⟩ := h
      obtain ⟨_, hc', -⟩ := h'
      simpa [Content.relocate] using hm id _ _ hc hc'
    | erb e' => rw [HoldsErb.unique hm h h']

theorem HoldsValue.unique {v v' : Value} (h : d.HoldsValue id v)
    (h' : d'.HoldsValue id v') : v' = v := by
  obtain ⟨openQuote, children, closeQuote, hc, hopen, -, hparts⟩ := h
  obtain ⟨openQuote', children', closeQuote', hc', hopen', -, hparts'⟩ := h'
  have hsame := hm id _ _ hc hc'
  simp only [Content.relocate, Content.attrValue.injEq] at hsame
  obtain ⟨hquote, rfl, -⟩ := hsame
  have hq : v'.quote = v.quote := by
    have hchars : v'.quote.map (fun q => [q.char]) = v.quote.map (fun q => [q.char]) := by
      rw [← hopen, ← hopen', map_chars_eq hquote]
    revert hchars
    rcases v.quote with _ | _ | _ <;> rcases v'.quote with _ | _ | _ <;> decide
  have hp : v'.parts = v.parts := forall₂_unique hparts hparts' fun _ _ _ => HoldsPart.unique hm
  cases v
  cases v'
  exact Value.mk.injEq .. ▸ ⟨hq, hp⟩

theorem HoldsAttribute.unique {a a' : Attribute} (h : d.HoldsAttribute id a)
    (h' : d'.HoldsAttribute id a') : a' = a := by
  obtain ⟨name, equals, value, hc, hname, -, hvalue⟩ := h
  obtain ⟨name', equals', value', hc', hname', -, hvalue'⟩ := h'
  have hsame := hm id _ _ hc hc'
  simp only [Content.relocate, Content.attr.injEq] at hsame
  obtain ⟨hchars, -, rfl⟩ := hsame
  have hn : a'.name = a.name := by rw [← hname, ← hname', chars_eq hchars]
  have hv : a'.value = a.value := by
    generalize a.value = v at hvalue
    generalize a'.value = v' at hvalue'
    cases hvalue with
    | none =>
      cases hvalue'
      rfl
    | some hv =>
      cases hvalue' with
      | some hv' => rw [HoldsValue.unique hm hv hv']
  cases a
  cases a'
  exact Attribute.mk.injEq .. ▸ ⟨hn, hv⟩

theorem HoldsTagPart.unique {part part' : TagPart} (h : d.HoldsTagPart id part)
    (h' : d'.HoldsTagPart id part') :
    part' = part := by
  have hkind : part'.kindName = part.kindName := hm.kindName_eq h.kind h'.kind
  cases part with
  | blank t =>
    cases part' with
    | blank t' =>
      obtain ⟨content, hc, htext⟩ := h
      obtain ⟨content', hc', htext'⟩ := h'
      have hsame := hm id _ _ hc hc'
      simp only [Content.relocate, Content.whitespace.injEq] at hsame
      rw [← htext, ← htext', chars_eq hsame]
    | _ => simp [TagPart.kindName] at hkind
  | erb e =>
    cases part' with
    | erb e' => rw [HoldsErb.unique hm h h']
    | _ => simp [TagPart.kindName] at hkind
  | attr a =>
    cases part' with
    | attr a' => rw [HoldsAttribute.unique hm h h']
    | _ => simp [TagPart.kindName] at hkind

theorem HoldsOpenTag.unique {t t' : OpenTag} (h : d.HoldsOpenTag id t)
    (h' : d'.HoldsOpenTag id t') : t' = t := by
  obtain ⟨opening, name, children, closing, hc, -, hname, hparts, hclosing⟩ := h
  obtain ⟨opening', name', children', closing', hc', -, hname', hparts', hclosing'⟩ := h'
  have hsame := hm id _ _ hc hc'
  simp only [Content.relocate, Content.openTag.injEq] at hsame
  obtain ⟨-, hchars, rfl, hclose⟩ := hsame
  have hn : t'.name = t.name := by rw [← hname, ← hname', chars_eq hchars]
  have hp : t'.parts = t.parts := forall₂_unique hparts hparts' fun _ _ _ => HoldsTagPart.unique hm
  have hcloses : t'.selfClosing = t.selfClosing := by
    have htext : t'.closing = t.closing := by rw [← hclosing, ← hclosing', chars_eq hclose]
    revert htext
    rw [OpenTag.closing, OpenTag.closing]
    cases t.selfClosing <;> cases t'.selfClosing <;> decide
  cases t
  cases t'
  exact OpenTag.mk.injEq .. ▸ ⟨hn, hp, hcloses⟩

theorem HoldsCloseTag.unique {t t' : CloseTag} (h : d.HoldsCloseTag id t)
    (h' : d'.HoldsCloseTag id t') : t' = t := by
  obtain ⟨opening, name, trailing, closing, hc, -, hname, htrailing, -⟩ := h
  obtain ⟨opening', name', trailing', closing', hc', -, hname', htrailing', -⟩ := h'
  have hsame := hm id _ _ hc hc'
  simp only [Content.relocate, Content.closeTag.injEq] at hsame
  have hn : t'.name = t.name := by rw [← hname, ← hname', chars_eq hsame.2.1]
  have hblanks : t'.trailing = t.trailing := by
    have hflat (o : Option Token) : o.toList.flatMap Token.chars =
        (o.map Token.chars).toList.flatten := by
      cases o <;> simp
    rw [← htrailing, ← htrailing', hflat, hflat, map_chars_eq hsame.2.2.1]
  cases t
  cases t'
  exact CloseTag.mk.injEq .. ▸ ⟨hn, hblanks⟩

theorem HoldsPiece.unique {p p' : Piece} (h : d.HoldsPiece id p)
    (h' : d'.HoldsPiece id p') : p' = p := by
  have hkind : p'.kindName = p.kindName := hm.kindName_eq h.kind h'.kind
  cases p with
  | text t =>
    cases p' with
    | text t' =>
      obtain ⟨content, hc, htext⟩ := h
      obtain ⟨content', hc', htext'⟩ := h'
      have hsame := hm id _ _ hc hc'
      simp only [Content.relocate, Content.text.injEq] at hsame
      rw [← htext, ← htext', chars_eq hsame]
    | _ => simp [Piece.kindName] at hkind
  | erb e =>
    cases p' with
    | erb e' => rw [HoldsErb.unique hm h h']
    | _ => simp [Piece.kindName] at hkind
  | comment t =>
    cases p' with
    | comment t' =>
      obtain ⟨opening, content, closing, hc, -, htext, -⟩ := h
      obtain ⟨opening', content', closing', hc', -, htext', -⟩ := h'
      have hsame := hm id _ _ hc hc'
      simp only [Content.relocate, Content.comment.injEq] at hsame
      rw [← htext, ← htext', chars_eq hsame.2.1]
    | _ => simp [Piece.kindName] at hkind
  | doctype t =>
    cases p' with
    | doctype t' =>
      obtain ⟨opening, content, closing, hc, -, htext, -⟩ := h
      obtain ⟨opening', content', closing', hc', -, htext', -⟩ := h'
      have hsame := hm id _ _ hc hc'
      simp only [Content.relocate, Content.doctype.injEq] at hsame
      rw [← htext, ← htext', chars_eq hsame.2.1]
    | _ => simp [Piece.kindName] at hkind
  | openTag t =>
    cases p' with
    | openTag t' => rw [HoldsOpenTag.unique hm h h']
    | _ => simp [Piece.kindName] at hkind
  | closeTag t =>
    cases p' with
    | closeTag t' => rw [HoldsCloseTag.unique hm h h']
    | _ => simp [Piece.kindName] at hkind

theorem Leaves.eq_of_matches {ids leaves leaves' : List NodeId} (h : d.Leaves ids leaves)
    (h' : d'.Leaves ids leaves') :
    leaves' = leaves := by
  induction h generalizing leaves' with
  | nil =>
    cases h'
    rfl
  | @leaf id ids leaves c hc hleaf _ ih =>
    cases h' with
    | leaf _ _ hrest => rw [ih hrest]
    | element hc' _ _ =>
      have hsame := hm id _ _ hc hc'
      cases c with
      | element first body last isVoid => exact absurd rfl (hleaf first body last isVoid)
      | _ => simp [Content.relocate] at hsame
  | @element id first body ids inner leaves last isVoid hc _ _ ihbody ihrest =>
    cases h' with
    | @leaf _ _ _ c' hc' hleaf' _ =>
      have hsame := hm id _ _ hc hc'
      cases c' with
      | element first body last isVoid => exact absurd rfl (hleaf' first body last isVoid)
      | _ => simp [Content.relocate] at hsame
    | element hc' hbody hrest =>
      have hsame := hm id _ _ hc hc'
      simp only [Content.relocate, Content.element.injEq] at hsame
      obtain ⟨rfl, rfl, rfl, -⟩ := hsame
      rw [ihbody hbody, ihrest hrest]

end Unique

theorem Holds.unique {ps qs : List Piece} (h : d.Holds ps) (h' : d'.Holds qs)
    (hsame : d'.unplaced = d.unplaced) :
    qs = ps := by
  have hm := matches_of_unplaced_eq hsame
  have hroot := congrArg Document.root hsame
  change d'.root = d.root at hroot
  obtain ⟨children, hc, leaves, hleaves, hps⟩ := h
  obtain ⟨children', hc', leaves', hleaves', hqs⟩ := h'
  rw [hroot] at hc'
  have hchildren := hm _ _ _ hc hc'
  simp only [Content.relocate, Content.document.injEq] at hchildren
  subst hchildren
  rw [Leaves.eq_of_matches hm hleaves hleaves'] at hqs
  exact forall₂_unique hps hqs fun _ _ _ => HoldsPiece.unique hm

end Document

end TemplateLint
