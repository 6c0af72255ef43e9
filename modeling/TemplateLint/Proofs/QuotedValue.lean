import TemplateLint.Proofs.AroundValue
import TemplateLint.Proofs.BareAttribute

/-!
# Values in quotes

The fix for a value without quotes puts some around it. Main statement: the text reads back as the
same tree, with quotes around that value and, if its literals have quotes of both kinds, with
references in place of the double ones (`parse_quoteValue`).
-/

namespace TemplateLint

open Markup Rules.QuotedValue

/-! ## References to quotes -/

/-- The text with every reference to a double quote read as that quote. -/
def unescapeQuotes : List Char → List Char
  | '&' :: 'q' :: 'u' :: 'o' :: 't' :: ';' :: rest => '"' :: unescapeQuotes rest
  | c :: rest => c :: unescapeQuotes rest
  | [] => []

theorem escapeQuotes_eq_cons {s rest : List Char} {c : Char}
    (h : escapeQuotes s = c :: rest) (hc : c ≠ '&') :
    ∃ s', s = c :: s' ∧ escapeQuotes s' = rest := by
  -- Escaping adds no character but those of a reference, which starts with an ampersand.
  cases s with
  | nil => cases h
  | cons a s' =>
    rw [escapeQuotes_cons] at h
    split at h
    · exact absurd (List.cons.inj h).1.symm hc
    · obtain ⟨rfl, hrest⟩ := List.cons.inj h
      exact ⟨s', rfl, hrest⟩

theorem unescapeQuotes_cons {c : Char} {rest : List Char}
    (h : ∀ rest', c = '&' → rest ≠ 'q' :: 'u' :: 'o' :: 't' :: ';' :: rest') :
    unescapeQuotes (c :: rest) = c :: unescapeQuotes rest := by
  conv_lhs => unfold unescapeQuotes
  split
  · rename_i rest' heq
    obtain ⟨rfl, rfl⟩ := List.cons.inj heq
    exact absurd rfl (h rest' rfl)
  · rename_i heq
    obtain ⟨rfl, rfl⟩ := List.cons.inj heq
    rfl
  · rename_i heq
    cases heq

theorem unescapeQuotes_escapeQuotes (s : List Char) :
    unescapeQuotes (escapeQuotes s) = unescapeQuotes s := by
  induction s using unescapeQuotes.induct with
  | case1 rest ih =>
    have hescape : escapeQuotes ('&' :: 'q' :: 'u' :: 'o' :: 't' :: ';' :: rest) =
        '&' :: 'q' :: 'u' :: 'o' :: 't' :: ';' :: escapeQuotes rest := by
      simp [escapeQuotes_cons]
    rw [hescape, unescapeQuotes, unescapeQuotes, ih]
  | case2 c rest hnot ih =>
    rw [unescapeQuotes_cons fun rest' hc hrest => hnot rest' hc hrest, escapeQuotes_cons]
    split
    · rename_i hc
      rw [← ih, hc]
      rfl
    · rw [List.singleton_append, unescapeQuotes_cons, ih]
      -- A reference behind the escaping was one before.
      intro rest' hc hrest
      obtain ⟨s₁, rfl, h₁⟩ := escapeQuotes_eq_cons hrest (by decide)
      obtain ⟨s₂, rfl, h₂⟩ := escapeQuotes_eq_cons h₁ (by decide)
      obtain ⟨s₃, rfl, h₃⟩ := escapeQuotes_eq_cons h₂ (by decide)
      obtain ⟨s₄, rfl, h₄⟩ := escapeQuotes_eq_cons h₃ (by decide)
      obtain ⟨s₅, rfl, -⟩ := escapeQuotes_eq_cons h₄ (by decide)
      exact hnot s₅ hc rfl
  | case3 => rfl

theorem literalText_escaped (parts : List ValuePart) :
    (parts.map ValuePart.escaped).flatMap ValuePart.literalText =
      escapeQuotes (parts.flatMap ValuePart.literalText) := by
  induction parts with
  | nil => rfl
  | cons part rest ih =>
    rw [List.map_cons, List.flatMap_cons, List.flatMap_cons, ih, escapeQuotes,
      escapeQuotes, List.flatMap_append]
    cases part <;> rfl

theorem Markup.Value.unescapeQuotes_quoted (v : Value) :
    unescapeQuotes (v.quoted.parts.flatMap ValuePart.literalText) =
      unescapeQuotes (v.parts.flatMap ValuePart.literalText) := by
  unfold Value.quoted
  simp only
  split
  · split
    · rw [literalText_escaped, unescapeQuotes_escapeQuotes]
    · rfl
  · rfl

/-! ## Texts of tracked nodes -/

theorem Content.render_relocate (move : Position → Position) (c : Content)
    (f : NodeId → List Char) :
    (c.relocate move).render f = c.render f := by
  have htokens (t : Option Token) : (t.map (Token.relocate move)).toList.flatMap Token.chars =
      t.toList.flatMap Token.chars := by
    cases t <;> rfl
  have hchars (t : Token) : (t.relocate move).chars = t.chars := rfl
  cases c <;> simp [relocate, render, htokens, hchars]

theorem Tracks.text_eq {d e d' : Document} {fixed : List NodeId} {now : NodeId → NodeId}
    (h : Tracks d e fixed (d.isLive · = true) now) (hg : d'.Grounded)
    (hcontents : ∀ x m, d.get? x = some m → ∃ b, d'.content? x = some b ∧
      b.relocate (fun _ => .start) = (d.mendAt fixed x m).content.relocate fun _ => .start)
    {x : NodeId} (hx : d.isLive x = true) : e.text (now x) = d'.text x := by
  revert hx
  induction x using hg.induct with
  | h x ih =>
    intro hx
    obtain ⟨m, hm⟩ := Document.isLive_iff.mp hx
    obtain ⟨hget, hpresent⟩ := h.get? hx hm
    obtain ⟨b, hb, hsame⟩ := hcontents x m hm
    have hkids : d'.children x = (d.mendAt fixed x m).children := by
      rw [Document.children_of_content? hb, ← Content.children_relocate (fun _ => .start), hsame,
        Content.children_relocate]
      rfl
    rw [h.forest.grounded.text_eq_render hget, hg.text_of_content? hb,
      ← Content.render_relocate (fun _ => .start) b, hsame, Content.render_relocate,
      Node.mapChildren, Content.render_mapChildren]
    apply Content.render_congr
    intro c hc
    exact ih c (by rw [hkids]; exact hc) (hpresent c hc)

/-! ## Where values stand -/

namespace Document

variable {d : Document} {x c : NodeId} {ps : List Piece}

def IsValue (d : Document) (x : NodeId) : Prop :=
  ∃ openQuote children closeQuote, d.content? x = some (.attrValue openQuote children closeQuote)

theorem HoldsPiece.not_isValue {p : Piece} (h : d.HoldsPiece x p) : ¬ d.IsValue x := by
  rintro ⟨openQuote, children, closeQuote, hx⟩
  cases p <;> simp [HoldsPiece, HoldsErb, HoldsOpenTag, HoldsCloseTag, hx] at h

theorem HoldsTagPart.not_isValue {part : TagPart} (h : d.HoldsTagPart x part) : ¬ d.IsValue x := by
  rintro ⟨openQuote, children, closeQuote, hx⟩
  cases part <;> simp [HoldsTagPart, HoldsErb, HoldsAttribute, hx] at h

theorem HoldsPart.not_isValue {part : ValuePart} (h : d.HoldsPart x part) : ¬ d.IsValue x := by
  rintro ⟨openQuote, children, closeQuote, hx⟩
  cases part <;> simp [HoldsPart, HoldsErb, hx] at h

theorem HoldsPiece.child_not_isValue {p : Piece} (h : d.HoldsPiece x p) (hc : c ∈ d.children x) :
    ¬ d.IsValue c := by
  obtain ⟨t, rfl⟩ := h.openTag_of_child hc
  obtain ⟨_, _, children, _, hx, -, -, hparts, -⟩ := h
  rw [children_of_content? hx] at hc
  obtain ⟨part, -, hpart⟩ := exists_of_mem_forall₂ hparts hc
  exact hpart.not_isValue

theorem Leaves.not_isValue {ids leaves : List NodeId} (h : d.Leaves ids leaves)
    (hp : ∀ y ∈ leaves, ∃ p, d.HoldsPiece y p) (hx : x ∈ ids) : ¬ d.IsValue x := by
  rcases h.leaf_or_element hx with hleaf | ⟨_, _, _, _, helement⟩
  · obtain ⟨p, hpiece⟩ := hp x hleaf
    exact hpiece.not_isValue
  · rintro ⟨openQuote, children, closeQuote, hvalue⟩
    simp [helement] at hvalue

theorem Leaves.child_not_isValue {ids leaves : List NodeId} (h : d.Leaves ids leaves)
    (hp : ∀ y ∈ leaves, ∃ p, d.HoldsPiece y p) (hx : x ∈ ids) (hc : c ∈ d.children x) :
    ¬ d.IsValue c := by
  rcases h.child_cases hx hc with hx | hc | ⟨body, inner, hbody, hinner, hc⟩
  · obtain ⟨p, hpiece⟩ := hp x hx
    exact hpiece.child_not_isValue hc
  · obtain ⟨p, hpiece⟩ := hp c hc
    exact hpiece.not_isValue
  · exact hbody.not_isValue (fun y hy => hp y (hinner y hy)) hc

theorem Holds.exists_attr (h : d.Holds ps) (hf : d.Forest [d.root]) (hx : d.IsValue x) :
    ∃ a name equals, d.content? a = some (.attr name equals (some x)) := by
  have hroles {y : NodeId} (hy : d.isLive y = true) := h.sameRole hf hy
  obtain ⟨_, hroot, leaves, hleaves, hps⟩ := h
  have hpieces (y : NodeId) (hy : y ∈ leaves) : ∃ p, d.HoldsPiece y p :=
    (exists_of_mem_forall₂ hps hy).imp fun _ => And.right
  obtain ⟨openQuote, children, closeQuote, hvalue⟩ := hx
  have hx : d.IsValue x := ⟨openQuote, children, closeQuote, hvalue⟩
  obtain ⟨node, hget, -⟩ := get?_of_content? hvalue
  rcases (hf.below_of_top_eq (isLive_of_get? hget)).cases_tail with rfl | ⟨a, -, hchild⟩
  · simp [hroot] at hvalue
  cases hroles (isLive_of_mem_children hchild) with
  | root ha =>
    rw [ha, children_of_content? hroot] at hchild
    exact absurd hx (hleaves.not_isValue hpieces hchild)
  | row hl hp ha =>
    exact absurd hx
      (hl.child_not_isValue (fun y hy => (hp y hy).imp fun _ hpiece => hpiece.2.1) ha hchild)
  | piece _ hpiece _ => exact absurd hx (hpiece.child_not_isValue hchild)
  | @tagPart part hpart _ =>
    cases part with
    | blank t =>
      obtain ⟨_, ha, -⟩ := hpart
      simp [children_of_content? ha, Content.children] at hchild
    | erb erb => simp [HoldsErb.children_eq hpart] at hchild
    | attr own =>
      obtain ⟨name, equals, value, ha, -⟩ := hpart
      obtain rfl : value = some x := by
        simpa [children_of_content? ha, Content.children] using hchild
      exact ⟨a, name, equals, ha⟩
  | value hv _ =>
    obtain ⟨_, _, _, ha, -, -, hparts⟩ := hv
    rw [children_of_content? ha] at hchild
    obtain ⟨part, -, hpart⟩ := exists_of_mem_forall₂ hparts hchild
    exact absurd hx hpart.not_isValue
  | part hpart _ => simp [hpart.children_eq] at hchild

end Document

/-! ## One value in quotes -/

namespace Content

/-- The content with this mark at both ends, if it is a value. -/
def inQuotes (mark : String) : Content → Content
  | attrValue _ children _ =>
    attrValue (some ⟨mark, ⟨.start, .start⟩⟩) children (some ⟨mark, ⟨.start, .start⟩⟩)
  | other => other

/-- The content with its double quotes as references, if it is a literal. -/
def escapeLiteral : Content → Content
  | literal content => literal (content.mapChars escapeQuotes)
  | other => other

end Content

namespace Document

/-- The value `n` gets quotes. If its literals have quotes of both kinds, their double ones become
references. -/
def quotedContent (d : Document) (n x : NodeId) (c : Content) : Content :=
  let text := literalText d (d.children n)
  if x = n then c.inQuotes (if '"' ∈ text ∧ '\'' ∉ text then "'" else "\"")
  else if x ∈ d.children n ∧ '"' ∈ text ∧ '\'' ∈ text then c.escapeLiteral
  else c

def quoteValue (d : Document) (n : NodeId) : Document := d.retouch (d.quotedContent n)

end Document

/-! ## Contents of parts -/

def Markup.ValuePart.content : ValuePart → Content
  | .literal t => .literal ⟨String.ofList t, ⟨.start, .start⟩⟩
  | .erb e =>
    .erb ⟨String.ofList e.opening.text, ⟨.start, .start⟩⟩
      ⟨String.ofList e.content, ⟨.start, .start⟩⟩
      ⟨String.ofList e.closing, ⟨.start, .start⟩⟩

theorem Token.relocate_of_chars {t : Token} {chars : List Char} (h : t.chars = chars) :
    t.relocate (fun _ => .start) = ⟨String.ofList chars, ⟨.start, .start⟩⟩ := by
  rw [← h, Token.chars, String.ofList_toList]
  rfl

theorem Document.HoldsPart.relocate_content {d : Document} {x : NodeId} {part : ValuePart}
    (h : d.HoldsPart x part) {b : Content} (hb : d.content? x = some b) :
    b.relocate (fun _ => .start) = part.content ∧
    b.escapeLiteral.relocate (fun _ => .start) = part.escaped.content := by
  cases part with
  | literal t =>
    obtain ⟨content, hx, hchars⟩ := h
    obtain rfl := Option.some.inj (hb.symm.trans hx)
    have hescaped : (content.mapChars escapeQuotes).chars = escapeQuotes t := by
      simp [Token.mapChars, Token.chars, ← hchars]
    exact ⟨congrArg Content.literal (Token.relocate_of_chars hchars),
      congrArg Content.literal (Token.relocate_of_chars hescaped)⟩
  | erb e =>
    obtain ⟨opening, content, closing, hx, hopening, hcontent, hclosing⟩ := h
    obtain rfl := Option.some.inj (hb.symm.trans hx)
    have hsame : (Content.erb opening content closing).relocate (fun _ => .start) =
        (ValuePart.erb e).content := by
      rw [Content.relocate, Token.relocate_of_chars hopening, Token.relocate_of_chars hcontent,
        Token.relocate_of_chars hclosing]
      rfl
    exact ⟨hsame, hsame⟩

/-! ## An attribute as it is spelled -/

namespace Document

/-- The attribute `a` has this name, and its value `n` is spelled so, part by part. -/
structure Spells (d : Document) (a n : NodeId) (parts : List NodeId)
    (name : List Char) (v : Value) : Prop
    extends d.HasValue a n parts where
  attr : ∃ nameToken equals, d.content? a = some (.attr nameToken (some equals) (some n)) ∧
    nameToken.chars = name ∧
    equals.chars = ['=']
  value : ∃ openQuote closeQuote, d.content? n = some (.attrValue openQuote parts closeQuote) ∧
    openQuote.map Token.chars = v.quote.map (fun q => [q.char]) ∧
    closeQuote.map Token.chars = v.quote.map fun q => [q.char]
  held : List.Forall₂ d.HoldsPart parts v.parts

theorem Within.keeps {d d' : Document} (h : d.Within d') : d.Keeps d' := by
  intro x c hc
  obtain ⟨node, hget, rfl⟩ := get?_of_content? hc
  obtain ⟨slot, hslot, hlive⟩ := exists_slot_of_isLive (isLive_of_get? hget)
  rw [get?_of_slot hslot, if_pos hlive] at hget
  obtain ⟨node', parent, live⟩ := slot
  obtain rfl : live = true := hlive
  obtain rfl : node' = node := Option.some.inj hget
  exact content?_of_get? (h.get?_eq hslot)

theorem spells_ofPieces {t : OpenTag} {front back : List TagPart} {name : List Char} {v : Value}
    (hparts : t.parts = front ++ .attr ⟨name, some v⟩ :: back)
    (before after : List Piece) {k n : NodeId}
    (hk : k = (Layout.tagFront t.name front (Layout.pieces true before .empty).2).2.slots.size)
    (hn : n = k + v.parts.length) :
    (Layout.attr ⟨name, some v⟩
      (Layout.tagFront t.name front (Layout.pieces true before .empty).2).2).1 = n + 1 ∧
      (ofPieces true (before ++ .openTag t :: after)).Spells (n + 1) n
        (List.range' k v.parts.length) name v := by
  have hw := within_ofPieces hparts before after
  obtain ⟨hid, hattr, hvalue⟩ :=
    Layout.children_attr name v (Layout.prunesTo_tagFront before t.name front).1 hw
  have hholds := hw.keeps.holdsAttribute ((Layout.makes_attr ⟨name, some v⟩).result _)
  rw [hid, ← hk, ← hn] at hattr hholds
  rw [← hk, ← hn] at hid hvalue
  obtain ⟨nameToken, equals, value, ha, hname, hequals, hv⟩ := hholds
  cases hv with
  | @some value v hv =>
    obtain ⟨equals, rfl, hmark⟩ := Option.map_eq_some_iff.mp hequals
    obtain rfl : value = n := List.singleton_inj.mp ((children_of_content? ha).symm.trans hattr)
    obtain ⟨openQuote, children, closeQuote, hcontent, hopen, hclose, hheld⟩ := hv
    obtain rfl : children = List.range' k v.parts.length :=
      (children_of_content? hcontent).symm.trans hvalue
    refine ⟨hid, ⟨⟨(sound_ofPieces true _).1, tabled_ofPieces _, hattr, hvalue, ?_⟩,
      ⟨nameToken, equals, ha, hname, hmark⟩,
      ⟨openQuote, closeQuote, hcontent, hopen, hclose⟩, hheld⟩⟩
    intro l hl
    obtain ⟨part, -, hpart⟩ := exists_of_mem_forall₂ hheld hl
    exact hpart.children_eq

namespace Spells

variable {d d' : Document} {a n x : NodeId} {parts : List NodeId} {name : List Char}
  {v : Value} {b b' : Content}

theorem literalText_eq (h : d.Spells a n parts name v) :
    literalText d (d.children n) = v.parts.flatMap ValuePart.literalText := by
  rw [h.parts_eq]
  exact literalText_of_holds h.held

section Quoted

variable (h : d.Spells a n parts name v) (h' : d'.Spells a n parts name v.quoted)
include h h'

theorem relocate_attr (hb : d.content? a = some b) (hb' : d'.content? a = some b') :
    b'.relocate (fun _ => .start) = b.relocate fun _ => .start := by
  obtain ⟨nameToken, equals, ha, hname, hequals⟩ := h.attr
  obtain ⟨nameToken', equals', ha', hname', hequals'⟩ := h'.attr
  obtain rfl := Option.some.inj (hb.symm.trans ha)
  obtain rfl := Option.some.inj (hb'.symm.trans ha')
  simp only [Content.relocate, Option.map_some, Token.relocate_of_chars hname,
    Token.relocate_of_chars hname', Token.relocate_of_chars hequals,
    Token.relocate_of_chars hequals']

theorem relocate_value (hb : d.content? n = some b) (hb' : d'.content? n = some b') :
    b'.relocate (fun _ => .start) = (d.quotedContent n n b).relocate fun _ => .start := by
  obtain ⟨openQuote, closeQuote, hn, -, -⟩ := h.value
  obtain ⟨openQuote', closeQuote', hn', hopen, hclose⟩ := h'.value
  obtain rfl := Option.some.inj (hb.symm.trans hn)
  obtain rfl := Option.some.inj (hb'.symm.trans hn')
  have hmark : v.quoted.quote.map (fun q => [q.char]) =
      some (if '"' ∈ literalText d (d.children n) ∧ '\'' ∉ literalText d (d.children n) then "'"
      else "\"").toList := by
    rw [Value.quoted_eq, h.literalText_eq]
    simp only [List.contains_eq_mem, Bool.and_eq_true, decide_eq_true_eq, Bool.not_eq_true',
      decide_eq_false_iff_not, Option.map_some]
    split <;> rfl
  rw [hmark] at hopen hclose
  obtain ⟨first, rfl, hfirst⟩ := Option.map_eq_some_iff.mp hopen
  obtain ⟨last, rfl, hlast⟩ := Option.map_eq_some_iff.mp hclose
  simp only [Content.relocate, Option.map_some, Token.relocate_of_chars hfirst,
    Token.relocate_of_chars hlast, String.ofList_toList, quotedContent, if_pos, Content.inQuotes]
  rfl

theorem relocate_part (hx : x ∈ parts) (hb : d.content? x = some b)
    (hb' : d'.content? x = some b') :
    b'.relocate (fun _ => .start) = (d.quotedContent n x b).relocate fun _ => .start := by
  have hne : x ≠ n := by
    rintro rfl
    exact h.forest.grounded.not_below_of_child (by rwa [h.parts_eq]) (.refl d x)
  have hheld := h'.held
  rw [Value.quoted_eq, List.forall₂_map_right_iff] at hheld
  obtain ⟨part, -, hpart, hpart'⟩ := exists_of_forall₂ h.held (by rwa [List.map_id]) x hx
  obtain ⟨hsame, hescaped⟩ := hpart.relocate_content hb
  rw [(hpart'.relocate_content hb').1, quotedContent, if_neg hne, h.literalText_eq]
  simp only [h.parts_eq, hx, true_and, List.contains_eq_mem, Bool.and_eq_true, decide_eq_true_eq]
  split
  · exact hescaped.symm
  · exact hsame.symm

theorem unescapeQuotes_literalText :
    unescapeQuotes (literalText d' parts) = unescapeQuotes (literalText d parts) := by
  rw [literalText_of_holds h.held, literalText_of_holds h'.held, Value.unescapeQuotes_quoted]

theorem unplaced_eq (hsame : (d'.dropValue a).unplaced = (d.dropValue a).unplaced) :
    d'.unplaced = (d.quoteValue n).unplaced := by
  -- Without the value both documents are the same, so with it they differ in quotes and references
  -- only.
  have hd := h.toHasValue
  have hd' := h'.toHasValue
  refine unplaced_eq_retouch h.tabled h'.tabled (hd.root_eq hd' hsame) (hd.size_eq hd' hsame)
    (hd.parent?_eq hd' hsame) ?_
  intro x b b' hb hb'
  by_cases hn : x = n
  · subst hn
    exact h.relocate_value h' hb hb'
  by_cases hpart : x ∈ parts
  · exact h.relocate_part h' hpart hb hb'
  have hkept : d.quotedContent n x b = b := by
    rw [quotedContent, if_neg hn, if_neg]
    rw [h.parts_eq]
    exact fun hmem => hpart hmem.1
  rw [hkept]
  by_cases ha : x = a
  · subst ha
    exact h.relocate_attr h' hb hb'
  · exact hd.relocate_eq hd' hsame (by simp [ha, hn, hpart]) hb hb'

end Quoted

end Spells

/-- Laying out one value in quotes gives the document with quotes around that value, up to
places. -/
theorem ofPieces_quoted {t : OpenTag} {front back : List TagPart} {name : List Char} {v : Value}
    (hparts : t.parts = front ++ .attr ⟨name, some v⟩ :: back)
    (before after : List Piece) {k n : NodeId}
    (hk : k = (Layout.tagFront t.name front (Layout.pieces true before .empty).2).2.slots.size)
    (hn : n = k + v.parts.length) :
    let d := ofPieces true (before ++ .openTag t :: after)
    let d' := ofPieces true
      (before ++ .openTag { t with parts := front ++ .attr ⟨name, some v.quoted⟩ :: back } :: after)
    d'.unplaced = (d.quoteValue n).unplaced ∧
      unescapeQuotes (literalText d' (d.children n)) =
        unescapeQuotes (literalText d (d.children n)) := by
  intro d d'
  have hlength : v.quoted.parts.length = v.parts.length := by rw [Value.quoted_eq, List.length_map]
  have hparts' : OpenTag.parts { t with parts := front ++ .attr ⟨name, some v.quoted⟩ :: back } =
      front ++ .attr ⟨name, some v.quoted⟩ :: back := rfl
  obtain ⟨hid, hspells⟩ := spells_ofPieces hparts before after hk hn
  obtain ⟨hid', hspells'⟩ := spells_ofPieces hparts' before after hk (hlength ▸ hn)
  rw [hlength] at hspells'
  -- Both documents without the value are the document of the bare attribute.
  have hbare := ofPieces_bare hparts before after hid.symm
  have hbare' := ofPieces_bare hparts' before after hid'.symm
  refine ⟨hspells.unplaced_eq hspells' (hbare'.symm.trans hbare), ?_⟩
  rw [hspells.parts_eq]
  exact hspells.unescapeQuotes_literalText hspells'

/-! ## The fix -/

theorem content_mended_of_hasDoubleQuote {d : Document} {x : NodeId} {m : Node}
    (hm : d.get? x = some m) :
    (if d.hasDoubleQuote x = true then d.mended m else m).content = m.content.escapeLiteral := by
  obtain ⟨location, content⟩ := m
  simp only [hasDoubleQuote, hm]
  cases content with
  | literal content =>
    by_cases hquote : '"' ∈ content.chars
    · rw [if_pos (by simpa using hquote)]
      rfl
    · rw [if_neg (by simpa using hquote), Content.escapeLiteral, Token.mapChars,
        escapeQuotes_of_not_mem hquote, Token.chars, String.ofList_toList]
  | _ => rfl

theorem relocate_mendAt {d : Document} {n x : NodeId} {m : Node}
    {openQuote closeQuote : Option Token} {children : List NodeId}
    (hn : d.content? n = some (.attrValue openQuote children closeQuote)) (hm : d.get? x = some m) :
    (d.mendAt (d.amends n) x m).content.relocate (fun _ => .start) =
      (d.quotedContent n x m.content).relocate fun _ => .start := by
  obtain ⟨⟨location, _⟩, hget, rfl⟩ := get?_of_content? hn
  have hkids : d.children n = children := children_of_content? hn
  have hamends : d.amends n = n :: d.escapees children := by rw [amends, hget]
  rw [mendAt, hamends, quotedContent, hkids]
  by_cases hx : x = n
  · subst hx
    obtain rfl := Option.some.inj (hm.symm.trans hget)
    have hquote : d.quoteFor children =
        if '"' ∈ literalText d children ∧ '\'' ∉ literalText d children then "'" else "\"" := by
      rw [quoteFor]
      simp only [List.contains_eq_mem, Bool.and_eq_true, decide_eq_true_eq, Bool.not_eq_true',
        decide_eq_false_iff_not]
    rw [if_pos List.mem_cons_self, if_pos rfl, ← hquote]
    rfl
  rw [if_neg hx]
  by_cases hboth : x ∈ children ∧ '"' ∈ literalText d children ∧ '\'' ∈ literalText d children
  · have hmem : x ∈ n :: d.escapees children ↔ d.hasDoubleQuote x = true := by
      simp [hx, escapees, hboth]
    simp only [hmem, if_pos hboth, content_mended_of_hasDoubleQuote hm]
  · have hmem : x ∉ n :: d.escapees children := by
      rw [List.mem_cons, not_or, escapees]
      refine ⟨hx, ?_⟩
      split
      · rename_i hquotes
        simp only [List.contains_eq_mem, Bool.and_eq_true, decide_eq_true_eq] at hquotes
        exact fun hfilter => hboth ⟨(List.mem_filter.mp hfilter).1, hquotes⟩
      · exact List.not_mem_nil
    rw [if_neg hmem, if_neg hboth]

end Document

namespace Rules.QuotedValue

theorem exists_run_fix {d d' : Document} (hf : d.Forest [d.root]) (hg : d'.Grounded) {n : NodeId}
    {closeQuote : Option Token} {children : List NodeId}
    (hn : d.content? n = some (.attrValue none children closeQuote)) (hroot : n ≠ d.root)
    (hsame : d'.unplaced = (d.quoteValue n).unplaced) :
    ∃ e, (fix n).run d = .ok true e ∧ e.print = d'.print := by
  obtain ⟨⟨location, _⟩, hget, rfl⟩ := Document.get?_of_content? hn
  obtain ⟨e, now, hrun, htracks⟩ :=
    run_fix (Tracks.refl hf) (Document.isLive_of_get? hget) List.not_mem_nil hroot hget
    fun _ _ => List.not_mem_nil
  rw [List.append_nil] at htracks
  have hcontents (x : NodeId) (m : Node) (hm : d.get? x = some m) : ∃ b, d'.content? x = some b ∧
      b.relocate (fun _ => .start) =
        (d.mendAt (d.amends n) x m).content.relocate fun _ => .start := by
    have hx := congrArg (fun e : Document => e.content? x) hsame
    simp only [Document.unplaced, Document.content?_seen, Document.quoteValue,
      Document.content?_retouch, Document.content?_of_get? hm, Option.map_some] at hx
    rw [← Document.relocate_mendAt hn hm] at hx
    exact Option.map_eq_some_iff.mp hx
  have htext := htracks.text_eq hg hcontents htracks.root.1
  have hroots := congrArg Document.root hsame
  change d'.root = d.root at hroots
  refine ⟨e, hrun, ?_⟩
  rw [Document.print, Document.print, ← htracks.root.2, htext, hroots]

end Rules.QuotedValue

theorem exists_value_split {source : String} {d : Document}
    (h : Document.parse source true = .ok d) {n : NodeId} {closeQuote : Option Token}
    {children : List NodeId} (hn : d.content? n = some (.attrValue none children closeQuote)) :
    ∃ before tag after front name v back, Readable [] (before ++ .openTag tag :: after) ∧
      d = .ofPieces true (before ++ .openTag tag :: after) ∧
      tag.parts = front ++ .attr ⟨name, some v⟩ :: back ∧
      v.quote = none ∧
      n = (Layout.tagFront tag.name front (Layout.pieces true before .empty).2).2.slots.size +
        v.parts.length := by
  have hf := forest_of_parse h
  obtain ⟨ps, hread, rfl⟩ := exists_readPieces_of_parse h
  obtain ⟨hreadable, -⟩ := readPieces_eq_ok_iff.mp hread
  obtain ⟨a, nameToken, equals, ha⟩ :=
    (holds_ofPieces ps).exists_attr hf ⟨none, children, closeQuote, hn⟩
  obtain ⟨node, hget, hnode⟩ := Document.get?_of_content? ha
  obtain ⟨slot, hslot, rfl⟩ := Document.slot_of_get? hget
  obtain ⟨before, tag, after, front, ⟨name, v?⟩, back, rfl, hparts, hid⟩ :=
    Document.exists_origin hslot (by rw [hnode]; trivial)
  obtain ⟨v, rfl⟩ : ∃ v, v? = some v := by
    obtain ⟨_, _, value, horigin, -, hsome⟩ := Document.get?_origin hparts before after hid
    have hcontent := (Document.content?_of_get? horigin).symm.trans ha
    simp only [Option.some.injEq, Content.attr.injEq] at hcontent
    rw [hcontent.2.2] at hsome
    exact Option.isSome_iff_exists.mp hsome.symm
  obtain ⟨hid', hspells⟩ := Document.spells_ofPieces hparts before after rfl rfl
  have hkids := hspells.value_eq
  rw [← hid', ← hid, Document.children_of_content? ha] at hkids
  have hvalue := List.singleton_inj.mp hkids
  obtain ⟨openQuote, closeQuote', hcontent, hopen, -⟩ := hspells.value
  rw [← hvalue, hn] at hcontent
  obtain ⟨rfl, -, -⟩ := Content.attrValue.inj (Option.some.inj hcontent)
  exact ⟨before, tag, after, front, name, v, back, hreadable, rfl, hparts,
    Option.map_eq_none_iff.mp hopen.symm, hvalue⟩

/-- Quotes are put around the value, and the text reads back as the same tree with these quotes. -/
theorem parse_quoteValue {source : String} {d : Document}
    (h : Document.parse source true = .ok d) {n : NodeId} {closeQuote : Option Token}
    {children : List NodeId} (hn : d.content? n = some (.attrValue none children closeQuote)) :
    ∃ e d', (Rules.QuotedValue.fix n).run d = .ok true e ∧ Document.parse e.print true = .ok d' ∧
      d'.unplaced = (d.quoteValue n).unplaced ∧
      (∀ x opening code closing, d.content? x = some (.erb opening code closing) →
        d'.unplaced.content? x = d.unplaced.content? x) ∧
      unescapeQuotes (literalText d' children) = unescapeQuotes (literalText d children) := by
  have hf := forest_of_parse h
  obtain ⟨before, tag, after, front, name, v, back, hreadable, rfl, hparts, hbare, hid⟩ :=
    exists_value_split h hn
  obtain ⟨hsame, htext⟩ := Document.ofPieces_quoted hparts before after rfl hid
  have hkids : Document.children _ n = children := Document.children_of_content? hn
  rw [hkids] at htext
  let ps :=
    before ++ .openTag { tag with parts := front ++ .attr ⟨name, some v.quoted⟩ :: back } :: after
  have hfits := (hreadable.fits_part hparts).restyled (.value name (Or.inr ⟨hbare, rfl⟩))
  have hgrounded : (Document.ofPieces true ps).Grounded := (sound_ofPieces true ps).1.grounded
  obtain ⟨e, hrun, hprint⟩ := Rules.QuotedValue.exists_run_fix hf hgrounded hn
    ((holds_ofPieces _).ne_root hn (by simp)) hsame
  have hread : readPieces [] e.print.toList = .ok ps := by
    refine readPieces_eq_ok_iff.mpr ⟨hreadable.revalued hparts hfits.1, ?_⟩
    rw [hprint, Document.print, String.toList_ofList, (holds_ofPieces ps).text_root hgrounded]
  refine ⟨e, _, hrun, Document.parse_of_readPieces hread true, hsame, ?_, htext⟩
  intro x opening code closing hx
  have hvalue : x ≠ n := by
    rintro rfl
    simp [hn] at hx
  rw [hsame, Document.unplaced, Document.unplaced, Document.content?_seen,
    Document.content?_seen, Document.quoteValue, Document.content?_retouch, hx]
  simp only [Option.map_some, Document.quotedContent, if_neg hvalue]
  split <;> rfl

/-- Quotes of both kinds stand around embedded Ruby with quotes of its own, before a reference. -/
theorem parse_quoteValue_both_quotes : ∃ d e d' closeQuote,
    Document.parse "<p a=x\"y'<%= \"z\" %>&quot;>" true = .ok d ∧
      d.content? 4 = some (.attrValue none [1, 2, 3] closeQuote) ∧
      (Rules.QuotedValue.fix 4).run d = .ok true e ∧
      e.print = "<p a=\"x&quot;y'<%= \"z\" %>&quot;\">" ∧
      Document.parse e.print true = .ok d' ∧ d'.unplaced = (d.quoteValue 4).unplaced ∧
      unescapeQuotes (literalText d' [1, 2, 3]) = unescapeQuotes (literalText d [1, 2, 3]) := by
  have hok : (Document.parse "<p a=x\"y'<%= \"z\" %>&quot;>" true).toOption.any (fun d =>
      decide (d.content? 4 = some (.attrValue none [1, 2, 3] none)) &&
      (Edit.changed? (Rules.QuotedValue.fix 4) d).any fun e =>
        decide (e.print = "<p a=\"x&quot;y'<%= \"z\" %>&quot;\">")) = true := by
    decide +kernel
  obtain ⟨d, hd, hfacts⟩ := exists_ok_of_any hok
  rw [Bool.and_eq_true, decide_eq_true_eq, Option.any_eq_true] at hfacts
  obtain ⟨hn, e', hchanged, hprint⟩ := hfacts
  obtain ⟨e, d', hrun, hparse, hsame, -, htext⟩ := parse_quoteValue hd hn
  obtain rfl : e = e' := Option.some.inj ((Edit.changed?_eq_some_iff.mpr hrun).symm.trans hchanged)
  exact ⟨d, e, d', none, hd, hn, hrun, of_decide_eq_true hprint, hparse, hsame, htext⟩

end TemplateLint
