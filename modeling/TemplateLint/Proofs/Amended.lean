import TemplateLint.Proofs.Repairs

/-!
# What an amended document holds

Fixes change a document node by node. If it held some pieces, it holds them afterwards with other
names, quotes or fewer values, each piece where it stood. Main statement: `Tracks.holds`.
-/

namespace TemplateLint

open Markup Text Rules.BooleanAttribute Rules.QuotedValue

/-! ## Targets of fixes -/

/-- Whether some fix is for such a node. -/
def Content.IsFixable : Content → Prop
  | .openTag .. => True
  | .closeTag .. => True
  | .attr name _ _ => isBoolean name.text = true
  | .attrValue none _ _ => True
  | _ => False

namespace Document

variable {d : Document} {ts : List NodeId}

def mendedBy (d : Document) (ts : List NodeId) : List NodeId := ts.flatMap d.amends

def Targets (d : Document) (ts : List NodeId) : Prop :=
  ∀ t ∈ ts, ∃ c, d.content? t = some c ∧ c.IsFixable

/-- No fix is for an attribute as a whole. -/
def NoFlags (d : Document) (ts : List NodeId) : Prop :=
  ∀ t ∈ ts, ∀ name equals value, d.content? t ≠ some (.attr name equals value)

theorem hasDoubleQuote_of_amends {x t : NodeId} (h : x ∈ d.amends t) (hne : x ≠ t) :
    x ∈ d.children t ∧ d.hasDoubleQuote x = true ∧
      ∀ openQuote children closeQuote,
        d.content? t = some (.attrValue openQuote children closeQuote) →
        x ∈ d.escapees children := by
  have h := (List.mem_cons.mp h).resolve_left hne
  split at h
  · rename_i location openQuote children closeQuote hget
    obtain ⟨hmem, hquote⟩ := mem_of_escapees h
    refine ⟨by rwa [children_of_get? hget], hquote, ?_⟩
    intro openQuote' children' closeQuote' hc
    rw [content?_of_get? hget] at hc
    cases hc
    exact h
  · simp at h

theorem mem_mendedBy_iff (ts : List NodeId) {x : NodeId} {c : Content} (hc : d.content? x = some c)
    (hl : ∀ content, c ≠ .literal content) :
    x ∈ d.mendedBy ts ↔ x ∈ ts := by
  rw [mendedBy, List.mem_flatMap]
  constructor
  · rintro ⟨t, ht, hx⟩
    by_cases he : x = t
    · rwa [he]
    · obtain ⟨-, hquote, -⟩ := hasDoubleQuote_of_amends hx he
      obtain ⟨location, content, hget, -⟩ := hasDoubleQuote_iff.mp hquote
      rw [content?_of_get? hget] at hc
      exact absurd (Option.some.inj hc).symm (hl content)
  · intro hx
    exact ⟨x, hx, List.mem_cons_self⟩

theorem Targets.part_mem_iff (ht : d.Targets ts) (hf : d.Forest [d.root]) {a l : NodeId}
    {openQuote closeQuote : Option Token} {children : List NodeId}
    (ha : d.content? a = some (.attrValue openQuote children closeQuote)) (hl : l ∈ children)
    {part : ValuePart} (hp : d.HoldsPart l part) :
    l ∈ d.mendedBy ts ↔ a ∈ ts ∧ l ∈ d.escapees children := by
  have hkid : l ∈ d.children a := by rwa [children_of_content? ha]
  rw [mendedBy, List.mem_flatMap]
  constructor
  · rintro ⟨t, hmem, hlt⟩
    by_cases he : l = t
    · obtain ⟨c, hc, hfix⟩ := ht t hmem
      rw [← he] at hc
      cases part with
      | literal text =>
        obtain ⟨content, hc', -⟩ := hp
        rw [hc] at hc'
        cases hc'
        exact hfix.elim
      | erb erb =>
        obtain ⟨_, _, _, hc', -⟩ := hp
        rw [hc] at hc'
        cases hc'
        exact hfix.elim
    · obtain ⟨hkid', -, hescapes⟩ := hasDoubleQuote_of_amends hlt he
      obtain rfl := hf.parent_unique hkid hkid'
      exact ⟨hmem, hescapes _ _ _ ha⟩
  · rintro ⟨hmem, hescapes⟩
    refine ⟨a, hmem, List.mem_cons_of_mem _ ?_⟩
    obtain ⟨⟨location, content⟩, hget, rfl⟩ := get?_of_content? ha
    rw [hget]
    exact hescapes

theorem Targets.bare_of_mem (ht : d.Targets ts) {a : NodeId} (ha : a ∈ ts) {v : Value}
    (hv : d.HoldsValue a v) :
    v.quote = none := by
  obtain ⟨c, hc, hfix⟩ := ht a ha
  obtain ⟨openQuote, children, closeQuote, hc', hopen, -⟩ := hv
  rw [hc] at hc'
  cases hc'
  cases openQuote with
  | none => simpa using hopen.symm
  | some mark => exact hfix.elim

end Document

theorem literalText_of_holds {d : Document} {children : List NodeId} {parts : List ValuePart}
    (h : List.Forall₂ d.HoldsPart children parts) :
    literalText d children = parts.flatMap ValuePart.literalText := by
  induction h with
  | nil => rfl
  | @cons l part children parts hpart _ ih =>
    rw [literalText, List.flatMap_cons, List.flatMap_cons, ← ih]
    apply congrArg (· ++ literalText d children)
    cases part with
    | literal text =>
      obtain ⟨content, hc, rfl⟩ := hpart
      obtain ⟨⟨location, _⟩, hget, rfl⟩ := Document.get?_of_content? hc
      rw [hget]
      rfl
    | erb erb =>
      obtain ⟨_, _, _, hc, -⟩ := hpart
      obtain ⟨⟨location, _⟩, hget, rfl⟩ := Document.get?_of_content? hc
      rw [hget]
      rfl

theorem escapeQuotes_of_not_mem {text : List Char} (h : '"' ∉ text) : escapeQuotes text = text := by
  induction text with
  | nil => rfl
  | cons c rest ih =>
    simp only [List.mem_cons, not_or] at h
    rw [escapeQuotes_cons, if_neg (Ne.symm h.1), ih h.2]
    rfl

theorem escaped_of_clean {d : Document} {l : NodeId} {part : ValuePart} (h : d.HoldsPart l part)
    (hquote : d.hasDoubleQuote l = false) : part.escaped = part := by
  cases part with
  | erb erb => rfl
  | literal text =>
    obtain ⟨content, hc, rfl⟩ := h
    obtain ⟨⟨location, _⟩, hget, rfl⟩ := Document.get?_of_content? hc
    rw [Document.hasDoubleQuote, hget] at hquote
    rw [ValuePart.escaped, escapeQuotes_of_not_mem (by simpa using hquote)]

theorem Markup.Value.quoted_eq (v : Value) :
    let text := v.parts.flatMap ValuePart.literalText
    v.quoted = ⟨some (if text.contains '"' && !text.contains '\'' then .single else .double),
      v.parts.map (if text.contains '"' && text.contains '\'' then ValuePart.escaped else id)⟩ := by
  intro text
  rw [quoted]
  cases text.contains '"' <;> cases text.contains '\'' <;> simp

theorem chars_quoteFor (d : Document) (children : List NodeId) (location : Location) :
    Token.chars ⟨d.quoteFor children, location⟩ =
      [(if (literalText d children).contains '"' &&
        !(literalText d children).contains '\'' then Quote.single
        else Quote.double).char] := by
  rw [Token.chars, Document.quoteFor]
  split <;> simp [Quote.char]

/-! ## Amended constructs -/

namespace Tracks

variable {d e : Document} {fixed ts : List NodeId} {present : NodeId → Prop}
  {now : NodeId → NodeId} {a : NodeId}

theorem content?_fresh (h : Tracks d e fixed present now) (ha : present a)
    (hfresh : a ∉ fixed) {c : Content} (hc : d.content? a = some c) :
    e.content? (now a) = some (c.mapChildren now) ∧ ∀ x ∈ c.children, present x := by
  obtain ⟨n, hget, rfl⟩ := Document.get?_of_content? hc
  have hnode := h.get? ha hget
  rw [Document.mendAt, if_neg hfresh] at hnode
  exact ⟨Document.content?_of_get? hnode.1, hnode.2⟩

theorem content?_mended (h : Tracks d e fixed present now) (ha : present a)
    (hmem : a ∈ fixed) {n : Node} (hn : d.get? a = some n) :
    e.content? (now a) = some ((d.mended n).content.mapChildren now) ∧
    ∀ x ∈ (d.mended n).children, present x := by
  have hnode := h.get? ha hn
  rw [Document.mendAt, if_pos hmem] at hnode
  exact ⟨Document.content?_of_get? hnode.1, hnode.2⟩

theorem content?_leaf (h : Tracks d e fixed present now) (ha : present a) {c : Content}
    (hc : d.content? a = some c) (hmended : ∀ location, d.mended ⟨location, c⟩ = ⟨location, c⟩) :
    e.content? (now a) = some (c.mapChildren now) ∧ ∀ x ∈ c.children, present x := by
  by_cases hmem : a ∈ fixed
  · obtain ⟨⟨location, _⟩, hget, rfl⟩ := Document.get?_of_content? hc
    have hkept := h.content?_mended ha hmem hget
    rw [hmended] at hkept
    exact hkept
  · exact h.content?_fresh ha hmem hc

theorem holdsErb (h : Tracks d e fixed present now) (ha : present a) {erb : Erb}
    (he : d.HoldsErb a erb) :
    e.HoldsErb (now a) erb := by
  obtain ⟨opening, content, closing, hc, htexts⟩ := he
  exact ⟨opening, content, closing, (h.content?_leaf ha hc fun _ => rfl).1, htexts⟩

theorem holdsPart (h : Tracks d e fixed present now) (ha : present a) {part : ValuePart}
    (hp : d.HoldsPart a part) :
    e.HoldsPart (now a) (if a ∈ fixed then part.escaped else part) := by
  cases part with
  | erb erb =>
    rw [ValuePart.escaped, ite_self]
    exact h.holdsErb ha hp
  | literal text =>
    obtain ⟨content, hc, rfl⟩ := hp
    by_cases hmem : a ∈ fixed
    · rw [if_pos hmem]
      obtain ⟨⟨location, _⟩, hget, rfl⟩ := Document.get?_of_content? hc
      exact ⟨_, (h.content?_mended ha hmem hget).1, by simp [Token.chars]⟩
    · rw [if_neg hmem]
      exact ⟨_, (h.content?_fresh ha hmem hc).1, rfl⟩

theorem holdsParts (h : Tracks d e fixed present now) {children : List NodeId}
    {parts : List ValuePart} (hparts : List.Forall₂ d.HoldsPart children parts)
    (hpresent : ∀ l ∈ children, present l) (f : ValuePart → ValuePart)
    (hf : ∀ l ∈ children, ∀ part, d.HoldsPart l part →
      (if l ∈ fixed then part.escaped else part) = f part) :
    List.Forall₂ e.HoldsPart (children.map now) (parts.map f) := by
  induction hparts with
  | nil => exact .nil
  | cons hpart _ ih =>
    rw [List.forall_mem_cons] at hpresent hf
    refine .cons ?_ (ih hpresent.2 hf.2)
    rw [← hf.1 _ hpart]
    exact h.holdsPart hpresent.1 hpart

theorem holdsValue_fresh (h : Tracks d e (d.mendedBy ts) present now)
    (hf : d.Forest [d.root]) (ht : d.Targets ts) (ha : present a) (hfresh : a ∉ ts) {v : Value}
    (hv : d.HoldsValue a v) : e.HoldsValue (now a) v := by
  obtain ⟨openQuote, children, closeQuote, hc, hopen, hclose, hparts⟩ := hv
  have hmem : a ∉ d.mendedBy ts := by rwa [Document.mem_mendedBy_iff ts hc (by simp)]
  obtain ⟨hc', hpresent⟩ := h.content?_fresh ha hmem hc
  refine ⟨openQuote, _, closeQuote, hc', hopen, hclose, ?_⟩
  have hsame := h.holdsParts hparts hpresent id fun l hl part hp => by
    rw [if_neg fun hm => hfresh ((ht.part_mem_iff hf hc hl hp).mp hm).1, id]
  rwa [List.map_id] at hsame

theorem holdsValue_mended (h : Tracks d e (d.mendedBy ts) present now)
    (hf : d.Forest [d.root]) (ht : d.Targets ts) (ha : present a) (hmem : a ∈ ts) {v : Value}
    (hv : d.HoldsValue a v) : e.HoldsValue (now a) v.quoted := by
  obtain ⟨openQuote, children, closeQuote, hc, -, -, hparts⟩ := hv
  have hmem' : a ∈ d.mendedBy ts := by rwa [Document.mem_mendedBy_iff ts hc (by simp)]
  obtain ⟨⟨location, _⟩, hget, rfl⟩ := Document.get?_of_content? hc
  obtain ⟨hc', hpresent⟩ := h.content?_mended ha hmem' hget
  have htext := literalText_of_holds hparts
  rw [Value.quoted_eq, ← htext]
  refine ⟨_, _, _, hc', ?_, ?_, ?_⟩
  · exact congrArg some (chars_quoteFor d children _)
  · exact congrArg some (chars_quoteFor d children _)
  · apply h.holdsParts hparts hpresent
    intro l hl part hp
    simp only [ht.part_mem_iff hf hc hl hp, Document.escapees]
    split
    · cases hquote : d.hasDoubleQuote l with
      | true => simp [hmem, hl, hquote]
      | false => simp [hquote, escaped_of_clean hp hquote]
    · simp

theorem holdsValue (h : Tracks d e (d.mendedBy ts) present now)
    (hf : d.Forest [d.root]) (ht : d.Targets ts) (ha : present a) {v : Value}
    (hv : d.HoldsValue a v) : ∃ v', v.Restyled v' ∧ e.HoldsValue (now a) v' := by
  by_cases hmem : a ∈ ts
  · exact ⟨v.quoted, Or.inr ⟨ht.bare_of_mem hmem hv, rfl⟩, h.holdsValue_mended hf ht ha hmem hv⟩
  · exact ⟨v, Or.inl rfl, h.holdsValue_fresh hf ht ha hmem hv⟩

theorem holdsTagPart (h : Tracks d e (d.mendedBy ts) present now)
    (hf : d.Forest [d.root]) (ht : d.Targets ts) (ha : present a) {part : TagPart}
    (hp : d.HoldsTagPart a part) :
    ∃ part₁ part', part.Restyled part₁ ∧ part₁.Bared part' ∧ (d.NoFlags ts → part' = part₁) ∧
      e.HoldsTagPart (now a) part' := by
  cases part with
  | blank t =>
    obtain ⟨content, hc, htext⟩ := hp
    exact ⟨_, _, .same _, .same _, fun _ => rfl, content,
      (h.content?_leaf ha hc fun _ => rfl).1, htext⟩
  | erb erb => exact ⟨_, _, .same _, .same _, fun _ => rfl, h.holdsErb ha hp⟩
  | attr own =>
    obtain ⟨n, v⟩ := own
    obtain ⟨name, equals, value, hc, rfl, hequals, hvalue⟩ := hp
    by_cases hmem : a ∈ ts
    · -- The value is gone, with all that stood below it.
      have hmem' : a ∈ d.mendedBy ts := by rwa [Document.mem_mendedBy_iff ts hc (by simp)]
      obtain ⟨c, hc', hfix⟩ := ht a hmem
      rw [hc] at hc'
      cases hc'
      have hname : isBoolean (String.ofList name.chars) = true := by
        rw [Token.chars, String.ofList_toList]
        exact hfix
      have hbare : TagPart.Bared (.attr ⟨name.chars, v⟩) (.attr ⟨name.chars, none⟩) := by
        cases v with
        | none => exact .same _
        | some v => exact .flag hname v
      obtain ⟨⟨location, _⟩, hget, rfl⟩ := Document.get?_of_content? hc
      exact ⟨_, _, .same _, hbare, fun hno => absurd hc (hno a hmem _ _ _), name, none, none,
        (h.content?_mended ha hmem' hget).1, rfl, rfl, .none⟩
    · have hmem' : a ∉ d.mendedBy ts := by rwa [Document.mem_mendedBy_iff ts hc (by simp)]
      obtain ⟨hc', hpresent⟩ := h.content?_fresh ha hmem' hc
      cases hvalue with
      | none =>
        exact ⟨_, _, .same _, .same _, fun _ => rfl, name, equals, none, hc', rfl, hequals, .none⟩
      | @some c v hv =>
        obtain ⟨v', hr, hv'⟩ := h.holdsValue hf ht (hpresent c (by simp [Content.children])) hv
        exact ⟨_, _, .value name.chars hr, .same _, fun _ => rfl, name, equals,
          some (now c), hc', rfl, hequals, .some hv'⟩

theorem holdsTagParts (h : Tracks d e (d.mendedBy ts) present now)
    (hf : d.Forest [d.root]) (ht : d.Targets ts) {children : List NodeId} {parts : List TagPart}
    (hparts : List.Forall₂ d.HoldsTagPart children parts) (hpresent : ∀ c ∈ children, present c) :
    ∃ parts₁ parts', List.Forall₂ TagPart.Restyled parts parts₁ ∧
      List.Forall₂ TagPart.Bared parts₁ parts' ∧
      (d.NoFlags ts → parts' = parts₁) ∧ List.Forall₂ e.HoldsTagPart (children.map now) parts' := by
  induction hparts with
  | nil => exact ⟨[], [], .nil, .nil, fun _ => rfl, .nil⟩
  | cons hpart _ ih =>
    rw [List.forall_mem_cons] at hpresent
    obtain ⟨part₁, part', hrestyled, hbared, hsame, hholds⟩ := h.holdsTagPart hf ht hpresent.1 hpart
    obtain ⟨parts₁, parts', hrestyleds, hbareds, hsames, hrest⟩ := ih hpresent.2
    exact ⟨part₁ :: parts₁, part' :: parts', .cons hrestyled hrestyleds, .cons hbared hbareds,
      fun hno => by rw [hsame hno, hsames hno], .cons hholds hrest⟩

theorem content?_openTag (h : Tracks d e (d.mendedBy ts) present now) (ha : present a)
    {opening name closing : Token} {children : List NodeId}
    (hc : d.content? a = some (.openTag opening name children closing)) :
    ∃ name', e.content? (now a) = some (.openTag opening name' (children.map now) closing) ∧
      name'.chars = (if a ∈ ts then lowercase name.chars else name.chars) ∧
      ∀ x ∈ children, present x := by
  have hmem := Document.mem_mendedBy_iff ts hc (by simp)
  split
  · rename_i ht
    obtain ⟨⟨location, _⟩, hget, rfl⟩ := Document.get?_of_content? hc
    obtain ⟨hc', hpresent⟩ := h.content?_mended ha (hmem.mpr ht) hget
    exact ⟨_, hc', toList_lower name.text, hpresent⟩
  · rename_i ht
    obtain ⟨hc', hpresent⟩ := h.content?_fresh ha (mt hmem.mp ht) hc
    exact ⟨name, hc', rfl, hpresent⟩

theorem content?_closeTag (h : Tracks d e (d.mendedBy ts) present now) (ha : present a)
    {opening name closing : Token} {trailing : Option Token}
    (hc : d.content? a = some (.closeTag opening name trailing closing)) :
    ∃ name', e.content? (now a) = some (.closeTag opening name' trailing closing) ∧
      name'.chars = (if a ∈ ts then lowercase name.chars else name.chars) := by
  have hmem := Document.mem_mendedBy_iff ts hc (by simp)
  split
  · rename_i ht
    obtain ⟨⟨location, _⟩, hget, rfl⟩ := Document.get?_of_content? hc
    exact ⟨_, (h.content?_mended ha (hmem.mpr ht) hget).1, toList_lower name.text⟩
  · rename_i ht
    exact ⟨name, (h.content?_fresh ha (mt hmem.mp ht) hc).1, rfl⟩

theorem restyledName_ite (name : List Char) (c : Prop) [Decidable c] :
    RestyledName name (if c then lowercase name else name) := by
  split
  · exact Or.inr rfl
  · exact Or.inl rfl

theorem holdsPiece (h : Tracks d e (d.mendedBy ts) present now)
    (hf : d.Forest [d.root]) (ht : d.Targets ts) (ha : present a) {p : Piece}
    (hp : d.HoldsPiece a p) :
    ∃ p₁ p', p.Restyled p₁ ∧ p₁.Bared p' ∧ (d.NoFlags ts → p' = p₁) ∧ e.HoldsPiece (now a) p' := by
  cases p with
  | text t =>
    obtain ⟨content, hc, htext⟩ := hp
    exact ⟨_, _, .same _, .same (by simp), fun _ => rfl, content,
      (h.content?_leaf ha hc fun _ => rfl).1, htext⟩
  | erb erb => exact ⟨_, _, .same _, .same (by simp), fun _ => rfl, h.holdsErb ha hp⟩
  | comment t =>
    obtain ⟨opening, content, closing, hc, htexts⟩ := hp
    exact ⟨_, _, .same _, .same (by simp), fun _ => rfl, opening, content, closing,
      (h.content?_leaf ha hc fun _ => rfl).1, htexts⟩
  | doctype t =>
    obtain ⟨opening, content, closing, hc, htexts⟩ := hp
    exact ⟨_, _, .same _, .same (by simp), fun _ => rfl, opening, content, closing,
      (h.content?_leaf ha hc fun _ => rfl).1, htexts⟩
  | openTag t =>
    obtain ⟨n, parts, closes⟩ := t
    obtain ⟨opening, name, children, closing, hc, hopening, rfl, hparts, hclosing⟩ := hp
    obtain ⟨name', hc', hname, hpresent⟩ := h.content?_openTag ha hc
    obtain ⟨parts₁, parts', hrestyled, hbared, hsame, hholds⟩ :=
      h.holdsTagParts hf ht hparts hpresent
    have hrename := restyledName_ite name.chars (a ∈ ts)
    rw [← hname] at hrename
    exact ⟨.openTag ⟨name'.chars, parts₁, closes⟩, .openTag ⟨name'.chars, parts', closes⟩,
      .openTag ⟨hrename, hrestyled, rfl⟩, .openTag _ _ hbared, fun hno => by rw [hsame hno],
      opening, name', _, closing, hc', hopening, rfl, hholds, hclosing⟩
  | closeTag t =>
    obtain ⟨n, blanks⟩ := t
    obtain ⟨opening, name, trailing, closing, hc, hopening, rfl, htrailing, hclosing⟩ := hp
    obtain ⟨name', hc', hname⟩ := h.content?_closeTag ha hc
    have hrename := restyledName_ite name.chars (a ∈ ts)
    rw [← hname] at hrename
    exact ⟨.closeTag ⟨name'.chars, blanks⟩, _, .closeTag ⟨hrename, rfl⟩,
      .same (by simp), fun _ => rfl, opening, name', trailing, closing, hc', hopening,
      rfl, htrailing, hclosing⟩

/-! ## Amended documents -/

theorem leaves (h : Tracks d e (d.mendedBy ts) present now)
    (hf : d.Forest [d.root]) (ht : d.Targets ts) {ids leaves : List NodeId}
    (hl : d.Leaves ids leaves) (hp : ∀ y ∈ leaves, ∃ p, d.HoldsPiece y p)
    (hpresent : ∀ x ∈ ids, present x) :
    e.Leaves (ids.map now) (leaves.map now) ∧ ∀ y ∈ leaves, present y := by
  induction hl with
  | nil => exact ⟨.nil, by simp⟩
  | leaf hc _ _ ih =>
    rw [List.forall_mem_cons] at hp hpresent
    obtain ⟨hrest, hleaves⟩ := ih hp.2 hpresent.2
    obtain ⟨p, hpiece⟩ := hp.1
    obtain ⟨-, p', -, -, -, hpiece'⟩ := h.holdsPiece hf ht hpresent.1 hpiece
    obtain ⟨c, hc', hleaf⟩ := hpiece'.leaf
    exact ⟨.leaf hc' hleaf hrest, List.forall_mem_cons.mpr ⟨hpresent.1, hleaves⟩⟩
  | @element id first body ids inner leaves last isVoid hc _ _ ihbody ihrest =>
    rw [List.forall_mem_cons] at hpresent
    simp only [List.cons_append, List.forall_mem_cons, List.forall_mem_append] at hp
    obtain ⟨-, ⟨hpinner, -⟩, hpleaves⟩ := hp
    obtain ⟨hc', hkids⟩ := h.content?_leaf hpresent.1 hc fun _ => rfl
    simp only [Content.children, List.cons_append, List.forall_mem_cons,
      List.forall_mem_append] at hkids
    obtain ⟨hfirst, hbodyKids, hlast⟩ := hkids
    obtain ⟨hbody, hinner⟩ := ihbody hpinner hbodyKids
    obtain ⟨hrest, hleaves⟩ := ihrest hpleaves hpresent.2
    constructor
    · have helement := Document.Leaves.element hc' hbody hrest
      have htoList : (last.map now).toList = last.toList.map now := by cases last <;> rfl
      rw [htoList] at helement
      simpa using helement
    · simp only [List.cons_append, List.forall_mem_cons, List.forall_mem_append]
      exact ⟨hfirst, ⟨hinner, hlast⟩, hleaves⟩

theorem holdsPieces (h : Tracks d e (d.mendedBy ts) present now)
    (hf : d.Forest [d.root]) (ht : d.Targets ts) {leaves : List NodeId} {ps : List Piece}
    (hps : List.Forall₂ d.HoldsPiece leaves ps) (hpresent : ∀ y ∈ leaves, present y) :
    ∃ ps₁ ps', List.Forall₂ Piece.Restyled ps ps₁ ∧ List.Forall₂ Piece.Bared ps₁ ps' ∧
      (d.NoFlags ts → ps' = ps₁) ∧
      List.Forall₂ e.HoldsPiece (leaves.map now) ps' := by
  induction hps with
  | nil => exact ⟨[], [], .nil, .nil, fun _ => rfl, .nil⟩
  | cons hp _ ih =>
    rw [List.forall_mem_cons] at hpresent
    obtain ⟨p₁, p', hrestyled, hbared, hsame, hholds⟩ := h.holdsPiece hf ht hpresent.1 hp
    obtain ⟨ps₁, ps', hrestyleds, hbareds, hsames, hrest⟩ := ih hpresent.2
    exact ⟨p₁ :: ps₁, p' :: ps', .cons hrestyled hrestyleds, .cons hbared hbareds,
      fun hno => by rw [hsame hno, hsames hno], .cons hholds hrest⟩

theorem rows (h : Tracks d e (d.mendedBy ts) present now)
    (hf : d.Forest [d.root]) (ht : d.Targets ts) {children leaves : List NodeId} {ps : List Piece}
    (hroot : d.content? d.root = some (.document children)) (hleaves : d.Leaves children leaves)
    (hps : List.Forall₂ d.HoldsPiece leaves ps) :
    e.content? e.root = some (.document (children.map now)) ∧
      e.Leaves (children.map now) (leaves.map now) ∧
      ∀ y ∈ leaves, present y := by
  obtain ⟨hpresent, hnow⟩ := h.root
  obtain ⟨hroot', hkids⟩ := h.content?_leaf hpresent hroot fun _ => rfl
  rw [hnow] at hroot'
  have hpieces : ∀ y ∈ leaves, ∃ p, d.HoldsPiece y p := fun y hy => by
    obtain ⟨p, -, hp⟩ := Document.exists_of_mem_forall₂ hps hy
    exact ⟨p, hp⟩
  exact ⟨hroot', h.leaves hf ht hleaves hpieces hkids⟩

/-- The amended document holds the amended pieces, leaf by leaf. -/
theorem holds (h : Tracks d e (d.mendedBy ts) present now)
    (hf : d.Forest [d.root]) (ht : d.Targets ts) {children leaves : List NodeId} {ps : List Piece}
    (hroot : d.content? d.root = some (.document children)) (hleaves : d.Leaves children leaves)
    (hps : List.Forall₂ d.HoldsPiece leaves ps) :
    ∃ ps₁ ps', List.Forall₂ Piece.Restyled ps ps₁ ∧ List.Forall₂ Piece.Bared ps₁ ps' ∧
      (d.NoFlags ts → ps' = ps₁) ∧
      List.Forall₂ e.HoldsPiece (leaves.map now) ps' ∧ e.Holds ps' := by
  obtain ⟨hroot', hrows, hall⟩ := h.rows hf ht hroot hleaves hps
  obtain ⟨ps₁, ps', hrestyled, hbared, hsame, hholds⟩ := h.holdsPieces hf ht hps hall
  exact ⟨ps₁, ps', hrestyled, hbared, hsame, hholds, _, hroot', _, hrows, hholds⟩

end Tracks

end TemplateLint
