import TemplateLint.Proofs.WellFormed

/-!
# Ids of nodes

A node gets the number of nodes before it as its id. Ids may have 32 bits only, so they could run
out. They do not as long as the text has fewer characters than there are ids, since every node is
paid for by a character of its own: a value without parts by the equals sign before it, an element
by the mark that closes its open tag, be it ended by a close tag, by the end of an outer element or
by the end of the text. Main statement: `parse_ids`.
-/

namespace TemplateLint

open Markup

/-! ## Tables -/

/-- Adds a node to a table under the given id, as the parent of its children. -/
def addNode (id : NodeId) (slots : Array Slot) (node : Node) : Array Slot :=
  let adopt (slots : Array Slot) (child : NodeId) :=
    slots.modify child fun slot => { slot with parent := some id }
  (node.children.foldl adopt slots).push ⟨node, none, true⟩

/-- A table whose nodes have ids of 32 bits, with these ids in the order in which they were
given. -/
structure NarrowTable where
  slots : Array Slot
  ids : List UInt32
  deriving DecidableEq, Repr

namespace NarrowTable

/-- Adds a node. Once all ids are given away, every further node gets the last one. -/
def add (t : NarrowTable) (node : Node) : NarrowTable :=
  let id := UInt32.ofNatClamp t.slots.size
  ⟨addNode id.toNat t.slots node, t.ids ++ [id]⟩

def ofNodes (nodes : List Node) : NarrowTable := nodes.foldl add ⟨#[], []⟩

end NarrowTable

/-- The table came about node by node, and each node names nodes only that came before it. -/
inductive Built : Array Slot → Prop where
  | empty : Built #[]
  | add {slots : Array Slot} {node : Node} (h : Built slots)
      (hkids : ∀ c ∈ node.children, c < slots.size) :
      Built (addNode slots.size slots node)

section Tables

variable {slots : Array Slot} {node : Node} {x : NodeId}

theorem slots_addNode (slots : Array Slot) (node : Node) (x : NodeId) :
    (addNode slots.size slots node)[x]? =
      if x = slots.size then some ⟨node, none, true⟩
      else if x ∈ node.children then slots[x]?.map fun slot =>
        { slot with parent := some slots.size }
      else slots[x]? :=
  Draft.slots_push ⟨slots, .start, [], #[]⟩ node.location node.content x

theorem size_addNode (slots : Array Slot) (node : Node) :
    (addNode slots.size slots node).size = slots.size + 1 :=
  Draft.size_push ⟨slots, .start, [], #[]⟩ node.location node.content

theorem nodes_addNode (slots : Array Slot) (node : Node) :
    (addNode slots.size slots node).toList.map (·.node) = slots.toList.map (·.node) ++ [node] := by
  apply List.ext_getElem?
  intro x
  rw [List.getElem?_map, Array.getElem?_toList, slots_addNode]
  rcases Nat.lt_trichotomy x slots.size with hlt | rfl | hgt
  · rw [if_neg (Nat.ne_of_lt hlt),
      List.getElem?_append_left (by simpa using hlt), List.getElem?_map, Array.getElem?_toList]
    split
    · cases slots[x]? <;> rfl
    · rfl
  · simp
  · have hlength : (slots.toList.map (·.node) ++ [node]).length ≤ x := by
      rw [List.length_append, List.length_map, Array.length_toList, List.length_singleton]
      exact hgt
    rw [if_neg (Nat.ne_of_gt hgt), Array.getElem?_eq_none (Nat.le_of_lt hgt),
      List.getElem?_eq_none hlength]
    split <;> rfl

theorem Built.push {d : Draft} {content : Content} (h : Built d.slots) (location : Location)
    (hkids : ∀ c ∈ content.children, c < d.slots.size) :
    Built (d.push location content).2.slots := by
  have hslots : (d.push location content).2.slots =
      addNode d.slots.size d.slots ⟨location, content⟩ := rfl
  rw [hslots]
  exact h.add hkids

theorem Built.slot (h : Built slots) {slot : Slot} (hslot : slots[x]? = some slot) :
    slot.live = true ∧ ∀ c ∈ slot.node.children, c < x := by
  induction h generalizing slot with
  | empty => simp at hslot
  | @add slots node _ hkids ih =>
    rw [slots_addNode] at hslot
    split at hslot
    · rename_i hx
      cases hslot
      rw [hx]
      exact ⟨rfl, hkids⟩
    · split at hslot
      · obtain ⟨old, hold, rfl⟩ := Option.map_eq_some_iff.mp hslot
        obtain ⟨hlive, hlt⟩ := ih hold
        exact ⟨hlive, hlt⟩
      · exact ih hslot

theorem Built.ofNodes (h : Built slots) (hsize : slots.size < UInt32.size) :
    (NarrowTable.ofNodes (slots.toList.map (·.node))).slots = slots ∧
      (NarrowTable.ofNodes (slots.toList.map (·.node))).ids.map UInt32.toNat =
        List.range slots.size := by
  induction h with
  | empty => exact ⟨rfl, rfl⟩
  | @add slots node _ _ ih =>
    -- The node that was added last got the size of the table as its id, which is not clamped.
    rw [size_addNode] at hsize ⊢
    obtain ⟨hslots, hids⟩ := ih (by omega)
    have hid : (UInt32.ofNatClamp slots.size).toNat = slots.size :=
      UInt32.toNat_ofNatClamp_of_lt (by omega)
    rw [nodes_addNode, NarrowTable.ofNodes, List.foldl_append, ← NarrowTable.ofNodes]
    simp only [List.foldl_cons, List.foldl_nil, NarrowTable.add, hslots, hid,
      List.map_append, hids, List.map_cons, List.map_nil, List.range_succ, and_self]

end Tables

/-! ## The price of a tag -/

/-- From `d` on, at most `price` nodes were added and `d'` was reached. The nodes `ids` are in its
table. -/
structure Spent (d d' : Draft) (ids : List NodeId) (price : Nat) : Prop where
  built : Built d'.slots
  grows : d.slots.size ≤ d'.slots.size
  size : d'.slots.size ≤ d.slots.size + price
  ids : ∀ x ∈ ids, x < d'.slots.size
  openElements : d'.openElements = d.openElements
  top : d'.top = d.top

/-- The step adds at most `price` nodes, and the nodes of its result are in the table. -/
def Spends {α : Type} (step : Layout α) (ids : α → List NodeId) (price : Nat) : Prop :=
  ∀ d : Draft, Built d.slots → Spent d (step d).2 (ids (step d).1) price

namespace Spent

variable {d d' : Draft} {ids : List NodeId} {price : Nat}

theorem refl (h : Built d.slots) : Spent d d [] 0 :=
  ⟨h, Nat.le_refl _, Nat.le_refl _, by simp, rfl, rfl⟩

theorem mono {price' : Nat} (h : Spent d d' ids price) (hle : price ≤ price') :
    Spent d d' ids price' :=
  { h with size := Nat.le_trans h.size (Nat.add_le_add_left hle _) }

theorem id_lt {id : NodeId} (h : Spent d d' [id] price) : id < d'.slots.size :=
  h.ids id (List.mem_singleton.mpr rfl)

theorem next {α : Type} {step : Layout α} {more : α → List NodeId} {price' : Nat}
    (h : Spent d d' ids price) (hstep : Spends step more price') :
    Spent d (step d').2 (ids ++ more (step d').1) (price + price') := by
  have h' := hstep d' h.built
  have hgrows := h.grows
  have hgrows' := h'.grows
  have hsize := h.size
  have hsize' := h'.size
  refine ⟨h'.built, by omega, by omega, fun x hx => ?_,
    h'.openElements.trans h.openElements, h'.top.trans h.top⟩
  rcases List.mem_append.mp hx with hx | hx
  · exact Nat.lt_of_lt_of_le (h.ids x hx) hgrows'
  · exact h'.ids x hx

theorem push {content : Content} (h : Spent d d' ids price) (location : Location)
    (hkids : content.children ⊆ ids) :
    Spent d (d'.push location content).2 [(d'.push location content).1] (price + 1) := by
  have hgrows := h.grows
  have hsize := h.size
  have hpush := d'.size_push location content
  refine ⟨h.built.push location fun c hc => h.ids c (hkids hc), by omega, by omega, ?_,
    h.openElements, h.top⟩
  intro x hx
  obtain rfl := List.mem_singleton.mp hx
  rw [hpush]
  exact Nat.lt_succ_self _

end Spent

theorem Spends.mono {α : Type} {step : Layout α} {ids : α → List NodeId} {price price' : Nat}
    (h : Spends step ids price) (hle : price ≤ price') :
    Spends step ids price' := fun d hd => (h d hd).mono hle

namespace Layout

theorem spends_token (text : List Char) : Spends (token text) (fun _ => []) 0 :=
  fun _ h => ⟨h, Nat.le_refl _, Nat.le_refl _, by simp, rfl, rfl⟩

theorem spends_erb (e : Erb) : Spends (erb e) (fun id => [id]) 1 := by
  intro d h
  have hparts :=
    (((Spent.refl h).next (spends_token e.opening.text)).next (spends_token e.content)).next
    (spends_token e.closing)
  exact hparts.push _ (List.nil_subset _)

theorem spends_valuePart (part : ValuePart) : Spends (valuePart part) (fun id => [id]) 1 := by
  cases part with
  | literal text =>
    intro d h
    exact ((Spent.refl h).next (spends_token text)).push _ (List.nil_subset _)
  | erb e => exact spends_erb e

theorem spends_valueParts {parts : List ValuePart} (h : ∀ part ∈ parts, part.text ≠ []) :
    Spends (valueParts parts) (fun ids => ids) (parts.flatMap ValuePart.text).length := by
  induction parts with
  | nil => exact fun _ hd => .refl hd
  | cons part rest ih =>
    intro d hd
    have hlength := List.length_pos_iff.mpr (h part List.mem_cons_self)
    have hfirst := (Spent.refl hd).next (spends_valuePart part)
    have hall := hfirst.next (ih fun part hpart => h part (List.mem_cons_of_mem _ hpart))
    rw [List.flatMap_cons, List.length_append]
    exact hall.mono (by omega)

theorem spends_quoteMark (quote : Option Quote) : Spends (quoteMark quote) (fun _ => []) 0 := by
  cases quote with
  | none => exact fun _ h => .refl h
  | some quote => exact spends_token [quote.char]

theorem spends_value {v : Value} {next : Option Char} (h : v.Fits next) :
    Spends (value v) (fun id => [id]) (v.text.length + 1) := by
  -- A value costs one node more than its text pays for, as it may be empty.
  intro d hd
  obtain ⟨ok, hparts⟩ := h.exists_parts
  have hne : ∀ part ∈ v.parts, part.text ≠ [] := by
    intro part hpart
    have hpart := hparts.single hpart
    cases part with
    | literal t => exact hpart.isLiteral.ne_nil
    | erb e => exact e.text_ne_nil
  have hall := (((Spent.refl hd).next (spends_quoteMark v.quote)).next (spends_valueParts hne)).next
    (spends_quoteMark v.quote)
  rw [List.append_nil] at hall
  refine (hall.push _ (List.Subset.refl _)).mono ?_
  simp only [Value.text, List.length_append]
  omega

theorem spends_attr {a : Attribute} {next : Option Char} (h : a.Fits next) :
    Spends (attr a) (fun id => [id]) a.text.length := by
  -- The equals sign pays for the value.
  intro d hd
  obtain ⟨hname, hvalue⟩ := h
  have hlength := List.length_pos_iff.mpr hname.1
  have hfirst := (Spent.refl hd).next (spends_token a.name)
  rw [attr, Attribute.text]
  cases hv : a.value with
  | none => exact (hfirst.push _ (List.nil_subset _)).mono hlength
  | some v =>
    rw [hv] at hvalue
    have hall := (hfirst.next (spends_token ['='])).next (spends_value hvalue)
    refine (hall.push _ (List.Subset.refl _)).mono ?_
    simp only [List.length_append, List.length_cons]
    omega

theorem spends_tagPart (keep : Bool) {part : TagPart} {next : Option Char} (h : part.Fits next) :
    Spends (tagPart keep part) (fun ids => ids) part.text.length := by
  -- A blank pays for its node, whether it gets one or not.
  cases part with
  | blank text =>
    intro d hd
    have hlength := List.length_pos_iff.mpr h.1
    have hblank := (Spent.refl hd).next (spends_token text)
    cases keep with
    | true => exact (hblank.push _ (List.nil_subset _)).mono hlength
    | false => exact hblank.mono (Nat.zero_le _)
  | erb e =>
    have hlength := List.length_pos_iff.mpr e.text_ne_nil
    exact (spends_erb e).mono hlength
  | attr a => exact spends_attr h.1

theorem spends_tagParts (keep : Bool) {parts : List TagPart} {closes : Bool}
    (h : Chained closes parts) :
    Spends (tagParts keep parts) (fun ids => ids) (parts.flatMap TagPart.text).length := by
  induction parts with
  | nil => exact fun _ hd => .refl hd
  | cons part rest ih =>
    intro d hd
    have hall := ((Spent.refl hd).next (spends_tagPart keep h.1)).next (ih h.2)
    rw [Nat.zero_add, ← List.length_append, ← List.flatMap_cons] at hall
    exact hall

theorem spends_openTag (keep : Bool) {t : OpenTag} (h : t.Fits) :
    ∃ price, Spends (openTag keep t) (fun id => [id]) price ∧ price + 2 ≤ t.text.length := by
  -- The tag leaves two of its characters unspent at least; one of them pays for its element.
  obtain ⟨c, rest, hname, -⟩ := h.name.1
  refine ⟨(t.parts.flatMap TagPart.text).length + 1, fun d hd => ?_, ?_⟩
  · have hall := ((((Spent.refl hd).next (spends_token ['<'])).next (spends_token t.name)).next
      (spends_tagParts keep h.chained)).next (spends_token t.closing)
    rw [List.append_nil] at hall
    exact (hall.push _ (List.Subset.refl _)).mono (by omega)
  · have hclosing : 0 < t.closing.length := by
      unfold OpenTag.closing
      split <;> simp
    simp only [OpenTag.text, hname, List.length_cons, List.length_append]
    omega

theorem spends_closeTag (t : CloseTag) : Spends (closeTag t) (fun id => [id]) 1 := by
  intro d hd
  have hall := ((((Spent.refl hd).next (spends_token ['<', '/'])).next (spends_token t.name)).next
    (spends_token t.trailing)).next (spends_token ['>'])
  exact hall.push _ (List.nil_subset _)

end Layout

/-! ## The price of a document -/

/-- The `n` characters so far have paid for all nodes and for one more for each open element. -/
structure Draft.Paid (d : Draft) (n : Nat) : Prop where
  built : Built d.slots
  top : ∀ x ∈ d.top.toList, x < d.slots.size
  openElements : ∀ e ∈ d.openElements, ∀ x ∈ e.openTag :: e.body.toList, x < d.slots.size
  size : d.slots.size + d.openElements.length ≤ n

namespace Draft.Paid

variable {d d' : Draft} {n price : Nat} {ids : List NodeId} {id : NodeId}

theorem empty : Draft.empty.Paid 0 :=
  ⟨.empty, by simp [Draft.empty], by simp [Draft.empty], Nat.le_refl _⟩

theorem mono {m : Nat} (h : d.Paid n) (hle : n ≤ m) : d.Paid m :=
  { h with size := Nat.le_trans h.size hle }

theorem spent (h : d.Paid n) (hs : Spent d d' ids price) : d'.Paid (n + price) := by
  have hsize := h.size
  have hsize' := hs.size
  refine ⟨hs.built, ?_, ?_, ?_⟩
  · rw [hs.top]
    exact fun x hx => Nat.lt_of_lt_of_le (h.top x hx) hs.grows
  · rw [hs.openElements]
    exact fun e he x hx => Nat.lt_of_lt_of_le (h.openElements e he x hx) hs.grows
  · rw [hs.openElements]
    omega

theorem attach (h : d.Paid n) (hid : id < d.slots.size) : (d.attach id).Paid n := by
  have hsize := h.size
  unfold Draft.attach
  split
  · rename_i inner outer hopen
    have hold := h.openElements
    rw [hopen] at hsize hold
    refine ⟨h.built, h.top, ?_, hsize⟩
    intro e he x hx
    rcases List.mem_cons.mp he with rfl | he
    · rw [Array.toList_push, ← List.cons_append, List.mem_append, List.mem_singleton] at hx
      rcases hx with hx | rfl
      · exact hold inner List.mem_cons_self x hx
      · exact hid
    · exact hold e (List.mem_cons_of_mem _ he) x hx
  · refine ⟨h.built, ?_, h.openElements, hsize⟩
    intro x hx
    rw [Array.toList_push, List.mem_append, List.mem_singleton] at hx
    rcases hx with hx | rfl
    · exact h.top x hx
    · exact hid

theorem laid (step : Layout NodeId) (h : d.Paid n) (hstep : Spends step (fun id => [id]) price) :
    ((step d).2.attach (step d).1).Paid (n + price) := by
  have hs := hstep d h.built
  exact (h.spent hs).attach hs.id_lt

theorem endElement {e : OpenElement} {outer : List OpenElement} {inner : Array NodeId}
    (h : ({ d with openElements := e :: outer } : Draft).Paid n)
    (hinner : ∀ x ∈ inner.toList, x < d.slots.size) (tag : Option NodeId)
    (htag : ∀ x ∈ tag.toList, x < d.slots.size) (location : Location) :
    let ended := d.push location (.element e.openTag (e.body ++ inner).toList tag false)
    ({ ended.2 with openElements := outer } : Draft).Paid n ∧ ∀ x ∈ [ended.1],
      x < ended.2.slots.size := by
  intro ended
  have hgrows : ended.2.slots.size = d.slots.size + 1 := d.size_push _ _
  have hsize := h.size
  have hown := h.openElements e List.mem_cons_self
  have hkids (x : NodeId) (hx : x ∈ (e.openTag :: (e.body ++ inner).toList) ++ tag.toList) :
      x < d.slots.size := by
    rw [Array.toList_append, ← List.cons_append, List.mem_append, List.mem_append] at hx
    rcases hx with (hx | hx) | hx
    · exact hown x hx
    · exact hinner x hx
    · exact htag x hx
  have hbuilt : Built d.slots := h.built
  refine ⟨⟨hbuilt.push location hkids, fun x hx => ?_, fun f hf x hx => ?_, ?_⟩, ?_⟩
  · exact hgrows ▸ Nat.lt_succ_of_lt (h.top x hx)
  · exact hgrows ▸ Nat.lt_succ_of_lt (h.openElements f (List.mem_cons_of_mem _ hf) x hx)
  · simp only [List.length_cons] at hsize
    simp only [hgrows]
    omega
  · intro x hx
    rw [hgrows, List.mem_singleton.mp hx]
    exact Nat.lt_succ_self _

theorem topped {inner : Array NodeId} (h : ({ d with openElements := [] } : Draft).Paid n)
    (hinner : ∀ x ∈ inner.toList, x < d.slots.size) :
    ({ d with openElements := [], top := d.top ++ inner } : Draft).Paid n := by
  refine { h with top := fun x hx => ?_ }
  rw [Array.toList_append, List.mem_append] at hx
  rcases hx with hx | hx
  · exact h.top x hx
  · exact hinner x hx

end Draft.Paid

theorem Markup.Piece.Stands.source_ne_nil {open_ : Nesting} {p : Piece} {rest : List Piece}
    (h : p.Stands open_ rest) :
    p.source ≠ [] := by
  cases p with
  | text t => exact h.1.ne_nil
  | _ => exact h.1.source_ne_nil

namespace Layout

variable {keep : Bool} {d : Draft} {n : Nat}

theorem paid_beginElement {t : OpenTag} {start : Position} {tag : NodeId} (h : d.Paid n)
    (htag : tag < d.slots.size) :
    (beginElement t start tag d).2.Paid (n + 1) := by
  unfold beginElement
  split
  · refine ⟨h.built, h.top, fun e he x hx => ?_, Nat.succ_le_succ h.size⟩
    rcases List.mem_cons.mp he with rfl | he
    · obtain rfl := List.mem_singleton.mp hx
      exact htag
    · exact h.openElements e he x hx
  · have htagged : Spent d d [tag] 0 := { Spent.refl h.built with ids := by simpa using htag }
    have hs : Spent d (node start (.element tag [] none t.isVoid) d).2 _ 1 :=
      htagged.push _ (List.Subset.refl _)
    exact (h.spent hs).attach hs.id_lt

theorem paid_endElements {name : List Char} {tag : NodeId} {before : Position}
    (frames : List OpenElement) {inner : Array NodeId}
    (h : ({ d with openElements := frames } : Draft).Paid n)
    (hinner : ∀ x ∈ inner.toList, x < d.slots.size) (htag : tag < d.slots.size) :
    (endElements name tag before inner frames d).2.Paid n := by
  -- `frames` are the elements that are open still, `inner` those inside them that were just ended.
  induction frames generalizing d inner with
  | nil => exact h.topped hinner
  | cons e outer ih =>
    rw [endElements]
    split
    · -- The element of this name takes the close tag, which has paid for itself.
      obtain ⟨hended, hid⟩ := h.endElement hinner (some tag) (by simpa using htag) ⟨e.start, d.here⟩
      exact hended.attach (hid _ (List.mem_singleton.mpr rfl))
    · obtain ⟨hended, hid⟩ := h.endElement hinner none (by simp) ⟨e.start, before⟩
      exact ih hended hid (Nat.lt_trans htag (hid _ (List.mem_singleton.mpr rfl)))

theorem paid_endByTag {t : CloseTag} (h : d.Paid n) :
    (endByTag t d.here (closeTag t d).1 (closeTag t d).2).2.Paid (n + 1) := by
  have hs := spends_closeTag t d h.built
  change (if _ then _ else _ : Layout Unit) _ |>.2.Paid _
  split
  · exact paid_endElements _ (h.spent hs) (by simp) hs.id_lt
  · exact (h.spent hs).attach hs.id_lt

theorem paid_endAll (frames : List OpenElement) {inner : Array NodeId}
    (h : ({ d with openElements := frames } : Draft).Paid n)
    (hinner : ∀ x ∈ inner.toList, x < d.slots.size) :
    (endAll inner frames d).2.Paid n := by
  induction frames generalizing d inner with
  | nil => exact h.topped hinner
  | cons e outer ih =>
    obtain ⟨hended, hid⟩ := h.endElement hinner none (by simp) ⟨e.start, d.here⟩
    exact ih hended hid

theorem paid_threeParts {opening content closing : List Char}
    {make : Token → Token → Token → Content}
    (hmake : ∀ a b c, (make a b c).children = []) (h : d.Paid n) :
    (threeParts opening content closing make d).2.Paid (n + 1) := by
  refine Draft.Paid.laid (do
    let start ← here
    let first ← token opening
    let middle ← token content
    let last ← token closing
    node start (make first middle last)) h ?_
  intro d hd
  have hparts := (((Spent.refl hd).next (spends_token opening)).next (spends_token content)).next
    (spends_token closing)
  exact hparts.push _ (by simp [hmake])

theorem paid_piece (h : d.Paid n) {open_ : Nesting} {p : Piece} {rest : List Piece}
    (hp : p.Stands open_ rest) :
    (piece keep p d).2.Paid (n + p.source.length) := by
  have hone : n + 1 ≤ n + p.source.length :=
    Nat.add_le_add_left (List.length_pos_iff.mpr hp.source_ne_nil) n
  cases p with
  | text content =>
    refine (Draft.Paid.laid
      (do let start ← here; let t ← token content; node start (.text t)) h ?_).mono hone
    exact fun d hd => ((Spent.refl hd).next (spends_token content)).push _ (List.nil_subset _)
  | erb e => exact (Draft.Paid.laid (erb e) h (spends_erb e)).mono hone
  | comment content => exact (paid_threeParts (fun _ _ _ => rfl) h).mono hone
  | doctype content => exact (paid_threeParts (fun _ _ _ => rfl) h).mono hone
  | openTag t =>
    obtain ⟨price, hprice, hle⟩ := spends_openTag keep hp.1
    have hs := hprice d h.built
    refine (paid_beginElement (h.spent hs) hs.id_lt).mono ?_
    simp only [Piece.source]
    omega
  | closeTag t => exact (paid_endByTag h).mono hone

theorem paid_pieces {open_ : Nesting} {ps : List Piece} (h : d.Paid n) (hps : Readable open_ ps) :
    (pieces keep ps d).2.Paid (n + (ps.flatMap Piece.source).length) := by
  induction ps generalizing d n open_ with
  | nil => exact h
  | cons p rest ih =>
    rw [List.flatMap_cons, List.length_append, ← Nat.add_assoc]
    exact ih (paid_piece h hps.1) hps.2

end Layout

/-- The table of a document is built, its last node is the root, and the text has paid for all
others. -/
theorem built_ofPieces (keep : Bool) {ps : List Piece} (h : Readable [] ps) :
    Built (Document.ofPieces keep ps).slots ∧
      (Document.ofPieces keep ps).root + 1 = (Document.ofPieces keep ps).slots.size ∧
      (Document.ofPieces keep ps).slots.size ≤ (ps.flatMap Piece.source).length + 1 := by
  have hpieces : (Layout.pieces keep ps Draft.empty).2.Paid _ :=
    Layout.paid_pieces Draft.Paid.empty h
  have hend : (Draft.ofPieces keep ps).Paid _ := Layout.paid_endAll _ hpieces (by simp)
  have hgrows : (Draft.ofPieces keep ps).addRoot.2.slots.size = _ := Draft.size_push _ _ _
  have hsize := hend.size
  rw [Document.ofPieces_eq_view]
  refine ⟨hend.built.push _ hend.top, hgrows.symm, ?_⟩
  simp only [Draft.view, hgrows]
  omega

/-- A parsed document has at most one node more than its source has characters, each under its own
id. -/
theorem parse_ids {source : String} {keepBlanks : Bool} {d : Document}
    (h : Document.parse source keepBlanks = .ok d) :
    d.slots.size ≤ source.length + 1 ∧
    (∀ (x : NodeId) (slot : Slot), d.slots[x]? = some slot → slot.live = true ∧
      ∀ c ∈ slot.node.children, c < x) ∧
    d.root + 1 = d.slots.size ∧
    (source.length < UInt32.size - 1 →
      let narrow := NarrowTable.ofNodes (d.slots.toList.map (·.node))
      narrow.slots = d.slots ∧ narrow.ids.map UInt32.toNat = List.range d.slots.size ∧
      narrow.ids.Nodup) := by
  obtain ⟨ps, hread, rfl⟩ := exists_readPieces_of_parse h
  obtain ⟨hbuilt, hroot, hsize⟩ := built_ofPieces keepBlanks (readable_of_readPieces hread)
  rw [source_readPieces hread, String.length_toList] at hsize
  refine ⟨hsize, fun x slot hslot => hbuilt.slot hslot, hroot, fun hshort => ?_⟩
  have hfits : (Document.ofPieces keepBlanks ps).slots.size < UInt32.size :=
    Nat.lt_of_le_of_lt hsize (Nat.add_lt_of_lt_sub hshort)
  obtain ⟨hslots, hids⟩ := hbuilt.ofNodes hfits
  refine ⟨hslots, hids, List.Nodup.of_map UInt32.toNat ?_⟩
  rw [hids]
  exact List.nodup_range

/-- Stray marks, values without parts, and elements that are ended by an outer one and by the end of
the text. -/
theorem parse_ids_stray_marks : ∃ d, Document.parse "<p><a == /x=><b><br></a>" false = .ok d ∧
    d.slots.size = 15 ∧ d.slots.size ≤ 25 ∧ d.root + 1 = d.slots.size ∧
    (NarrowTable.ofNodes (d.slots.toList.map (·.node))).slots = d.slots := by
  have hok : (Document.parse "<p><a == /x=><b><br></a>" false).toOption.any
      (·.slots.size == 15) = true := by
    decide +kernel
  obtain ⟨d, hd, hsize⟩ := exists_ok_of_any hok
  obtain ⟨hbound, -, hroot, hnarrow⟩ := parse_ids hd
  exact ⟨d, hd, by simpa using hsize, hbound, hroot, (hnarrow (by decide +kernel)).1⟩

end TemplateLint
