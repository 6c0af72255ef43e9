import TemplateLint.Proofs.Growth
import Mathlib.Data.List.Basic

/-!
# Documents without some nodes

Nodes can be taken out of a document. The others stay in their order and are numbered anew, so the
result is what would have come of laying out the others alone. Main statements: how a document with
one more node is pruned (`PrunesTo.grow`, `PrunesTo.grow_gone`).
-/

namespace TemplateLint

/-! ## Places -/

def Location.relocate (move : Position → Position) (l : Location) : Location :=
  ⟨move l.start, move l.stop⟩

def Token.relocate (move : Position → Position) (t : Token) : Token :=
  { t with location := t.location.relocate move }

namespace Content

def relocate (move : Position → Position) : Content → Content
  | openTag opening name children closing =>
    openTag (opening.relocate move) (name.relocate move) children (closing.relocate move)
  | closeTag opening name trailing closing =>
    closeTag (opening.relocate move) (name.relocate move) (trailing.map (·.relocate move))
      (closing.relocate move)
  | attr name equals value => attr (name.relocate move) (equals.map (·.relocate move)) value
  | attrValue openQuote children closeQuote =>
    attrValue (openQuote.map (·.relocate move)) children (closeQuote.map (·.relocate move))
  | literal content => literal (content.relocate move)
  | text content => text (content.relocate move)
  | whitespace content => whitespace (content.relocate move)
  | erb opening content closing =>
    erb (opening.relocate move) (content.relocate move) (closing.relocate move)
  | comment opening content closing =>
    comment (opening.relocate move) (content.relocate move) (closing.relocate move)
  | doctype opening content closing =>
    doctype (opening.relocate move) (content.relocate move) (closing.relocate move)
  | inner => inner

@[simp] theorem children_relocate (move : Position → Position) (c : Content) :
    (c.relocate move).children = c.children := by
  cases c <;> rfl

@[simp] theorem relocate_id (c : Content) : c.relocate (fun p => p) = c := by
  cases c <;> simp [relocate, Token.relocate, Location.relocate]

end Content

/-! ## Names -/

def Token.mapChars (f : List Char → List Char) (t : Token) : Token :=
  { t with text := String.ofList (f t.chars) }

def Content.mapName (f : List Char → List Char) : Content → Content
  | openTag opening name children closing => openTag opening (name.mapChars f) children closing
  | closeTag opening name trailing closing => closeTag opening (name.mapChars f) trailing closing
  | inner => inner

@[simp] theorem Content.mapName_id (c : Content) : c.mapName (fun name => name) = c := by
  cases c <;> simp [mapName, Token.mapChars, Token.chars]

/-! ## Documents seen from afar -/

/-- The slot with its node at another place and with what `look` leaves of the content. -/
def Slot.seen (move : Position → Position) (look : Content → Content) (s : Slot) : Slot :=
  { s with node := ⟨s.node.location.relocate move, look s.node.content⟩ }

def Document.seen (move : Position → Position) (look : Content → Content)
    (d : Document) : Document :=
  { d with slots := d.slots.map (·.seen move look) }

@[simp] theorem Document.seen_id (d : Document) : d.seen (fun p => p) (fun c => c) = d := by
  simp [seen, Slot.seen, Location.relocate]

/-- The document with all its nodes and tokens at one place. -/
def Document.unplaced (d : Document) : Document :=
  d.seen (fun _ => .start) (Content.relocate fun _ => .start)

/-! ## Pruning -/

/-- The content with new ids, without children that have none; an attribute without a value has no
equals sign. -/
def Content.prune (newId? : NodeId → Option NodeId) : Content → Content
  | document children => document (children.filterMap newId?)
  | element first body last isVoid =>
    element ((newId? first).getD first) (body.filterMap newId?) (last.bind newId?) isVoid
  | openTag opening name children closing =>
    openTag opening name (children.filterMap newId?) closing
  | attr name equals (some value) =>
    match newId? value with
    | some value => attr name equals (some value)
    | none => attr name none none
  | attrValue openQuote children closeQuote =>
    attrValue openQuote (children.filterMap newId?) closeQuote
  | leaf => leaf

def Slot.prune (newId? : NodeId → Option NodeId) (s : Slot) : Slot :=
  { s with
    node := { s.node with content := s.node.content.prune newId? }
    parent := s.parent.bind newId? }

namespace Document

/-- Whether there is a node of this id that stays when nodes with `gone` are taken out. -/
def isKept (gone : NodeId → Content → Bool) (d : Document) (id : NodeId) : Bool :=
  d.slots[id]?.any fun slot => !gone id slot.node.content

def keptBefore (gone : NodeId → Content → Bool) (d : Document) (id : NodeId) : Nat :=
  (List.range id).countP (d.isKept gone)

/-- The id that a node has when nodes with `gone` are taken out. -/
def newId? (gone : NodeId → Content → Bool) (d : Document) (id : NodeId) : Option NodeId :=
  if d.isKept gone id then some (d.keptBefore gone id) else none

def prunedSlot? (gone : NodeId → Content → Bool) (d : Document) (id : NodeId) : Option Slot :=
  if d.isKept gone id then d.slots[id]?.map (·.prune (d.newId? gone)) else none

/-- The document without the nodes with `gone`. -/
def prune (gone : NodeId → Content → Bool) (d : Document) : Document :=
  { slots := ((List.range d.slots.size).filterMap (d.prunedSlot? gone)).toArray
    root := (d.newId? gone d.root).getD d.root }

/-! ## New ids -/

variable {gone : NodeId → Content → Bool} {d d' : Document} {x y i : Nat}

theorem isKept_iff : d.isKept gone x = true ↔ ∃ slot, d.slots[x]? = some slot ∧
    gone x slot.node.content = false := by
  rw [isKept]
  cases d.slots[x]? <;> simp

theorem lt_size_of_isKept (h : d.isKept gone x = true) : x < d.slots.size := by
  obtain ⟨slot, hslot, -⟩ := isKept_iff.mp h
  exact (Array.getElem?_eq_some_iff.mp hslot).1

theorem newId?_eq_some_iff : d.newId? gone x = some i ↔ d.isKept gone x = true ∧
    d.keptBefore gone x = i := by
  rw [newId?]
  split <;> simp_all

theorem newId?_of_isKept (h : d.isKept gone x = true) :
    d.newId? gone x = some (d.keptBefore gone x) := if_pos h

theorem lt_size_of_newId? (h : d.newId? gone x = some i) : x < d.slots.size :=
  lt_size_of_isKept (newId?_eq_some_iff.mp h).1

theorem keptBefore_mono (h : x ≤ y) : d.keptBefore gone x ≤ d.keptBefore gone y :=
  (List.range_sublist.mpr h).countP_le

theorem keptBefore_succ (d : Document) (x : NodeId) :
    d.keptBefore gone (x + 1) = d.keptBefore gone x + if d.isKept gone x then 1 else 0 := by
  rw [keptBefore, List.range_succ, List.countP_append, List.countP_singleton]
  rfl

theorem keptBefore_lt (h : d.isKept gone x = true) (hlt : x < y) :
    d.keptBefore gone x < d.keptBefore gone y := by
  have hle : d.keptBefore gone (x + 1) ≤ d.keptBefore gone y := keptBefore_mono hlt
  rw [keptBefore_succ, if_pos h] at hle
  omega

theorem newId?_inj (hx : d.newId? gone x = some i) (hy : d.newId? gone y = some i) : x = y := by
  obtain ⟨hx, hxi⟩ := newId?_eq_some_iff.mp hx
  obtain ⟨hy, hyi⟩ := newId?_eq_some_iff.mp hy
  rcases Nat.lt_trichotomy x y with hlt | heq | hgt
  · have := keptBefore_lt hx hlt
    omega
  · exact heq
  · have := keptBefore_lt hy hgt
    omega

theorem exists_keptBefore_eq {n : Nat} (h : i < d.keptBefore gone n) :
    ∃ x < n, d.isKept gone x = true ∧ d.keptBefore gone x = i := by
  induction n with
  | zero => simp [keptBefore] at h
  | succ n ih =>
    by_cases hi : i < d.keptBefore gone n
    · obtain ⟨x, hx, hkept, hxi⟩ := ih hi
      exact ⟨x, by omega, hkept, hxi⟩
    · cases hkept : d.isKept gone n with
      | true =>
        simp only [keptBefore_succ, hkept, if_true] at h
        exact ⟨n, Nat.lt_succ_self n, hkept, by omega⟩
      | false =>
        simp only [keptBefore_succ, hkept, Bool.false_eq_true, if_false, Nat.add_zero] at h
        exact absurd h hi

theorem length_prunedSlots (gone : NodeId → Content → Bool) (d : Document) (n : Nat) :
    ((List.range n).filterMap (d.prunedSlot? gone)).length = d.keptBefore gone n := by
  rw [List.length_filterMap_eq_countP, keptBefore]
  apply List.countP_congr
  intro x _
  rw [prunedSlot?]
  split
  · rename_i hkept
    obtain ⟨slot, hslot, -⟩ := isKept_iff.mp hkept
    simp [hkept, hslot]
  · rename_i hgone
    simp [hgone]

theorem size_prune (gone : NodeId → Content → Bool) (d : Document) :
    (d.prune gone).slots.size = d.keptBefore gone d.slots.size := by
  rw [prune, List.size_toArray, length_prunedSlots]

theorem slots_prune (h : d.isKept gone x = true) :
    (d.prune gone).slots[d.keptBefore gone x]? = d.slots[x]?.map (·.prune (d.newId? gone)) := by
  have hlt := lt_size_of_isKept h
  obtain ⟨slot, hslot, -⟩ := isKept_iff.mp h
  have hself : d.prunedSlot? gone x = some (slot.prune (d.newId? gone)) := by
    rw [prunedSlot?, if_pos h, hslot, Option.map_some]
  have hsplit : List.range d.slots.size = List.range x ++
      x :: (List.range d.slots.size).drop (x + 1) := by
    conv_lhs => rw [← List.take_append_drop x (List.range d.slots.size)]
    rw [List.take_range, Nat.min_eq_left (Nat.le_of_lt hlt),
      List.drop_eq_getElem_cons (by simpa using hlt), List.getElem_range]
  rw [prune, List.getElem?_toArray, hsplit, List.filterMap_append, ← length_prunedSlots,
    List.getElem?_append_right (Nat.le_refl _), Nat.sub_self, List.filterMap_cons_some hself, hslot]
  rfl

/-! ## Documents that grow -/

/-- The nodes of the first document are in the second, the live ones live. -/
structure Within (d d' : Document) : Prop where
  size : d.slots.size ≤ d'.slots.size
  kept : ∀ x < d.slots.size,
    d'.slots[x]?.map (fun slot => (slot.node, slot.live)) = d.slots[x]?.map fun slot =>
      (slot.node, slot.live)

namespace Within

theorem refl (d : Document) : d.Within d := ⟨Nat.le_refl _, fun _ _ => rfl⟩

theorem trans {d'' : Document} (h : d.Within d') (h' : d'.Within d'') : d.Within d'' :=
  ⟨Nat.le_trans h.size h'.size, fun x hx =>
    (h'.kept x (Nat.lt_of_lt_of_le hx h.size)).trans (h.kept x hx)⟩

theorem node (h : d.Within d') (hx : x < d.slots.size) :
    d'.slots[x]?.map (·.node) = d.slots[x]?.map (·.node) := by
  have hkept := congrArg (Option.map Prod.fst) (h.kept x hx)
  rwa [Option.map_map, Option.map_map] at hkept

theorem isKept_eq (h : d.Within d') (hx : x < d.slots.size) :
    d'.isKept gone x = d.isKept gone x := by
  have hnode := h.node hx
  rw [isKept, isKept]
  cases hslot : d.slots[x]? <;> cases hslot' : d'.slots[x]? <;> simp_all

theorem keptBefore_eq (h : d.Within d') (hx : x ≤ d.slots.size) :
    d'.keptBefore gone x = d.keptBefore gone x := by
  apply List.countP_congr
  intro y hy
  rw [h.isKept_eq (Nat.lt_of_lt_of_le (List.mem_range.mp hy) hx)]

theorem newId?_eq (h : d.Within d') (hx : x < d.slots.size) :
    d'.newId? gone x = d.newId? gone x := by
  rw [newId?, newId?, h.isKept_eq hx, h.keptBefore_eq (Nat.le_of_lt hx)]

end Within

theorem Grows.within {node : Node} (h : d.Grows d' node) : d.Within d' := by
  refine ⟨by rw [h.size]; omega, fun x hx => ?_⟩
  rw [h.slots, if_neg (Nat.ne_of_lt hx)]
  split
  · cases d.slots[x]? <;> rfl
  · rfl

end Document

theorem Content.prune_congr {newId newId' : NodeId → Option NodeId} {c : Content}
    (h : ∀ x ∈ c.children, newId' x = newId x) : c.prune newId' = c.prune newId := by
  cases c with
  | document children => exact congrArg _ (List.filterMap_congr h)
  | element first body last isVoid =>
    simp only [children, List.cons_append, List.mem_cons, List.mem_append, Option.mem_toList] at h
    have hlast : last.bind newId' = last.bind newId := by
      cases last with
      | none => rfl
      | some last => exact h last (.inr (.inr rfl))
    simp only [prune, h first (.inl rfl), List.filterMap_congr fun x hx =>
      h x (.inr (.inl hx)), hlast]
  | openTag opening name children closing =>
    exact congrArg (openTag opening name · closing) (List.filterMap_congr h)
  | attr name equals value =>
    cases value with
    | none => rfl
    | some value => simp only [prune, h value (by simp [children])]
  | attrValue openQuote children closeQuote =>
    exact congrArg (attrValue openQuote · closeQuote) (List.filterMap_congr h)
  | _ => rfl

/-- All nodes are live, and the children and the parents that their slots name are in the table. -/
def Document.Tabled (d : Document) : Prop :=
  ∀ (x : NodeId) (slot : Slot), d.slots[x]? = some slot →
    slot.live = true ∧ (∀ c ∈ slot.node.children, c < d.slots.size) ∧
    ∀ p ∈ slot.parent, p < d.slots.size

theorem Document.Tabled.grow {d e : Document} {node : Node} (h : d.Tabled) (hg : d.Grows e node)
    (hkids : ∀ c ∈ node.children, c < d.slots.size) : e.Tabled := by
  intro x slot hslot
  rw [hg.slots] at hslot
  rw [hg.size]
  have hlt {c : NodeId} (hc : c < d.slots.size) : c < d.slots.size + 1 := Nat.lt_succ_of_lt hc
  split at hslot
  · obtain rfl := Option.some.inj hslot
    exact ⟨rfl, fun c hc => hlt (hkids c hc), by simp⟩
  · split at hslot
    · obtain ⟨old, hold, rfl⟩ := Option.map_eq_some_iff.mp hslot
      obtain ⟨hlive, hchildren, -⟩ := h x old hold
      refine ⟨hlive, fun c hc => hlt (hchildren c hc), fun p hp => ?_⟩
      obtain rfl := Option.some.inj hp
      exact Nat.lt_succ_self _
    · obtain ⟨hlive, hchildren, hparent⟩ := h x slot hslot
      exact ⟨hlive, fun c hc => hlt (hchildren c hc), fun p hp => hlt (hparent p hp)⟩

/-- The second document is the first without the nodes with `gone`, as far as `move` and `look`
tell. -/
structure Document.PrunesTo (move : Position → Position) (look : Content → Content)
    (gone : NodeId → Content → Bool) (d d' : Document) : Prop where
  size : d'.slots.size = d.keptBefore gone d.slots.size
  slots : ∀ x, d.isKept gone x = true → d'.slots[d.keptBefore gone x]?.map (·.seen move look) =
    d.slots[x]?.map fun slot => (slot.prune (d.newId? gone)).seen move look
  tabled : d.Tabled

theorem Document.Grows.lt_of_isKept {gone : NodeId → Content → Bool} {d e : Document}
    {node : Node} {x : NodeId} (h : d.Grows e node) (hx : e.isKept gone x = true)
    (hne : x ≠ d.slots.size) : x < d.slots.size := by
  have hlt := lt_size_of_isKept hx
  rw [h.size] at hlt
  exact Nat.lt_of_le_of_ne (Nat.le_of_lt_succ hlt) hne

namespace Document.PrunesTo

variable {move : Position → Position} {look : Content → Content} {gone : NodeId → Content → Bool}
  {d d' e e' : Document} {node node' : Node}

theorem prune_eq (h : d.PrunesTo move look gone d') (hw : d.Within e) {x : NodeId} {slot : Slot}
    (hslot : d.slots[x]? = some slot) :
    slot.prune (e.newId? gone) = slot.prune (d.newId? gone) := by
  obtain ⟨-, hchildren, hparent⟩ := h.tabled x slot hslot
  have hcontent : slot.node.content.prune (e.newId? gone) =
      slot.node.content.prune (d.newId? gone) :=
    Content.prune_congr fun c hc => hw.newId?_eq (hchildren c hc)
  have hbind : slot.parent.bind (e.newId? gone) = slot.parent.bind (d.newId? gone) := by
    cases hp : slot.parent with
    | none => rfl
    | some p => exact hw.newId?_eq (hparent p (by simp [hp]))
  rw [Slot.prune, Slot.prune, hcontent, hbind]

theorem grow (h : d.PrunesTo move look gone d') (hg : d.Grows e node) (hg' : d'.Grows e' node')
    (hkept : gone d.slots.size node.content = false) (hkids : ∀ c ∈ node.children, c < d.slots.size)
    (hlocation : node'.location.relocate move = node.location.relocate move)
    (hcontent : look node'.content = look (node.content.prune (d.newId? gone)))
    (hchildren : node'.children = node.children.filterMap (d.newId? gone)) :
    e.PrunesTo move look gone e' ∧ e.newId? gone d.slots.size = some d'.slots.size := by
  have hw := hg.within
  have hnew : e.isKept gone d.slots.size = true := by
    rw [isKept_iff]
    exact ⟨_, by rw [hg.slots, if_pos rfl], hkept⟩
  have hbefore : e.keptBefore gone d.slots.size = d'.slots.size := by
    rw [hw.keptBefore_eq (Nat.le_refl _), h.size]
  have hnewId : e.newId? gone d.slots.size = some d'.slots.size := by
    rw [newId?_of_isKept hnew, hbefore]
  refine ⟨⟨?_, ?_, h.tabled.grow hg hkids⟩, hnewId⟩
  · rw [hg'.size, hg.size, keptBefore_succ, hbefore, if_pos hnew]
  · intro x hx
    by_cases hself : x = d.slots.size
    · subst hself
      have hprune : node.content.prune (e.newId? gone) = node.content.prune (d.newId? gone) :=
        Content.prune_congr fun c hc => hw.newId?_eq (hkids c hc)
      rw [hbefore, hg'.slots, if_pos rfl, hg.slots, if_pos rfl]
      simp only [Option.map_some, Slot.seen, Slot.prune, hlocation, hcontent,
        hprune, Option.bind_none]
    · have hlt := hg.lt_of_isKept hx hself
      rw [hw.isKept_eq hlt] at hx
      have hid := newId?_of_isKept hx
      have hlt' : d.keptBefore gone x < d'.slots.size := h.size ▸ keptBefore_lt hx hlt
      have hslots := h.slots x hx
      obtain ⟨slot, hslot, -⟩ := isKept_iff.mp hx
      -- The new node adopts on the right what it adopts on the left.
      have hadopted : d.keptBefore gone x ∈ node'.children ↔ x ∈ node.children := by
        rw [hchildren, List.mem_filterMap]
        constructor
        · rintro ⟨y, hy, hyx⟩
          exact newId?_inj hyx hid ▸ hy
        · exact fun hmem => ⟨x, hmem, hid⟩
      rw [hw.keptBefore_eq (Nat.le_of_lt hlt), hg'.slots, if_neg (Nat.ne_of_lt hlt'),
        hg.slots, if_neg hself]
      simp only [hadopted, hslot, Option.map_some] at hslots ⊢
      rw [← h.prune_eq hw hslot] at hslots
      obtain ⟨slot', hslot', hsame⟩ := Option.map_eq_some_iff.mp hslots
      rw [hslot']
      split
      · simp only [Option.map_some, Option.some.injEq, Slot.seen, Slot.prune] at hsame ⊢
        simp only [Slot.mk.injEq] at hsame
        simp only [hsame.1, hsame.2.2, Option.bind_some, hnewId]
      · exact congrArg some hsame

theorem grow_gone (h : d.PrunesTo move look gone d') (hg : d.Grows e node)
    (hgone : gone d.slots.size node.content = true) (hkids : ∀ c ∈ node.children, c < d.slots.size ∧
      d.newId? gone c = none) : e.PrunesTo move look gone d' := by
  have hw := hg.within
  have hnew : e.isKept gone d.slots.size = false := by
    rw [isKept, hg.slots, if_pos rfl]
    simp [hgone]
  refine ⟨?_, ?_, h.tabled.grow hg fun c hc => (hkids c hc).1⟩
  · rw [hg.size, keptBefore_succ, hnew, hw.keptBefore_eq (Nat.le_refl _), h.size]
    rfl
  · intro x hx
    have hself : x ≠ d.slots.size := by
      rintro rfl
      rw [hnew] at hx
      cases hx
    have hlt := hg.lt_of_isKept hx hself
    rw [hw.isKept_eq hlt] at hx
    have hchild : x ∉ node.children := by
      intro hmem
      have hnone := (hkids x hmem).2
      rw [newId?_of_isKept hx] at hnone
      cases hnone
    obtain ⟨slot, hslot, -⟩ := isKept_iff.mp hx
    have hslots := h.slots x hx
    rw [hw.keptBefore_eq (Nat.le_of_lt hlt), hg.slots, if_neg hself, if_neg hchild, hslots, hslot]
    simp only [Option.map_some, h.prune_eq hw hslot]

theorem seen_eq (h : d.PrunesTo move look gone d')
    (hroot : d'.root = (d.newId? gone d.root).getD d.root) :
    d'.seen move look = (d.prune gone).seen move look := by
  have hslots : d'.slots.map (·.seen move look) = (d.prune gone).slots.map (·.seen move look) := by
    apply Array.ext_getElem?
    intro i
    rw [Array.getElem?_map, Array.getElem?_map]
    by_cases hi : i < d.keptBefore gone d.slots.size
    · obtain ⟨x, -, hx, rfl⟩ := exists_keptBefore_eq hi
      rw [h.slots x hx, slots_prune hx, Option.map_map]
      rfl
    · rw [Array.getElem?_eq_none (by rw [h.size]; omega),
        Array.getElem?_eq_none (by rw [size_prune]; omega)]
  rw [seen, seen, hslots, hroot]
  rfl

end Document.PrunesTo

end TemplateLint
