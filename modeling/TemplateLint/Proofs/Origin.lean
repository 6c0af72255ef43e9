import TemplateLint.Proofs.PrunedLayout

/-!
# Where attributes come from

Every attribute of a document was laid out in some open tag, after the parts in front of it. Main
statement: which pieces and parts had been laid out when an attribute got its id (`exists_origin`).
-/

namespace TemplateLint

open Markup

def Content.IsAttr : Content → Prop
  | attr .. => True
  | _ => False

/-- The step only adds nodes, and their contents are as `K` says. -/
structure Adds {α : Type} (K : Content → Prop) (step : Layout α) : Prop where
  within : ∀ s : Draft, (s.view 0).Within ((step s).2.view 0)
  added : ∀ (s : Draft) (x : NodeId) (slot : Slot), s.slots.size ≤ x →
    (step s).2.slots[x]? = some slot →
    K slot.node.content

namespace Layout

section Adds

variable {α β : Type} {K : Content → Prop}

theorem adds_bind {m : Layout α} {f : α → Layout β} (h : Adds K m) (hf : ∀ a, Adds K (f a)) :
    Adds K (m >>= f) := by
  refine ⟨fun s => (h.within s).trans ((hf _).within _), fun s x slot hx hslot => ?_⟩
  by_cases hlt : x < (m s).2.slots.size
  · have hnode := ((hf (m s).1).within (m s).2).node hlt
    have hmap : (((m >>= f) s).2.view 0).slots[x]?.map (·.node) = some slot.node := congrArg _ hslot
    obtain ⟨old, hold, hsame⟩ := Option.map_eq_some_iff.mp (hnode.symm.trans hmap)
    rw [← hsame]
    exact h.added s x old hx hold
  · exact (hf _).added _ x slot (Nat.le_of_not_lt hlt) hslot

theorem adds_none {m : Layout α} (h : ∀ s, (m s).2.slots = s.slots) : Adds K m := by
  refine ⟨fun s => ?_, fun s x slot hx hslot => ?_⟩
  · rw [Draft.view, Draft.view, h s]
    exact .refl _
  · rw [h s, Array.getElem?_eq_none hx] at hslot
    cases hslot

theorem adds_pure (a : α) : Adds K (pure a : Layout α) := adds_none fun _ => rfl

theorem adds_here : Adds K here := adds_none fun _ => rfl

theorem adds_get : Adds K (get : Layout Draft) := adds_none fun _ => rfl

theorem adds_token (text : List Char) : Adds K (token text) := adds_none fun _ => rfl

theorem adds_push {location : Draft → Location} {c : Content} (h : K c) :
    Adds K (fun s => s.push (location s) c) := by
  refine ⟨fun s => (Document.grows_push 0 s _ c).within, fun s x slot hx hslot => ?_⟩
  rw [Draft.slots_push] at hslot
  split at hslot
  · cases hslot
    exact h
  · have hnone : s.slots[x]? = none := Array.getElem?_eq_none hx
    split at hslot <;> simp [hnone] at hslot

theorem adds_node (start : Position) {c : Content} (h : K c) : Adds K (node start c) := adds_push h

theorem adds_attach (id : NodeId) : Adds K (attach id) := by
  apply adds_none
  intro s
  change (s.attach id).slots = s.slots
  unfold Draft.attach
  split <;> rfl

variable (hK : ∀ c : Content, ¬ c.IsAttr → K c)
include hK

theorem adds_erb (e : Erb) : Adds K (erb e) :=
  adds_bind adds_here fun _ => adds_bind (adds_token _) fun _ => adds_bind (adds_token _) fun _ =>
    adds_bind (adds_token _) fun _ => adds_node _ (hK _ id)

theorem adds_valuePart (part : ValuePart) : Adds K (valuePart part) := by
  cases part with
  | literal text =>
    exact adds_bind adds_here fun _ => adds_bind (adds_token _) fun _ => adds_node _ (hK _ id)
  | erb e => exact adds_erb hK e

theorem adds_valueParts (parts : List ValuePart) : Adds K (valueParts parts) := by
  induction parts with
  | nil => exact adds_pure _
  | cons part rest ih =>
    exact adds_bind (adds_valuePart hK part) fun _ => adds_bind ih fun _ => adds_pure _

omit hK in
theorem adds_quoteMark (quote : Option Quote) : Adds K (quoteMark quote) := by
  cases quote with
  | none => exact adds_pure _
  | some quote => exact adds_bind (adds_token _) fun _ => adds_pure _

theorem adds_value (v : Value) : Adds K (value v) :=
  adds_bind adds_here fun _ => adds_bind (adds_quoteMark _) fun _ =>
    adds_bind (adds_valueParts hK _) fun _ =>
    adds_bind (adds_quoteMark _) fun _ => adds_node _ (hK _ id)

theorem adds_closeTag (t : CloseTag) : Adds K (closeTag t) :=
  adds_bind adds_here fun _ => adds_bind (adds_token _) fun _ => adds_bind (adds_token _) fun _ =>
    adds_bind (adds_token _) fun _ => adds_bind (adds_token _) fun _ => adds_node _ (hK _ id)

theorem adds_beginElement (t : OpenTag) (start : Position) (tag : NodeId) :
    Adds K (beginElement t start tag) := by
  unfold beginElement
  split
  · exact adds_none fun _ => rfl
  · exact adds_bind (adds_node _ (hK _ id)) fun _ => adds_attach _

theorem adds_endUnclosed (e : OpenElement) (stop : Position) :
    Adds K (endUnclosed e stop) := adds_push (hK _ id)

theorem adds_endElements (name : List Char) (tag : NodeId) (before : Position)
    (inner : Array NodeId) (open_ : List OpenElement) :
    Adds K (endElements name tag before inner open_) := by
  induction open_ generalizing inner with
  | nil => exact adds_none fun _ => rfl
  | cons e outer ih =>
    unfold endElements
    simp only
    split
    · exact adds_bind (adds_node _ (hK _ id)) fun _ =>
        adds_bind (adds_none fun _ => rfl) fun _ => adds_attach _
    · exact adds_bind (adds_endUnclosed hK _ _) fun _ => ih _

theorem adds_endByTag (t : CloseTag) (start : Position) (tag : NodeId) :
    Adds K (endByTag t start tag) := by
  refine adds_bind adds_get fun d => ?_
  split
  · exact adds_endElements hK _ _ _ _ _
  · exact adds_attach _

theorem adds_endAll (inner : Array NodeId) (open_ : List OpenElement) :
    Adds K (endAll inner open_) := by
  induction open_ generalizing inner with
  | nil => exact adds_none fun _ => rfl
  | cons e outer ih =>
    exact adds_bind adds_here fun _ => adds_bind (adds_endUnclosed hK _ _) fun _ => ih _

theorem adds_threeParts (opening content closing : List Char)
    {make : Token → Token → Token → Content} (hmake : ∀ t u v, ¬ (make t u v).IsAttr) :
    Adds K (threeParts opening content closing make) :=
  adds_bind adds_here fun _ => adds_bind (adds_token _) fun _ => adds_bind (adds_token _) fun _ =>
    adds_bind (adds_token _) fun _ =>
      adds_bind (adds_node _ (hK _ (hmake _ _ _))) fun _ => adds_attach _

theorem adds_ending : Adds K ending :=
  adds_bind adds_get fun _ => adds_bind (adds_endAll hK _ _) fun _ =>
    adds_bind adds_get fun _ => adds_node _ (hK _ id)

end Adds

/-! ## Steps that may add attributes -/

theorem adds_attr (a : Attribute) : Adds (fun _ => True) (attr a) := by
  obtain ⟨name, v⟩ := a
  refine adds_bind adds_here fun _ => adds_bind (adds_token _) fun _ => ?_
  cases v with
  | none => exact adds_node _ trivial
  | some v =>
    exact adds_bind (adds_token _) fun _ =>
      adds_bind (adds_value (fun _ _ => trivial) v) fun _ => adds_node _ trivial

theorem adds_tagPart (keep : Bool) (part : TagPart) : Adds (fun _ => True) (tagPart keep part) := by
  cases part with
  | blank text =>
    refine adds_bind adds_here fun _ => adds_bind (adds_token _) fun _ => ?_
    cases keep with
    | true => exact adds_bind (adds_node _ trivial) fun _ => adds_pure _
    | false => exact adds_pure _
  | erb e => exact adds_bind (adds_erb (fun _ _ => trivial) e) fun _ => adds_pure _
  | attr a => exact adds_bind (adds_attr a) fun _ => adds_pure _

theorem adds_tagParts (keep : Bool) (parts : List TagPart) :
    Adds (fun _ => True) (tagParts keep parts) := by
  induction parts with
  | nil => exact adds_pure _
  | cons part rest ih =>
    exact adds_bind (adds_tagPart keep part) fun _ => adds_bind ih fun _ => adds_pure _

theorem adds_openTag (keep : Bool) (t : OpenTag) : Adds (fun _ => True) (openTag keep t) :=
  adds_bind adds_here fun _ => adds_bind (adds_token _) fun _ => adds_bind (adds_token _) fun _ =>
    adds_bind (adds_tagParts keep _) fun _ => adds_bind (adds_token _) fun _ => adds_node _ trivial

theorem adds_piece_of_ne {K : Content → Prop} (hK : ∀ c : Content, ¬ c.IsAttr → K c)
    (keep : Bool) {p : Piece} (hp : ∀ t, p ≠ .openTag t) : Adds K (piece keep p) := by
  cases p with
  | text content =>
    exact adds_bind adds_here fun _ => adds_bind (adds_token _) fun _ =>
      adds_bind (adds_node _ (hK _ id)) fun _ =>
      adds_attach _
  | erb e => exact adds_bind (adds_erb hK e) fun _ => adds_attach _
  | comment content => exact adds_threeParts hK _ _ _ fun _ _ _ => id
  | doctype content => exact adds_threeParts hK _ _ _ fun _ _ _ => id
  | openTag t => exact absurd rfl (hp t)
  | closeTag t =>
    exact adds_bind adds_here fun _ => adds_bind (adds_closeTag hK t) fun _ =>
      adds_endByTag hK _ _ _

theorem adds_piece (keep : Bool) (p : Piece) : Adds (fun _ => True) (piece keep p) := by
  by_cases hp : ∃ t, p = .openTag t
  · obtain ⟨t, rfl⟩ := hp
    exact adds_bind adds_here fun _ => adds_bind (adds_openTag keep t) fun _ =>
      adds_beginElement (fun _ _ => trivial) _ _ _
  · exact adds_piece_of_ne (fun _ _ => trivial) keep fun t ht => hp ⟨t, ht⟩

theorem adds_pieces (keep : Bool) (ps : List Piece) : Adds (fun _ => True) (pieces keep ps) := by
  induction ps with
  | nil => exact adds_pure _
  | cons p rest ih => exact adds_bind (adds_piece keep p) fun _ => ih

/-! ## Origins -/

variable {s : Draft} {x : NodeId} {slot : Slot}

theorem added_bind {α β : Type} {m : Layout α} {f : α → Layout β} {K : Content → Prop}
    (hf : ∀ a, Adds K (f a)) (hslot : ((m >>= f) s).2.slots[x]? = some slot)
    (hnot : ¬ K slot.node.content) :
    ∃ old, (m s).2.slots[x]? = some old ∧ old.node = slot.node := by
  have hlt : x < (m s).2.slots.size := by
    by_contra hle
    exact hnot ((hf _).added _ x slot (Nat.le_of_not_lt hle) hslot)
  have hnode := ((hf (m s).1).within (m s).2).node hlt
  have hmap : (((m >>= f) s).2.view 0).slots[x]?.map (·.node) = some slot.node := congrArg _ hslot
  exact Option.map_eq_some_iff.mp (hnode.symm.trans hmap)

theorem eq_of_added_attr {a : Attribute} (hx : s.slots.size ≤ x)
    (hslot : (attr a s).2.slots[x]? = some slot) (hattr : slot.node.content.IsAttr) :
    x = (attr a s).1 := by
  obtain ⟨name, v⟩ := a
  cases v with
  | none =>
    by_contra hne
    have hne : x ≠ s.slots.size := hne
    have hnone : s.slots[x]? = none := Array.getElem?_eq_none hx
    change ((token name s).2.push _ (.attr (token name s).1 none none)).2.slots[x]? =
      some slot at hslot
    have hsize : (token name s).2.slots.size = s.slots.size := rfl
    rw [Draft.slots_push, if_neg (hsize ▸ hne)] at hslot
    simp [Content.children, token, hnone] at hslot
  | some v =>
    -- The attribute itself comes last; its value adds none.
    let before : Layout NodeId := do
      let _ ← token name
      let _ ← token ['=']
      value v
    have hbefore : Adds (fun c => ¬ c.IsAttr) before :=
      adds_bind (adds_token _) fun _ => adds_bind (adds_token _) fun _ =>
        adds_value (fun _ h => h) v
    by_contra hne
    have hne : x ≠ (before s).2.slots.size := hne
    change ((before s).2.push _ (.attr _ _ (some (before s).1))).2.slots[x]? = some slot at hslot
    rw [Draft.slots_push, if_neg hne] at hslot
    have hold : ∃ old, (before s).2.slots[x]? = some old ∧ old.node = slot.node := by
      split at hslot
      · obtain ⟨old, hold, rfl⟩ := Option.map_eq_some_iff.mp hslot
        exact ⟨old, hold, rfl⟩
      · exact ⟨slot, hslot, rfl⟩
    obtain ⟨old, hold, hnode⟩ := hold
    exact hbefore.added s x old hx hold (hnode ▸ hattr)

theorem exists_of_added_tagParts {parts : List TagPart} (hx : s.slots.size ≤ x)
    (hslot : (tagParts true parts s).2.slots[x]? = some slot) (hattr : slot.node.content.IsAttr) :
    ∃ before a after, parts = before ++ .attr a :: after ∧
      x = (attr a (tagParts true before s).2).1 := by
  induction parts generalizing s slot with
  | nil =>
    have hnone : s.slots[x]? = none := Array.getElem?_eq_none hx
    exact absurd (hnone.symm.trans hslot) (by simp)
  | cons part rest ih =>
    have hrest : (tagParts true rest (tagPart true part s).2).2.slots[x]? = some slot := hslot
    by_cases hlt : x < (tagPart true part s).2.slots.size
    · have hnode := ((adds_tagParts true rest).within (tagPart true part s).2).node hlt
      obtain ⟨old, hold, hsame⟩ :=
        Option.map_eq_some_iff.mp (hnode.symm.trans (congrArg (Option.map (·.node)) hrest))
      have hold : (tagPart true part s).2.slots[x]? = some old := hold
      cases part with
      | blank text =>
        have hadds : Adds (fun c => ¬ c.IsAttr) (tagPart true (.blank text)) :=
          adds_bind adds_here fun _ => adds_bind (adds_token _) fun _ =>
            adds_bind (adds_node _ id) fun _ => adds_pure _
        exact absurd (hsame ▸ hattr) (hadds.added s x old hx hold)
      | erb e =>
        have hadds : Adds (fun c => ¬ c.IsAttr) (tagPart true (.erb e)) :=
          adds_bind (adds_erb (fun _ h => h) e) fun _ => adds_pure _
        exact absurd (hsame ▸ hattr) (hadds.added s x old hx hold)
      | attr a => exact ⟨[], a, rest, rfl, eq_of_added_attr hx hold (hsame ▸ hattr)⟩
    · obtain ⟨before, a, after, rfl, hid⟩ := ih (Nat.le_of_not_lt hlt) hrest hattr
      exact ⟨part :: before, a, after, rfl, hid⟩

def tagFront (name : List Char) (parts : List TagPart) :
    Layout (Position × Token × Token × List NodeId) := do
  let start ← here
  let opening ← token ['<']
  let name ← token name
  let children ← tagParts true parts
  return (start, opening, name, children)

theorem exists_of_added_openTag {t : OpenTag} (hx : s.slots.size ≤ x)
    (hslot : (openTag true t s).2.slots[x]? = some slot) (hattr : slot.node.content.IsAttr) :
    ∃ before a after, t.parts = before ++ .attr a :: after ∧
      x = (attr a (tagFront t.name before s).2).1 := by
  let close (front : Position × Token × Token × List NodeId) : Layout NodeId := do
    let closing ← token t.closing
    node front.1 (.openTag front.2.1 front.2.2.1 front.2.2.2 closing)
  have hclose (front) : Adds (fun c => ¬ c.IsAttr) (close front) :=
    adds_bind (adds_token _) fun _ => adds_node _ id
  have hsplit : openTag true t = tagFront t.name t.parts >>= close := rfl
  rw [hsplit] at hslot
  obtain ⟨old, hold, hsame⟩ := added_bind hclose hslot (not_not.mpr hattr)
  exact exists_of_added_tagParts (s := (token t.name (token ['<'] s).2).2) hx hold (hsame ▸ hattr)

theorem exists_of_added_pieces {ps : List Piece} (hx : s.slots.size ≤ x)
    (hslot : (pieces true ps s).2.slots[x]? = some slot) (hattr : slot.node.content.IsAttr) :
    ∃ before t after front a back, ps = before ++ .openTag t :: after ∧
      t.parts = front ++ .attr a :: back ∧
      x = (attr a (tagFront t.name front (pieces true before s).2).2).1 := by
  induction ps generalizing s slot with
  | nil =>
    have hnone : s.slots[x]? = none := Array.getElem?_eq_none hx
    exact absurd (hnone.symm.trans hslot) (by simp)
  | cons p rest ih =>
    have hrest : (pieces true rest (piece true p s).2).2.slots[x]? = some slot := hslot
    by_cases hlt : x < (piece true p s).2.slots.size
    · have hnode := ((adds_pieces true rest).within (piece true p s).2).node hlt
      obtain ⟨old, hold, hsame⟩ :=
        Option.map_eq_some_iff.mp (hnode.symm.trans (congrArg (Option.map (·.node)) hrest))
      have hold : (piece true p s).2.slots[x]? = some old := hold
      have holdAttr : old.node.content.IsAttr := hsame ▸ hattr
      by_cases hp : ∃ t, p = .openTag t
      · obtain ⟨t, rfl⟩ := hp
        have hbegin (tag : NodeId) : Adds (fun c => ¬ c.IsAttr) (beginElement t s.here tag) :=
          adds_beginElement (fun _ h => h) _ _ _
        obtain ⟨slot', hslot', hsame'⟩ :=
          added_bind (m := openTag true t) hbegin hold (not_not.mpr holdAttr)
        obtain ⟨front, a, back, hparts, hid⟩ :=
          exists_of_added_openTag hx hslot' (hsame' ▸ holdAttr)
        exact ⟨[], t, rest, front, a, back, rfl, hparts, hid⟩
      · have hadds :=
          adds_piece_of_ne (K := fun c => ¬ c.IsAttr) (fun _ h => h) true fun t ht => hp ⟨t, ht⟩
        exact absurd holdAttr (hadds.added s x old hx hold)
    · obtain ⟨before, t, after, front, a, back, rfl, hparts, hid⟩ :=
        ih (Nat.le_of_not_lt hlt) hrest hattr
      exact ⟨p :: before, t, after, front, a, back, rfl, hparts, hid⟩

end Layout

/-- An attribute is a part of an open tag, laid out after the pieces and parts before it. -/
theorem Document.exists_origin {ps : List Piece} {x : NodeId} {slot : Slot}
    (hslot : (Document.ofPieces true ps).slots[x]? = some slot) (hattr : slot.node.content.IsAttr) :
    ∃ before t after front a back, ps = before ++ .openTag t :: after ∧
      t.parts = front ++ .attr a :: back ∧ x =
        (Layout.attr a (Layout.tagFront t.name front (Layout.pieces true before .empty).2).2).1 := by
  have hending (u : Unit) : Adds (fun c => ¬ c.IsAttr) Layout.ending :=
    Layout.adds_ending fun _ h => h
  obtain ⟨old, hold, hsame⟩ :=
    Layout.added_bind (m := Layout.pieces true ps) hending hslot (not_not.mpr hattr)
  exact Layout.exists_of_added_pieces (Nat.zero_le x) hold (hsame ▸ hattr)

end TemplateLint
