import TemplateLint.Proofs.Origin

/-!
# Attributes that lose their value

An attribute is laid out once with its value and once without it. The second document is the first
one without the value and its parts, up to places. Main statement: `ofPieces_bare`.
-/

namespace TemplateLint

open Markup

/-! ## Pruning alike -/

namespace Document

variable {gone gone' : NodeId → Content → Bool} {d d' : Document} {move : Position → Position}
  {look : Content → Content}

theorem isKept_congr (h : ∀ x c, x < d.slots.size → gone' x c = gone x c) :
    d.isKept gone' = d.isKept gone := by
  funext x
  rw [isKept, isKept]
  cases hslot : d.slots[x]? with
  | none => rfl
  | some slot => simp [h x _ (Array.getElem?_eq_some_iff.mp hslot).1]

theorem newId?_congr (h : ∀ x c, x < d.slots.size → gone' x c = gone x c) :
    d.newId? gone' = d.newId? gone := by
  funext x
  simp only [newId?, keptBefore, isKept_congr h]

theorem newId?_of_gone {x : NodeId} (h : ∀ c, gone x c = true) : d.newId? gone x = none := by
  apply if_neg
  rw [isKept_iff]
  rintro ⟨slot, -, hkept⟩
  rw [h] at hkept
  cases hkept

theorem prune_congr (h : ∀ x c, x < d.slots.size → gone' x c = gone x c) :
    d.prune gone' = d.prune gone := by
  have hslot : d.prunedSlot? gone' = d.prunedSlot? gone := by
    funext x
    simp only [prunedSlot?, isKept_congr h, newId?_congr h]
  rw [prune, prune, hslot, newId?_congr h]

theorem Refers.congr {ids ids' : List NodeId} (hr : d.Refers gone ids ids')
    (h : ∀ x c, x < d.slots.size → gone' x c = gone x c) : d.Refers gone' ids ids' :=
  ⟨hr.lt, by rw [newId?_congr h]; exact hr.eq⟩

theorem PrunesTo.congr (hp : d.PrunesTo move look gone d')
    (h : ∀ x c, x < d.slots.size → gone' x c = gone x c) :
    d.PrunesTo move look gone' d' := by
  have hkept (x : NodeId) : d.keptBefore gone' x = d.keptBefore gone x := by
    simp only [keptBefore, isKept_congr h]
  refine ⟨by rw [hkept, hp.size], fun x hx => ?_, hp.tabled⟩
  rw [isKept_congr h] at hx
  rw [hkept, newId?_congr h, hp.slots x hx]

end Document

/-- The second layout leaves out the nodes with `gone`, and places do not count. -/
def Pruning.unplaced (gone : NodeId → Content → Bool) : Pruning :=
  .named (fun _ => .start) (fun _ _ => rfl) gone true

theorem Pruning.look_unplaced (gone : NodeId → Content → Bool) :
    (Pruning.unplaced gone).look = Content.relocate fun _ => .start := by
  funext c
  exact Content.mapName_id _

namespace Draft.PrunesTo

variable {gone gone' : NodeId → Content → Bool} {s s' : Draft}

theorem congr (hs : s.PrunesTo (.unplaced gone) s')
    (h : ∀ x c, x < s.slots.size → gone' x c = gone x c) :
    s.PrunesTo (.unplaced gone') s' := by
  have hopen (e e' : OpenElement) (he : e.PrunesTo (.unplaced gone) (s.view 0) e') :
      e.PrunesTo (.unplaced gone') (s.view 0) e' :=
    ⟨he.name, rfl, (congrFun (Document.newId?_congr (d := s.view 0) h) _).trans he.openTag,
      he.body.congr h⟩
  exact ⟨rfl, hs.nodes.congr h, hs.openElements.imp hopen, hs.top.congr h⟩

theorem moved (hs : s.PrunesTo (.unplaced gone) s') (p p' : Position) :
    Draft.PrunesTo (.unplaced gone) { s with here := p } { s' with here := p' } :=
  ⟨rfl, hs.nodes, hs.openElements, hs.top⟩

end Draft.PrunesTo

namespace Layout

/-! ## Steps that are left out -/

/-- All that the step adds is gone when the nodes from `first` on are. -/
def Drops {α : Type} (first : NodeId) (step : Layout α) : Prop :=
  ∀ s s' : Draft, first ≤ s.slots.size → s.PrunesTo (.unplaced fun x _ => decide (first ≤ x)) s' →
    first ≤ (step s).2.slots.size ∧ (step s).2.PrunesTo (.unplaced fun x _ => decide (first ≤ x)) s'

section Drops

variable {α β : Type} {first : NodeId}

theorem drops_bind {m : Layout α} {f : α → Layout β} (h : Drops first m)
    (hf : ∀ a, Drops first (f a)) :
    Drops first (m >>= f) := by
  intro s s' hfirst hs
  obtain ⟨hfirst₁, hs₁⟩ := h s s' hfirst hs
  exact hf _ _ _ hfirst₁ hs₁

theorem drops_pure (a : α) : Drops first (pure a : Layout α) := fun _ _ hfirst hs => ⟨hfirst, hs⟩

theorem drops_here : Drops first here := fun _ _ hfirst hs => ⟨hfirst, hs⟩

theorem drops_token (text : List Char) : Drops first (token text) :=
  fun _ s' hfirst hs => ⟨hfirst, hs.moved _ s'.here⟩

theorem dropped_node {s s' : Draft} (hfirst : first ≤ s.slots.size)
    (hs : s.PrunesTo (.unplaced fun x _ => decide (first ≤ x)) s') (start : Position) {c : Content}
    (hc : ∀ x ∈ c.children, first ≤ x ∧ x < s.slots.size) :
    first ≤ (node start c s).2.slots.size ∧
      (node start c s).2.PrunesTo (.unplaced fun x _ => decide (first ≤ x)) s' := by
  have hsize : (node start c s).2.slots.size = s.slots.size + 1 :=
    (Document.grows_push 0 s ⟨start, s.here⟩ c).size
  refine ⟨hsize ▸ Nat.le_succ_of_le hfirst,
    (hs.push_gone _ (decide_eq_true hfirst) fun x hx => ?_).1⟩
  exact ⟨(hc x hx).2, Document.newId?_of_gone fun _ => decide_eq_true (hc x hx).1⟩

theorem drops_leaf (start : Position) {c : Content} (hc : c.children = []) :
    Drops first (node start c) :=
  fun _ _ hfirst hs => dropped_node hfirst hs start (by simp [hc])

theorem drops_valuePart (part : ValuePart) : Drops first (valuePart part) := by
  cases part with
  | literal text =>
    exact drops_bind drops_here fun _ => drops_bind (drops_token _) fun _ => drops_leaf _ rfl
  | erb e =>
    exact drops_bind drops_here fun _ => drops_bind (drops_token _) fun _ =>
      drops_bind (drops_token _) fun _ =>
      drops_bind (drops_token _) fun _ => drops_leaf _ rfl

theorem drops_valueParts (parts : List ValuePart) : Drops first (valueParts parts) := by
  induction parts with
  | nil => exact drops_pure _
  | cons part rest ih =>
    exact drops_bind (drops_valuePart part) fun _ => drops_bind ih fun _ => drops_pure _

theorem drops_quoteMark (quote : Option Quote) : Drops first (quoteMark quote) := by
  cases quote with
  | none => exact drops_pure _
  | some quote => exact drops_bind (drops_token _) fun _ => drops_pure _

end Drops

/-! ## The ids of a value -/

theorem id_valuePart (part : ValuePart) (s : Draft) :
    (valuePart part s).1 = s.slots.size ∧ (valuePart part s).2.slots.size = s.slots.size + 1 := by
  cases part with
  | literal text => exact ⟨rfl, (Document.grows_push 0 (token text s).2 _ _).size⟩
  | erb e =>
    exact ⟨rfl,
      (Document.grows_push 0
        (token e.closing (token e.content (token e.opening.text s).2).2).2 _ _).size⟩

theorem ids_valueParts (parts : List ValuePart) (s : Draft) :
    (valueParts parts s).1 = List.range' s.slots.size parts.length ∧
      (valueParts parts s).2.slots.size = s.slots.size + parts.length := by
  induction parts generalizing s with
  | nil => exact ⟨rfl, rfl⟩
  | cons part rest ih =>
    obtain ⟨hid, hsize⟩ := id_valuePart part s
    obtain ⟨hids, hsizes⟩ := ih (valuePart part s).2
    have hfirst : (valueParts (part :: rest) s).1 =
        (valuePart part s).1 :: (valueParts rest (valuePart part s).2).1 := rfl
    have hrest : (valueParts (part :: rest) s).2 = (valueParts rest (valuePart part s).2).2 := rfl
    rw [hfirst, hrest, hid, hids, hsizes, hsize, List.length_cons, List.range'_succ]
    exact ⟨rfl, by omega⟩

theorem slots_quoteMark (quote : Option Quote) (s : Draft) :
    (quoteMark quote s).2.slots = s.slots := by
  cases quote <;> rfl

theorem dropped_value (v : Value) (s s' : Draft)
    (hs : s.PrunesTo (.unplaced fun x _ => decide (s.slots.size ≤ x)) s') :
    (value v s).2.PrunesTo (.unplaced fun x _ => decide (s.slots.size ≤ x)) s' ∧
      (value v s).1 = s.slots.size + v.parts.length ∧ (value v s).2.slots.size = (value v s).1 + 1 ∧
      ∃ location openQuote closeQuote, (value v s).2.slots[(value v s).1]? =
        some ⟨⟨location, .attrValue openQuote (List.range' s.slots.size v.parts.length) closeQuote⟩,
          none, true⟩ := by
  -- A value stands behind its parts.
  -- The value is one node behind the steps that lay out its quotes and its parts.
  let before : Layout (List NodeId) := do
    let _ ← quoteMark v.quote
    let ids ← valueParts v.parts
    let _ ← quoteMark v.quote
    return ids
  have hdrops : Drops s.slots.size before :=
    drops_bind (drops_quoteMark _) fun _ => drops_bind (drops_valueParts _) fun _ =>
      drops_bind (drops_quoteMark _) fun _ => drops_pure _
  obtain ⟨hids, hsize⟩ := ids_valueParts v.parts (quoteMark v.quote s).2
  rw [slots_quoteMark] at hids hsize
  have hbefore : (before s).2.slots.size = s.slots.size + v.parts.length := by
    rw [← hsize]
    exact congrArg Array.size (slots_quoteMark v.quote _)
  obtain ⟨hfirst, hbeforeTo⟩ := hdrops s s' (Nat.le_refl _) hs
  obtain ⟨openQuote, closeQuote, hvalue⟩ : ∃ openQuote closeQuote,
      value v s = node s.here (.attrValue openQuote (List.range' s.slots.size v.parts.length)
        closeQuote) (before s).2 := by
    rw [← hids]
    exact ⟨_, _, rfl⟩
  have hkids : ∀ x ∈ (Content.attrValue openQuote (List.range' s.slots.size v.parts.length)
      closeQuote).children, s.slots.size ≤ x ∧ x < (before s).2.slots.size := by
    intro x hx
    rw [hbefore]
    exact List.mem_range'_1.mp hx
  have hgrows := Document.grows_push 0 (before s).2 ⟨s.here, (before s).2.here⟩
    (.attrValue openQuote (List.range' s.slots.size v.parts.length) closeQuote)
  rw [hvalue]
  refine ⟨(dropped_node hfirst hbeforeTo s.here hkids).2, hbefore, hgrows.size,
    ⟨s.here, (before s).2.here⟩, openQuote, closeQuote, ?_⟩
  exact (Draft.slots_push _ _ _ _).trans (if_pos rfl)

/-! ## One attribute among the others -/

theorem pieces_append (keep : Bool) (ps qs : List Piece) (s : Draft) :
    pieces keep (ps ++ qs) s = pieces keep qs (pieces keep ps s).2 := by
  induction ps generalizing s with
  | nil => rfl
  | cons p rest ih => exact ih (piece keep p s).2

theorem tagParts_append (keep : Bool) (front back : List TagPart) (s : Draft) :
    tagParts keep (front ++ back) s =
      ((tagParts keep front s).1 ++ (tagParts keep back (tagParts keep front s).2).1,
      (tagParts keep back (tagParts keep front s).2).2) := by
  induction front generalizing s with
  | nil => rfl
  | cons part rest ih =>
    have hcons (parts : List TagPart) : tagParts keep (part :: parts) s =
        ((tagPart keep part s).1 ++ (tagParts keep parts (tagPart keep part s).2).1,
          (tagParts keep parts (tagPart keep part s).2).2) := rfl
    rw [List.cons_append, hcons, hcons, ih, List.append_assoc]

def tagRest (t : OpenTag) (back : List TagPart) (after : List Piece)
    (front : Position × Token × Token × List NodeId) (id : NodeId) : Layout NodeId := do
  let children ← tagParts true back
  let closing ← token t.closing
  let tag ← node front.1 (.openTag front.2.1 front.2.2.1 (front.2.2.2 ++ id :: children) closing)
  beginElement t front.1 tag
  pieces true after
  ending

theorem document_split {before after : List Piece} {t : OpenTag}
    {front back : List TagPart} {a : Attribute}
    (hparts : t.parts = front ++ .attr a :: back) (s : Draft) :
    document true (before ++ .openTag t :: after) s =
      (tagFront t.name front >>= fun f => attr a >>= tagRest t back after f)
      (pieces true before s).2 := by
  obtain ⟨name, parts, selfClosing⟩ := t
  obtain rfl : parts = front ++ .attr a :: back := hparts
  have hdocument :
      document true (before ++ .openTag ⟨name, front ++ .attr a :: back, selfClosing⟩ :: after) s =
      ending (pieces true
        (before ++ .openTag ⟨name, front ++ .attr a :: back, selfClosing⟩ :: after) s).2 := rfl
  rw [hdocument, pieces_append]
  generalize (pieces true before s).2 = s
  have hopenTag : openTag true ⟨name, front ++ .attr a :: back, selfClosing⟩ s =
      let inside := tagParts true (front ++ .attr a :: back) (token name (token ['<'] s).2).2
      let closing := token (OpenTag.closing ⟨name, [], selfClosing⟩) inside.2
      node s.here (.openTag (token ['<'] s).1 (token name (token ['<'] s).2).1 inside.1 closing.1)
        closing.2 := rfl
  have hpiece :
      (pieces true (.openTag ⟨name, front ++ .attr a :: back, selfClosing⟩ :: after) s).2 =
      let tag := openTag true ⟨name, front ++ .attr a :: back, selfClosing⟩ s
      (pieces true after (beginElement ⟨name, [], selfClosing⟩ s.here tag.1 tag.2).2).2 := rfl
  rw [hpiece, hopenTag, tagParts_append]
  rfl

def between (first last : NodeId) : NodeId → Content → Bool :=
  fun x _ => decide (first ≤ x) && decide (x < last)

theorem dropped_attr (name : List Char) (v : Value) {s : Draft}
    (hs : s.PrunesTo (.unplaced fun _ _ => false) s) :
    let x := (attr ⟨name, some v⟩ s).1
    (attr ⟨name, some v⟩ s).2.PrunesTo (.unplaced (between s.slots.size x))
      (attr ⟨name, none⟩ s).2 ∧
      ((attr ⟨name, some v⟩ s).2.view 0).newId? (between s.slots.size x) x =
        some (attr ⟨name, none⟩ s).1 ∧
      (Pruning.unplaced (between s.slots.size x)).Spares (attr ⟨name, some v⟩ s).2 := by
  intro x
  let equals := token ['='] (token name s).2
  let inner := value v equals.2
  have hstart : s.PrunesTo (.unplaced fun x _ => decide (s.slots.size ≤ x)) s :=
    hs.congr fun x _ hx => decide_eq_false (Nat.not_le_of_lt hx)
  obtain ⟨hvalue, hid, hsize, -⟩ := dropped_value v equals.2 (token name s).2 (hstart.moved _ _)
  have hfirst : s.slots.size ≤ inner.1 := hid ▸ Nat.le_add_right _ _
  have hlast : inner.2.slots.size = x := rfl
  have hvalue : inner.2.PrunesTo (.unplaced (between s.slots.size x)) (token name s).2 := by
    refine hvalue.congr fun z _ hz => ?_
    rw [between, decide_eq_true (show z < x from hz), Bool.and_true]
    rfl
  have hgone : (inner.2.view 0).newId? (between s.slots.size x) inner.1 = none := by
    refine Document.newId?_of_gone fun _ => ?_
    rw [between, decide_eq_true hfirst, ← hlast, hsize, decide_eq_true (Nat.lt_succ_self _)]
    rfl
  have hcontent : (Content.attr (token name s).1 (some equals.1) (some inner.1)).PrunesTo
      (.unplaced (between s.slots.size x)) (inner.2.view 0) (.attr (token name s).1 none none) := by
    refine ⟨fun z hz => ?_, ?_, ?_⟩
    · obtain rfl : z = inner.1 := List.mem_singleton.mp hz
      exact hsize ▸ Nat.lt_succ_self _
    · have hgone : (inner.2.view 0).newId? (Pruning.unplaced (between s.slots.size x)).gone
          inner.1 = none := hgone
      simp only [Content.prune, hgone]
    · have hnone : [inner.1].filterMap ((inner.2.view 0).newId? (between s.slots.size x)) = [] := by
        rw [List.filterMap_cons_none hgone, List.filterMap_nil]
      exact hnone.symm
  have hkept : between s.slots.size x inner.2.slots.size
      (.attr (token name s).1 (some equals.1) (some inner.1)) = false := by
    rw [between, hlast, decide_eq_false (Nat.lt_irrefl x), Bool.and_false]
  have hlocation : Location.relocate (fun _ => .start) ⟨s.here, (token name s).2.here⟩ =
      Location.relocate (fun _ => .start) ⟨s.here, inner.2.here⟩ := rfl
  obtain ⟨hpush, hnew⟩ := hvalue.push hkept hlocation hcontent
  refine ⟨hpush, hnew, fun z c hz => ?_⟩
  have hbehind : x < z := Nat.lt_of_lt_of_le (by
    rw [← hlast]
    exact (Document.grows_push 0 inner.2 _ _).size ▸ Nat.lt_succ_self _) hz
  change between s.slots.size x z c = (c.isBlank && false)
  rw [between, decide_eq_false (Nat.not_lt_of_lt hbehind), Bool.and_false, Bool.and_false]

variable {gone : NodeId → Content → Bool} {s₀ : Draft}

theorem follows_tagFront (hspares : (Pruning.unplaced gone).Spares s₀) (name : List Char)
    (parts : List TagPart) :
    Follows (.unplaced gone) s₀ (fun d f f' => d.Refers gone f.2.2.2 f'.2.2.2) (tagFront name parts)
      (tagFront name parts) := by
  refine follows_bind follows_here fun s₁ _ _ hw₁ _ => ?_
  refine follows_bind (follows_token _) fun s₂ _ _ hw₂ _ => ?_
  refine follows_bind (follows_token _) fun s₃ _ _ hw₃ _ => ?_
  refine follows_bind (follows_tagParts (hspares.mono ((hw₁.trans hw₂).trans hw₃)) parts)
    fun s₄ ids ids' hw₄ hids => ?_
  exact follows_pure fun s hw => hids.mono hw

theorem follows_tagRest (hspares : (Pruning.unplaced gone).Spares s₀)
    (t : OpenTag) (back : List TagPart) (after : List Piece)
    {f : Position × Token × Token × List NodeId} {x x' : NodeId}
    (hf : (s₀.view 0).Refers gone f.2.2.2 f.2.2.2) (hx : (s₀.view 0).newId? gone x = some x') :
    Follows (.unplaced gone) s₀ (fun d id id' => d.newId? gone id = some id')
      (tagRest t back after f x) (tagRest t back after f x') := by
  refine follows_bind (follows_tagParts hspares back) fun s₁ ids ids' hw₁ hids => ?_
  refine follows_bind (follows_token _) fun s₂ closing closing' hw₂ hclosing => ?_
  have hw := hw₁.trans hw₂
  have hchildren :=
    (hf.mono hw).append ((Document.Refers.singleton (hw.newId?_mono hx)).append (hids.mono hw₂))
  refine follows_bind (follows_node (hspares.mono hw) rfl rfl (.openTag rfl rfl hclosing hchildren))
    fun s₃ tag tag' hw₃ htag => ?_
  refine follows_bind (follows_beginElement (hspares.mono (hw.trans hw₃)) t rfl rfl htag)
    fun s₄ _ _ hw₄ _ => ?_
  have hspares₄ := hspares.mono ((hw.trans hw₃).trans hw₄)
  exact follows_bind (follows_pieces hspares₄ (forall₂_renamed_none after)) fun s₅ _ _ hw₅ _ =>
    follows_ending (hspares₄.mono hw₅)

end Layout

/-! ## Documents -/

theorem Document.ofPieces_split {t : OpenTag} {front back : List TagPart} {a : Attribute}
    (hparts : t.parts = front ++ .attr a :: back) (before after : List Piece) :
    let f := Layout.tagFront t.name front (Layout.pieces true before .empty).2
    let x := Layout.attr a f.2
    Document.ofPieces true (before ++ .openTag t :: after) =
      ⟨(Layout.tagRest t back after f.1 x.1 x.2).2.slots,
        (Layout.tagRest t back after f.1 x.1 x.2).1⟩ :=
  congrArg (fun r : NodeId × Draft => (⟨r.2.slots, r.1⟩ : Document))
      (Layout.document_split hparts .empty)

def Document.dropValue (d : Document) (attr : NodeId) : Document :=
  d.prune fun x _ => (d.children attr).any fun value => x == value || (d.children value).contains x

theorem Document.Within.get?_eq {d d' : Document} (hw : d.Within d') {x : NodeId} {n : Node}
    {parent : Option NodeId} (hslot : d.slots[x]? = some ⟨n, parent, true⟩) :
    d'.get? x = some n := by
  have hkept := hw.kept x (Array.getElem?_eq_some_iff.mp hslot).1
  rw [hslot, Option.map_some] at hkept
  obtain ⟨slot, hslot', hsame⟩ := Option.map_eq_some_iff.mp hkept
  rw [Document.get?, hslot']
  simp only [Prod.mk.injEq] at hsame
  simp only [hsame, if_true]

theorem Layout.children_attr (name : List Char) (v : Value) {s : Draft}
    (hs : s.PrunesTo (.unplaced fun _ _ => false) s) {d : Document}
    (hw : ((attr ⟨name, some v⟩ s).2.view 0).Within d) :
    (attr ⟨name, some v⟩ s).1 = s.slots.size + v.parts.length + 1 ∧
      d.children (attr ⟨name, some v⟩ s).1 = [s.slots.size + v.parts.length] ∧
      d.children (s.slots.size + v.parts.length) = List.range' s.slots.size v.parts.length := by
  let equals := token ['='] (token name s).2
  let inner := value v equals.2
  have hstart : s.PrunesTo (.unplaced fun x _ => decide (s.slots.size ≤ x)) s :=
    hs.congr fun x _ hx => decide_eq_false (Nat.not_le_of_lt hx)
  obtain ⟨-, hid, hsize, location, openQuote, closeQuote, hslot⟩ :=
    dropped_value v equals.2 (token name s).2 (hstart.moved _ _)
  have hgrows := Document.grows_push 0 inner.2 ⟨s.here, inner.2.here⟩
    (.attr (token name s).1 (some equals.1) (some inner.1))
  have hw₀ : (inner.2.view 0).Within d := hgrows.within.trans hw
  have hid : inner.1 = s.slots.size + v.parts.length := hid
  refine ⟨?_, ?_, ?_⟩
  · rw [show (attr ⟨name, some v⟩ s).1 = inner.2.slots.size from rfl, hsize, ← hid]
  · rw [← hid]
    exact Document.children_of_get? (hw.get?_eq ((Draft.slots_push _ _ _ _).trans (if_pos rfl)))
  · rw [← hid]
    exact Document.children_of_get? (hw₀.get?_eq hslot)

theorem Layout.between_eq (name : List Char) (v : Value) {s : Draft}
    (hs : s.PrunesTo (.unplaced fun _ _ => false) s) {d : Document}
    (hw : ((attr ⟨name, some v⟩ s).2.view 0).Within d) (z : NodeId) (c : Content) :
    ((d.children (attr ⟨name, some v⟩ s).1).any fun value => z == value ||
      (d.children value).contains z) =
      between s.slots.size (attr ⟨name, some v⟩ s).1 z c := by
  obtain ⟨hlast, hattr, hvalue⟩ := children_attr name v hs hw
  rw [hattr, List.any_cons, List.any_nil, Bool.or_false, hvalue, hlast,
    Bool.eq_iff_iff, Layout.between]
  simp only [Bool.or_eq_true, beq_iff_eq, List.contains_iff_mem, List.mem_range'_1,
    Bool.and_eq_true, decide_eq_true_eq]
  have hnat (lo k m : Nat) : m = lo + k ∨ lo ≤ m ∧ m < lo + k ↔ lo ≤ m ∧ m < lo + k + 1 := by omega
  exact hnat _ _ _

theorem Layout.prunesTo_tagFront (before : List Piece) (name : List Char) (front : List TagPart) :
    let f := tagFront name front (pieces true before .empty).2
    f.2.PrunesTo (.unplaced fun _ _ => false) f.2 ∧
    (f.2.view 0).Refers (fun _ _ => false) f.1.2.2.2 f.1.2.2.2 := by
  have hspares (s : Draft) : (Pruning.unplaced fun _ _ => false).Spares s :=
    fun _ c _ => (Bool.and_false c.isBlank).symm
  exact (follows_bind (follows_pieces (hspares .empty) (forall₂_renamed_none before))
    (fun s _ _ _ _ => follows_tagFront (hspares s) name front) _ _ (.refl _)
      (Draft.prunesTo_empty _)).2

/-- Laying out one attribute without its value gives the document without that value, up to
places. -/
theorem Document.ofPieces_bare {t : OpenTag} {front back : List TagPart}
    {name : List Char} {v : Value} (hparts : t.parts = front ++ .attr ⟨name, some v⟩ :: back)
    (before after : List Piece) {x : NodeId}
    (hx : x =
      (Layout.attr ⟨name, some v⟩
        (Layout.tagFront t.name front (Layout.pieces true before .empty).2).2).1) :
    (Document.ofPieces true (before ++
      .openTag { t with parts := front ++ .attr ⟨name, none⟩ :: back } :: after)).unplaced =
      ((Document.ofPieces true (before ++ .openTag t :: after)).dropValue x).unplaced := by
  -- Up to the attribute both layouts are the same.
  let f := Layout.tagFront t.name front (Layout.pieces true before .empty).2
  obtain ⟨hs, hf⟩ := Layout.prunesTo_tagFront before t.name front
  -- From the attribute on the second one lacks the value.
  obtain ⟨hattr, hid, hbehind⟩ := Layout.dropped_attr name v hs
  have hx : x = (Layout.attr ⟨name, some v⟩ f.2).1 := hx
  rw [← hx] at hattr hid hbehind
  have hfront : ((Layout.attr ⟨name, some v⟩ f.2).2.view 0).Refers (Layout.between f.2.slots.size x)
      f.1.2.2.2 f.1.2.2.2 := by
    refine Refers.mono (hf.congr fun z _ hz => ?_) ((Layout.adds_attr ⟨name, some v⟩).within f.2)
    rw [Layout.between, decide_eq_false (Nat.not_le_of_lt (show z < f.2.slots.size from hz)),
      Bool.false_and]
  obtain ⟨hw, hdraft, hroot⟩ :=
    Layout.follows_tagRest hbehind t back after hfront hid _ _ (.refl _) hattr
  let d := Document.ofPieces true (before ++ .openTag t :: after)
  let d' := Document.ofPieces true
    (before ++ .openTag { t with parts := front ++ .attr ⟨name, none⟩ :: back } :: after)
  let rest := Layout.tagRest t back after f.1 x (Layout.attr ⟨name, some v⟩ f.2).2
  let rest' := Layout.tagRest t back after f.1 (Layout.attr ⟨name, none⟩ f.2).1
    (Layout.attr ⟨name, none⟩ f.2).2
  have hd : d = ⟨rest.2.slots, rest.1⟩ := by
    simp only [rest, hx]
    exact ofPieces_split hparts before after
  have hd' : d' = ⟨rest'.2.slots, rest'.1⟩ := ofPieces_split rfl before after
  have hnodes : d.PrunesTo (fun _ => .start) (Content.relocate fun _ => .start)
      (Layout.between f.2.slots.size x) d' := by
    rw [hd, hd', ← Pruning.look_unplaced (Layout.between f.2.slots.size x)]
    exact ⟨hdraft.nodes.size, hdraft.nodes.slots, hdraft.nodes.tabled⟩
  have hnewRoot : d.newId? (Layout.between f.2.slots.size x) d.root = some d'.root := by
    rw [hd, hd']
    exact hroot
  have hwithin : ((Layout.attr ⟨name, some v⟩ f.2).2.view 0).Within d := by
    rw [hd]
    exact ⟨hw.size, hw.kept⟩
  have hdrop : d.dropValue x = d.prune (Layout.between f.2.slots.size x) := by
    refine prune_congr fun z c _ => ?_
    rw [hx]
    exact Layout.between_eq name v hs hwithin z c
  change d'.unplaced = (d.dropValue x).unplaced
  rw [hdrop]
  exact hnodes.seen_eq (by rw [hnewRoot, Option.getD_some])

end TemplateLint
