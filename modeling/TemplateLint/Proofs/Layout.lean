import TemplateLint.Proofs.Stretch

/-!
# Layouts

What each step of a layout does to a draft. A sound draft is a forest whose tops and loose tokens
are stretches; where blanks are kept, they form a run from the start of the text to the place
reached. Main statements: one spec for every kind of tag (`lays_openTag`, `lays_closeTag`, ..), from
those of its parts.
-/

namespace TemplateLint

open Markup Stretch

variable {keep : Bool} {root : NodeId}

/-! ## Sound drafts -/

namespace Draft

/-- The stretches `run` are all that the draft holds, in order of the text. -/
structure Sound (keep : Bool) (root : NodeId) (d : Draft) (run : List Stretch) : Prop where
  forest : (d.view root).Forest (nodes run)
  exact : keep = true → (d.view root).Exact ∧ (d.view root).Runs .start run ∧
    d.here = Position.start.advance (spelled run)

theorem sound_empty (keep : Bool) (root : NodeId) : Draft.empty.Sound keep root [] := by
  have hget (id : NodeId) : (Draft.empty.view root).get? id = none := by
    simp [Document.get?, view, empty]
  have hparent (id : NodeId) : (Draft.empty.view root).parent? id = none := by
    simp [Document.parent?, view, empty]
  have hchildren (id : NodeId) : (Draft.empty.view root).children id = [] := by
    simp [Document.children, hget]
  refine ⟨⟨List.nodup_nil, ?_, ?_, ?_, ?_⟩, ?_⟩
  · simp [nodes, Document.isLive, hget]
  · simp [hchildren, hparent]
  · simp [hchildren]
  · exact ⟨fun _ => 0, by simp [Document.isLive, hget], by simp [hchildren]⟩
  · intro _
    exact ⟨by simp [Document.Exact, hget], trivial, rfl⟩

theorem Sound.congr {d d' : Draft} {run : List Stretch} (h : d.Sound keep root run)
    (hslots : d'.slots = d.slots) (hhere : keep = true → d'.here = d.here) :
    d'.Sound keep root run := by
  have hview : d'.view root = d.view root := by rw [view, view, hslots]
  refine ⟨by rw [hview]; exact h.forest, ?_⟩
  intro hkeep
  rw [hview, hhere hkeep]
  exact h.exact hkeep

theorem Sound.push {d : Draft} {before inside after : List Stretch}
    {location : Location} {content : Content} (h : d.Sound keep root (before ++ inside ++ after))
    (hitems : content.items = inside.map item)
    (hloc : keep = true → location = ⟨Position.start.advance (spelled before),
      Position.start.advance (spelled (before ++ inside))⟩) :
    (d.push location content).2.Sound keep root
      (before ++ [⟨.child (d.push location content).1, spelled inside⟩] ++ after) := by
  have hgrow := Document.grows_push root d location content
  have hf := h.forest
  rw [nodes_append, nodes_append] at hf
  have hf' := hf.grow hgrow (nodes_of_items hitems.symm).symm
  have hold (run : List Stretch) (hrun : ∀ id ∈ nodes run, (d.view root).isLive id = true) :
      ∀ id ∈ nodes run, ((d.push location content).2.view root).get? id = (d.view root).get? id ∧
        ((d.push location content).2.view root).text id = (d.view root).text id := by
    intro id hid
    have hne : id ≠ d.slots.size := Document.ne_size_of_isLive (hrun id hid)
    exact ⟨hgrow.get?_old hne, hf.text_grow hgrow hf'.grounded hne⟩
  have hlive (id : NodeId) (hid : id ∈ nodes before ++ nodes inside ++ nodes after) :
      (d.view root).isLive id = true := ((hf.mem_tops id).mp hid).1
  refine ⟨by rw [nodes_append, nodes_append]; exact hf', ?_⟩
  intro hkeep
  obtain ⟨hexact, hruns, hhere⟩ := h.exact hkeep
  obtain rfl := hloc hkeep
  rw [Document.runs_append, Document.runs_append] at hruns
  obtain ⟨⟨hbefore, hinside⟩, hafter⟩ := hruns
  have hstop : Position.start.advance (spelled (before ++ inside)) =
      (Position.start.advance (spelled before)).advance (spelled inside) := by
    rw [spelled_append, Position.advance_append]
  have hspelled (id : NodeId) : spelled (before ++ [⟨.child id, spelled inside⟩]) =
      spelled (before ++ inside) := by
    simp
  refine ⟨?_, ?_, ?_⟩
  · exact hexact.grow hf hgrow hf'.grounded hitems.symm
      (fun id hid => hlive id (by simp [hid])) hinside hstop
  · rw [Document.runs_append, Document.runs_append]
    refine ⟨⟨hbefore.congr (hold before fun id hid => hlive id (by simp [hid])),
      ⟨⟨?_, ?_⟩, trivial⟩⟩, ?_⟩
    · simp only [Document.place, Document.location?]
      rw [← hstop]
      exact congrArg (Option.map Node.location) hgrow.get?_new
    · have hinside' := hinside.congr (hold inside fun id hid => hlive id (by simp [hid]))
      exact hf'.grounded.text_of_runs hgrow.get?_new hitems.symm hinside'
    · rw [hspelled]
      exact hafter.congr (hold after fun id hid => hlive id (by simp [hid]))
  · change d.here = _
    rw [hhere]
    simp

end Draft

/-! ## Steps -/

/-- From `d`, which holds `run`, some items were laid out that spell `text`, and `d'` was
reached. -/
structure Spread (keep : Bool) (root : NodeId) (d : Draft) (run : List Stretch) (d' : Draft)
    (items : List Item) (text : List Char) : Prop where
  sound : ∃ more, d'.Sound keep root (run ++ more) ∧ more.map item = items ∧
    (keep = true → spelled more = text)
  openElements : d'.openElements = d.openElements
  top : d'.top = d.top

/-- A step lays out the items of its result, which spell `text`. -/
def Lays {α : Type} (keep : Bool) (root : NodeId) (step : Layout α) (items : α → List Item)
    (text : List Char) : Prop :=
  ∀ d run, d.Sound keep root run → Spread keep root d run (step d).2 (items (step d).1) text

abbrev LaysNode (keep : Bool) (root : NodeId) (step : Layout NodeId) (text : List Char) : Prop :=
  Lays keep root step (fun id => [.child id]) text

abbrev LaysNodes (keep : Bool) (root : NodeId) (step : Layout (List NodeId))
    (text : List Char) : Prop :=
  Lays keep root step (fun ids => ids.map .child) text

namespace Spread

variable {d d' : Draft} {run : List Stretch} {items : List Item} {text : List Char}

theorem refl (h : d.Sound keep root run) : Spread keep root d run d [] [] :=
  ⟨⟨[], by simpa using h, rfl, fun _ => rfl⟩, rfl, rfl⟩

theorem next {α : Type} {step : Layout α} {more : α → List Item} {text' : List Char}
    (h : Spread keep root d run d' items text) (hstep : Lays keep root step more text') :
    Spread keep root d run (step d').2 (items ++ more (step d').1) (text ++ text') := by
  obtain ⟨⟨first, hfirst, hitems, htext⟩, helements, htop⟩ := h
  obtain ⟨⟨second, hsecond, hitems', htext'⟩, helements', htop'⟩ := hstep d' (run ++ first) hfirst
  refine ⟨⟨first ++ second, ?_, ?_, ?_⟩, helements'.trans helements, htop'.trans htop⟩
  · rw [← List.append_assoc]; exact hsecond
  · rw [List.map_append, hitems, hitems']
  · intro hkeep
    rw [spelled_append, htext hkeep, htext' hkeep]

theorem node {content : Content} (h : Spread keep root d run d' items text)
    (hd : d.Sound keep root run) (hitems : content.items = items) :
    Spread keep root d run (Layout.node d.here content d').2
      [.child (Layout.node d.here content d').1] text := by
  obtain ⟨⟨more, hmore, hmap, htext⟩, helements, htop⟩ := h
  rw [← List.append_nil (run ++ more)] at hmore
  have hloc (hkeep : keep = true) : (⟨d.here, d'.here⟩ : Location) =
      ⟨Position.start.advance (spelled run), Position.start.advance (spelled (run ++ more))⟩ := by
    rw [(hd.exact hkeep).2.2, (hmore.exact hkeep).2.2, List.append_nil]
  have hpush := hmore.push (hitems.trans hmap.symm) hloc
  rw [List.append_nil] at hpush
  refine ⟨⟨[⟨.child (Layout.node d.here content d').1, spelled more⟩], hpush, rfl, ?_⟩,
    helements, htop⟩
  intro hkeep
  simp [htext hkeep]

theorem exists_node {id : NodeId} (h : Spread keep root d run d' [.child id] text) :
    ∃ t, d'.Sound keep root (run ++ [⟨.child id, t⟩]) ∧ (keep = true → t = text) := by
  obtain ⟨⟨more, hmore, hitems, htext⟩, -, -⟩ := h
  obtain ⟨⟨i, t⟩, rfl, rfl⟩ := List.map_eq_singleton_iff.mp hitems
  refine ⟨t, hmore, ?_⟩
  intro hkeep
  simpa using htext hkeep

end Spread

namespace Layout

theorem lays_token (text : List Char) : Lays keep root (token text) (fun t => [.token t]) text := by
  intro d run h
  refine ⟨⟨[⟨.token (token text d).1, text⟩], ⟨?_, ?_⟩, rfl, fun _ => by simp⟩, rfl, rfl⟩
  · have hnodes : nodes (run ++ [⟨.token (token text d).1, text⟩]) = nodes run := by
      simp [nodes, Item.child?]
    rw [hnodes]
    exact h.forest
  · intro hkeep
    obtain ⟨hexact, hruns, hhere⟩ := h.exact hkeep
    refine ⟨hexact, ?_, ?_⟩
    · rw [Document.runs_append]
      refine ⟨hruns, ⟨?_, ?_⟩, trivial⟩
      · rw [← hhere]; rfl
      · simp [Item.text, token, Token.chars]
    · rw [spelled_append, Position.advance_append, ← hhere]
      simp [token]

/-! ## Tags and their parts -/

theorem lays_erb (e : Erb) : LaysNode keep root (erb e) e.text := by
  intro d run h
  have hparts :=
    (((Spread.refl h).next (lays_token e.opening.text)).next (lays_token e.content)).next
    (lays_token e.closing)
  exact hparts.node h rfl

theorem lays_valuePart (part : ValuePart) : LaysNode keep root (valuePart part) part.text := by
  cases part with
  | literal text =>
    intro d run h
    exact ((Spread.refl h).next (lays_token text)).node h rfl
  | erb e => exact lays_erb e

theorem lays_valueParts (parts : List ValuePart) :
    LaysNodes keep root (valueParts parts) (parts.flatMap ValuePart.text) := by
  induction parts with
  | nil =>
    intro d run h
    exact Spread.refl h
  | cons part rest ih =>
    intro d run h
    rw [List.flatMap_cons]
    exact ((Spread.refl h).next (lays_valuePart part)).next ih

theorem lays_quoteMark (quote : Option Quote) :
    Lays keep root (quoteMark quote) (fun mark => mark.toList.map .token)
      (quote.map Quote.char).toList := by
  cases quote with
  | none =>
    intro d run h
    exact Spread.refl h
  | some quote =>
    intro d run h
    exact lays_token [quote.char] d run h

theorem lays_value (v : Value) : LaysNode keep root (value v) v.text := by
  intro d run h
  have hparts :=
    (((Spread.refl h).next (lays_quoteMark v.quote)).next (lays_valueParts v.parts)).next
    (lays_quoteMark v.quote)
  exact hparts.node h rfl

theorem lays_attr (a : Attribute) : LaysNode keep root (attr a) a.text := by
  intro d run h
  have hname := (Spread.refl h).next (lays_token a.name)
  rw [attr, Attribute.text]
  cases a.value with
  | none => exact hname.node h rfl
  | some v =>
    have hparts := (hname.next (lays_token ['='])).next (lays_value v)
    have htext : a.name ++ '=' :: v.text = [] ++ a.name ++ ['='] ++ v.text := by simp
    simp only [htext]
    exact hparts.node h rfl

theorem lays_tagPart (part : TagPart) : LaysNodes keep root (tagPart keep part) part.text := by
  cases part with
  | blank text =>
    intro d run h
    cases keep with
    | true => exact ((Spread.refl h).next (lays_token text)).node h rfl
    | false =>
      refine ⟨⟨[], ?_, rfl, by simp⟩, rfl, rfl⟩
      rw [List.append_nil]
      exact h.congr rfl (by simp)
  | erb e => exact lays_erb e
  | attr a => exact lays_attr a

theorem lays_tagParts (parts : List TagPart) :
    LaysNodes keep root (tagParts keep parts) (parts.flatMap TagPart.text) := by
  induction parts with
  | nil =>
    intro d run h
    exact Spread.refl h
  | cons part rest ih =>
    intro d run h
    have hparts := ((Spread.refl h).next (lays_tagPart part)).next ih
    rw [List.nil_append, ← List.map_append] at hparts
    exact hparts

theorem lays_openTag (t : OpenTag) : LaysNode keep root (openTag keep t) t.text := by
  intro d run h
  have hparts := ((((Spread.refl h).next (lays_token ['<'])).next (lays_token t.name)).next
    (lays_tagParts t.parts)).next (lays_token t.closing)
  exact hparts.node h rfl

theorem lays_trailing (text : List Char) :
    Lays keep root (token text)
      (fun t => (if text.isEmpty then none else some t).toList.map .token) text := by
  intro d run h
  cases text with
  | nil =>
    refine ⟨⟨[], ?_, rfl, fun _ => rfl⟩, rfl, rfl⟩
    rw [List.append_nil]
    exact h
  | cons c rest => exact lays_token (c :: rest) d run h

theorem lays_closeTag (t : CloseTag) : LaysNode keep root (closeTag t) t.text := by
  intro d run h
  have hparts := ((((Spread.refl h).next (lays_token ['<', '/'])).next (lays_token t.name)).next
    (lays_trailing t.trailing)).next (lays_token ['>'])
  have hitems (first name last : Token) (blanks : Option Token) :
      (Content.closeTag first name blanks last).items =
        [] ++ [.token first] ++ [.token name] ++ blanks.toList.map .token ++ [.token last] := by
    simp [Content.items]
  exact hparts.node h (hitems _ _ _ _)

end Layout

end TemplateLint
