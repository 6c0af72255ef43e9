import TemplateLint.Proofs.Prune
import TemplateLint.Proofs.Renaming

/-!
# Layouts that leave out nodes

The same pieces are laid out twice, the second time without some of the nodes. Step by step, the
second draft is the first one pruned (`Follows`); tags may have other names in it. Main statements:
the second document is the first one pruned (`seen_ofPieces`), so without blanks only these are
missing (`ofPieces_eq_prune`).
-/

namespace TemplateLint

open Markup Text

def Content.isBlank : Content → Bool
  | whitespace _ => true
  | _ => false

/-- How a second layout differs: its places, its names, what it leaves out and whether it keeps
blanks. -/
structure Pruning where
  move : Position → Position
  move_advance : ∀ {p p' : Position} (text : List Char), move p' = move p →
    move (p'.advance text) = move (p.advance text)
  names : Renaming
  key : List Char → List Char
  renames : ∀ {a a' : List Char}, names.opened a a' ∨ names.closed a a' →
    key a' = key a ∧ ∀ {p p' : Position}, move p' = move p →
      move (p'.advance a') = move (p.advance a)
  gone : NodeId → Content → Bool
  keep : Bool

namespace Pruning

def look (π : Pruning) (c : Content) : Content := (c.relocate π.move).mapName π.key

theorem look_eq {π : Pruning} {c c' : Content} (h : c'.relocate π.move = c.relocate π.move) :
    π.look c' = π.look c := by
  rw [look, look, h]

def named (move : Position → Position)
    (hmove : ∀ {p p' : Position} (text : List Char), move p' = move p →
      move (p'.advance text) = move (p.advance text))
    (gone : NodeId → Content → Bool) (keep : Bool) : Pruning where
  move := move
  move_advance := hmove
  names := .none
  key := fun name => name
  renames := by
    rintro a a' (rfl | rfl) <;> exact ⟨rfl, hmove a⟩
  gone := gone
  keep := keep

end Pruning

/-! ## Ids -/

/-- The second ids are the first ones pruned, all of which are in the document. -/
structure Document.Refers (gone : NodeId → Content → Bool) (d : Document)
    (ids ids' : List NodeId) : Prop where
  lt : ∀ x ∈ ids, x < d.slots.size
  eq : ids' = ids.filterMap (d.newId? gone)

namespace Document.Refers

variable {gone : NodeId → Content → Bool} {d d' : Document}
  {ids ids' more more' : List NodeId} {x x' : NodeId}

theorem nil : d.Refers gone [] [] := ⟨by simp, rfl⟩

theorem singleton (h : d.newId? gone x = some x') : d.Refers gone [x] [x'] :=
  ⟨by simpa using lt_size_of_newId? h, by simp [h]⟩

theorem append (h : d.Refers gone ids ids') (h' : d.Refers gone more more') :
    d.Refers gone (ids ++ more) (ids' ++ more') := by
  refine ⟨fun x hx => ?_, by rw [h.eq, h'.eq, List.filterMap_append]⟩
  rcases List.mem_append.mp hx with hx | hx
  · exact h.lt x hx
  · exact h'.lt x hx

theorem push {ids ids' : Array NodeId} (h : d.Refers gone ids.toList ids'.toList)
    (hx : d.newId? gone x = some x') :
    d.Refers gone (ids.push x).toList (ids'.push x').toList := by
  rw [Array.toList_push, Array.toList_push]
  exact h.append (singleton hx)

theorem appendArray {ids ids' more more' : Array NodeId} (h : d.Refers gone ids.toList ids'.toList)
    (h' : d.Refers gone more.toList more'.toList) :
    d.Refers gone (ids ++ more).toList (ids' ++ more').toList := by
  rw [Array.toList_append, Array.toList_append]
  exact h.append h'

theorem mono (h : d.Refers gone ids ids') (hw : d.Within d') : d'.Refers gone ids ids' := by
  refine ⟨fun x hx => Nat.lt_of_lt_of_le (h.lt x hx) hw.size, ?_⟩
  rw [h.eq]
  exact List.filterMap_congr fun x hx => (hw.newId?_eq (h.lt x hx)).symm

end Document.Refers

theorem Document.Within.newId?_mono {gone : NodeId → Content → Bool}
    {d d' : Document} {x x' : NodeId} (hw : d.Within d') (h : d.newId? gone x = some x') :
    d'.newId? gone x = some x' := by
  rw [hw.newId?_eq (lt_size_of_newId? h), h]

/-! ## Contents -/

/-- The second content is the first one pruned, as far as it counts. -/
structure Content.PrunesTo (π : Pruning) (d : Document) (c c' : Content) : Prop where
  lt : ∀ x ∈ c.children, x < d.slots.size
  content : π.look c' = π.look (c.prune (d.newId? π.gone))
  children : c'.children = c.children.filterMap (d.newId? π.gone)

namespace Content.PrunesTo

variable {π : Pruning} {d d' : Document} {c c' : Content}

theorem mono (h : c.PrunesTo π d c') (hw : d.Within d') : c.PrunesTo π d' c' := by
  have heq : ∀ x ∈ c.children, d'.newId? π.gone x = d.newId? π.gone x :=
    fun x hx => hw.newId?_eq (h.lt x hx)
  refine ⟨fun x hx => Nat.lt_of_lt_of_le (h.lt x hx) hw.size, ?_, ?_⟩
  · rw [h.content, Content.prune_congr heq]
  · rw [h.children, List.filterMap_congr heq]

theorem leaf (hc : c.prune (d.newId? π.gone) = c) (hchildren : c.children = [])
    (h : c'.relocate π.move = c.relocate π.move) : c.PrunesTo π d c' := by
  have hchildren' : c'.children = [] := by
    rw [← Content.children_relocate π.move, h, Content.children_relocate, hchildren]
  exact ⟨by simp [hchildren], by rw [π.look_eq h, hc], by
    rw [hchildren', hchildren, List.filterMap_nil]⟩

theorem document {ids ids' : List NodeId} (h : d.Refers π.gone ids ids') :
    (Content.document ids).PrunesTo π d (.document ids') :=
  ⟨h.lt, by rw [h.eq]; rfl, h.eq⟩

theorem element {first first' : NodeId} {body body' : List NodeId}
    {last last' : Option NodeId} (isVoid : Bool) (hfirst : d.newId? π.gone first = some first')
    (hbody : d.Refers π.gone body body') (hlast : d.Refers π.gone last.toList last'.toList) :
    (Content.element first body last isVoid).PrunesTo π d (.element first' body' last' isVoid) := by
  have hlast' : last' = last.bind (d.newId? π.gone) := by
    have heq := hlast.eq
    cases last <;> cases last' <;> simp_all [Option.toList, List.filterMap_cons]
    · split at heq <;> simp_all
    · split at heq <;> simp_all
  have hall := ((Document.Refers.singleton hfirst).append hbody).append hlast
  refine ⟨hall.lt, ?_, hall.eq⟩
  simp only [Content.prune, hfirst, Option.getD_some, hbody.eq, hlast']

theorem openTag {opening name closing opening' name' closing' : Token} {ids ids' : List NodeId}
    (hopening : opening'.relocate π.move = opening.relocate π.move)
    (hname : (name'.relocate π.move).mapChars π.key = (name.relocate π.move).mapChars π.key)
    (hclosing : closing'.relocate π.move = closing.relocate π.move) (h : d.Refers π.gone ids ids') :
    (Content.openTag opening name ids closing).PrunesTo π d
      (.openTag opening' name' ids' closing') := by
  refine ⟨h.lt, ?_, h.eq⟩
  simp only [Pruning.look, Content.relocate, Content.mapName, Content.prune, hopening,
    hname, hclosing, h.eq]

theorem closeTag {opening name closing opening' name' closing' : Token}
    {trailing trailing' : Option Token}
    (hopening : opening'.relocate π.move = opening.relocate π.move)
    (hname : (name'.relocate π.move).mapChars π.key = (name.relocate π.move).mapChars π.key)
    (htrailing : trailing'.map (Token.relocate π.move) = trailing.map (Token.relocate π.move))
    (hclosing : closing'.relocate π.move = closing.relocate π.move) :
    (Content.closeTag opening name trailing closing).PrunesTo π d
      (.closeTag opening' name' trailing' closing') := by
  refine ⟨by simp [Content.children], ?_, rfl⟩
  simp only [Pruning.look, Content.relocate, Content.mapName, Content.prune, hopening,
    hname, htrailing, hclosing]

theorem attr {name name' : Token} {equals equals' : Token} {value value' : NodeId}
    (hname : name'.relocate π.move = name.relocate π.move)
    (hequals : equals'.relocate π.move = equals.relocate π.move)
    (hvalue : d.newId? π.gone value = some value') :
    (Content.attr name (some equals) (some value)).PrunesTo π d
      (.attr name' (some equals') (some value')) := by
  have hrefers := Document.Refers.singleton hvalue
  refine ⟨hrefers.lt, π.look_eq ?_, hrefers.eq⟩
  simp only [Content.prune, hvalue, Content.relocate, hname, hequals, Option.map_some]

theorem attrValue {openQuote openQuote' closeQuote closeQuote' : Option Token}
    {ids ids' : List NodeId}
    (hopen : openQuote'.map (Token.relocate π.move) = openQuote.map (Token.relocate π.move))
    (hclose : closeQuote'.map (Token.relocate π.move) = closeQuote.map (Token.relocate π.move))
    (h : d.Refers π.gone ids ids') :
    (Content.attrValue openQuote ids closeQuote).PrunesTo π d
      (.attrValue openQuote' ids' closeQuote') :=
  ⟨h.lt, π.look_eq (by simp only [Content.relocate, Content.prune, hopen, hclose, h.eq]), h.eq⟩

end Content.PrunesTo

/-! ## Drafts -/

structure OpenElement.PrunesTo (π : Pruning) (d : Document) (e e' : OpenElement) : Prop where
  name : π.names.Letters e.name e'.name
  start : π.move e'.start = π.move e.start
  openTag : d.newId? π.gone e.openTag = some e'.openTag
  body : d.Refers π.gone e.body.toList e'.body.toList

theorem OpenElement.PrunesTo.mono {π : Pruning} {d d' : Document} {e e' : OpenElement}
    (h : e.PrunesTo π d e') (hw : d.Within d') : e.PrunesTo π d' e' :=
  ⟨h.name, h.start, hw.newId?_mono h.openTag, h.body.mono hw⟩

structure Draft.PrunesTo (π : Pruning) (s s' : Draft) : Prop where
  here : π.move s'.here = π.move s.here
  nodes : (s.view 0).PrunesTo π.move π.look π.gone (s'.view 0)
  openElements : List.Forall₂ (OpenElement.PrunesTo π (s.view 0)) s.openElements s'.openElements
  top : (s.view 0).Refers π.gone s.top.toList s'.top.toList

/-- From the draft `s` on, nothing goes but blanks that are not kept. -/
def Pruning.Spares (π : Pruning) (s : Draft) : Prop :=
  ∀ x c, s.slots.size ≤ x → π.gone x c = (c.isBlank && !π.keep)

theorem Pruning.Spares.mono {π : Pruning} {s s' : Draft} (h : π.Spares s)
    (hw : (s.view 0).Within (s'.view 0)) :
    π.Spares s' := fun x c hx => h x c (Nat.le_trans hw.size hx)

namespace Draft.PrunesTo

variable {π : Pruning} {s s' : Draft} {location location' : Location} {c c' : Content}

theorem push (h : s.PrunesTo π s') (hkept : π.gone s.slots.size c = false)
    (hlocation : location'.relocate π.move = location.relocate π.move)
    (hcontent : c.PrunesTo π (s.view 0) c') :
    (s.push location c).2.PrunesTo π (s'.push location' c').2 ∧
      ((s.push location c).2.view 0).newId? π.gone (s.push location c).1 =
        some (s'.push location' c').1 := by
  have hg := Document.grows_push 0 s location c
  have hg' := Document.grows_push 0 s' location' c'
  obtain ⟨hnodes, hid⟩ :=
    h.nodes.grow hg hg' hkept hcontent.lt hlocation hcontent.content hcontent.children
  exact ⟨⟨h.here, hnodes, h.openElements.imp fun _ _ he => he.mono hg.within,
    h.top.mono hg.within⟩, hid⟩

theorem push_gone (h : s.PrunesTo π s') (location : Location) (hgone : π.gone s.slots.size c = true)
    (hkids : ∀ x ∈ c.children, x < s.slots.size ∧ (s.view 0).newId? π.gone x = none) :
    (s.push location c).2.PrunesTo π s' ∧
      ((s.push location c).2.view 0).Refers π.gone [(s.push location c).1] [] := by
  have hg := Document.grows_push 0 s location c
  refine ⟨⟨h.here, h.nodes.grow_gone hg hgone hkids,
    h.openElements.imp fun _ _ he => he.mono hg.within, h.top.mono hg.within⟩, ?_, ?_⟩
  · rw [List.forall_mem_singleton, hg.size]
    exact Nat.lt_succ_self _
  · have hnone : ((s.push location c).2.view 0).newId? π.gone (s.push location c).1 = none := by
      apply if_neg
      have hgone' : π.gone (s.view 0).slots.size c = true := hgone
      rw [Document.isKept, hg.slots, show (s.push location c).1 =
        (s.view 0).slots.size from rfl, if_pos rfl]
      simp [hgone']
    rw [List.filterMap_cons_none hnone, List.filterMap_nil]

end Draft.PrunesTo

/-! ## Steps -/

/-- From a draft and the same one pruned, the steps come to such drafts, and to results in `R`. -/
def Follows {α β : Type} (π : Pruning) (s₀ : Draft) (R : Document → α → β → Prop)
    (m : Layout α) (m' : Layout β) :
    Prop :=
  ∀ s s', (s₀.view 0).Within (s.view 0) → s.PrunesTo π s' →
    (s.view 0).Within ((m s).2.view 0) ∧ (m s).2.PrunesTo π (m' s').2 ∧
    R ((m s).2.view 0) (m s).1 (m' s').1

namespace Layout

variable {π : Pruning} {s₀ : Draft} {α β γ δ : Type} {R : Document → α → β → Prop}
  {S : Document → γ → δ → Prop}

theorem follows_bind {m : Layout α} {m' : Layout β} {f : α → Layout γ} {f' : β → Layout δ}
    (h : Follows π s₀ R m m')
    (hf : ∀ s a b, (s₀.view 0).Within (s.view 0) → R (s.view 0) a b → Follows π s S (f a) (f' b)) :
    Follows π s₀ S (m >>= f) (m' >>= f') := by
  intro s s' hw hs
  obtain ⟨hw₁, hs₁, hr⟩ := h s s' hw hs
  obtain ⟨hw₂, hs₂, hr₂⟩ := hf _ _ _ (hw.trans hw₁) hr _ _ (.refl _) hs₁
  exact ⟨hw₁.trans hw₂, hs₂, hr₂⟩

theorem follows_pure {a : α} {b : β}
    (h : ∀ s : Draft, (s₀.view 0).Within (s.view 0) → R (s.view 0) a b) :
    Follows π s₀ R (pure a : Layout α) (pure b : Layout β) :=
  fun s _ hw hs => ⟨.refl _, hs, h s hw⟩

theorem follows_here : Follows π s₀ (fun _ p p' => π.move p' = π.move p) here here :=
  fun _ _ _ hs => ⟨.refl _, hs, hs.here⟩

theorem follows_get :
    Follows π s₀ (fun d s s' => d = s.view 0 ∧ s.PrunesTo π s') (get : Layout Draft)
      (get : Layout Draft) :=
  fun _ _ _ hs => ⟨.refl _, hs, rfl, hs⟩

theorem follows_token (text : List Char) :
    Follows π s₀ (fun _ t t' => t'.relocate π.move = t.relocate π.move)
      (token text) (token text) := by
  intro s s' _ hs
  have hstop := π.move_advance text hs.here
  refine ⟨.refl _, ⟨hstop, hs.nodes, hs.openElements, hs.top⟩, ?_⟩
  simp only [token, Token.relocate, Location.relocate, hs.here, hstop]

theorem follows_name {a a' : List Char} (h : π.names.opened a a' ∨ π.names.closed a a') :
    Follows π s₀ (fun _ t t' => (t'.relocate π.move).mapChars π.key =
      (t.relocate π.move).mapChars π.key) (token a)
      (token a') := by
  obtain ⟨hkey, hmove⟩ := π.renames h
  intro s s' _ hs
  have hstop := hmove hs.here
  refine ⟨.refl _, ⟨hstop, hs.nodes, hs.openElements, hs.top⟩, ?_⟩
  simp only [token, Token.relocate, Token.mapChars, Token.chars, String.toList_ofList,
    Location.relocate, hs.here, hstop, hkey]

theorem follows_node (hspares : π.Spares s₀) {start start' : Position} {c c' : Content}
    (hstart : π.move start' = π.move start) (hblank : c.isBlank = false)
    (h : c.PrunesTo π (s₀.view 0) c') :
    Follows π s₀ (fun d id id' => d.newId? π.gone id = some id') (node start c)
      (node start' c') := by
  intro s s' hw hs
  have hkept : π.gone s.slots.size c = false := by
    rw [show π.gone s.slots.size c = _ from hspares _ c hw.size, hblank, Bool.false_and]
  have hlocation : Location.relocate π.move ⟨start', s'.here⟩ =
      Location.relocate π.move ⟨start, s.here⟩ := by
    simp only [Location.relocate, hstart, hs.here]
  obtain ⟨hpush, hid⟩ := hs.push hkept hlocation (h.mono hw)
  exact ⟨(Document.grows_push 0 s _ c).within, hpush, hid⟩

/-! ## Tags and their parts -/

theorem follows_erb (hspares : π.Spares s₀) (e : Erb) :
    Follows π s₀ (fun d id id' => d.newId? π.gone id = some id') (erb e) (erb e) := by
  refine follows_bind follows_here fun s₁ start start' hw₁ hstart => ?_
  refine follows_bind (follows_token _) fun s₂ opening opening' hw₂ hopening => ?_
  refine follows_bind (follows_token _) fun s₃ content content' hw₃ hcontent => ?_
  refine follows_bind (follows_token _) fun s₄ closing closing' hw₄ hclosing => ?_
  apply follows_node (hspares.mono (((hw₁.trans hw₂).trans hw₃).trans hw₄)) hstart rfl
  exact .leaf rfl rfl (by simp only [Content.relocate, hopening, hcontent, hclosing])

theorem follows_valuePart (hspares : π.Spares s₀) (part : ValuePart) :
    Follows π s₀ (fun d id id' => d.newId? π.gone id = some id') (valuePart part)
      (valuePart part) := by
  cases part with
  | erb e => exact follows_erb hspares e
  | literal text =>
    refine follows_bind follows_here fun s₁ start start' hw₁ hstart => ?_
    refine follows_bind (follows_token _) fun s₂ content content' hw₂ hcontent => ?_
    apply follows_node (hspares.mono (hw₁.trans hw₂)) hstart rfl
    exact .leaf rfl rfl (by simp only [Content.relocate, hcontent])

theorem follows_valueParts (hspares : π.Spares s₀) (parts : List ValuePart) :
    Follows π s₀ (fun d ids ids' => d.Refers π.gone ids ids') (valueParts parts)
      (valueParts parts) := by
  induction parts generalizing s₀ with
  | nil => exact follows_pure fun _ _ => .nil
  | cons part rest ih =>
    refine follows_bind (follows_valuePart hspares part) fun s₁ id id' hw₁ hid => ?_
    refine follows_bind (ih (hspares.mono hw₁)) fun s₂ ids ids' hw₂ hids => ?_
    exact follows_pure fun s hw =>
      (Document.Refers.singleton ((hw₂.trans hw).newId?_mono hid)).append (hids.mono hw)

theorem follows_quoteMark (quote : Option Quote) :
    Follows π s₀ (fun _ q q' => q'.map (Token.relocate π.move) = q.map (Token.relocate π.move))
      (quoteMark quote) (quoteMark quote) := by
  cases quote with
  | none => exact follows_pure fun _ _ => rfl
  | some quote =>
    refine follows_bind (follows_token _) fun s₁ mark mark' _ hmark => ?_
    exact follows_pure fun _ _ => congrArg some hmark

theorem follows_value (hspares : π.Spares s₀) (v : Value) :
    Follows π s₀ (fun d id id' => d.newId? π.gone id = some id') (value v) (value v) := by
  refine follows_bind follows_here fun s₁ start start' hw₁ hstart => ?_
  refine follows_bind (follows_quoteMark _) fun s₂ openQuote openQuote' hw₂ hopen => ?_
  have hspares₂ := hspares.mono (hw₁.trans hw₂)
  refine follows_bind (follows_valueParts hspares₂ _) fun s₃ ids ids' hw₃ hids => ?_
  refine follows_bind (follows_quoteMark _) fun s₄ closeQuote closeQuote' hw₄ hclose => ?_
  exact follows_node (hspares₂.mono (hw₃.trans hw₄)) hstart rfl
    (.attrValue hopen hclose (hids.mono hw₄))

theorem follows_attr (hspares : π.Spares s₀) (a : Attribute) :
    Follows π s₀ (fun d id id' => d.newId? π.gone id = some id') (attr a) (attr a) := by
  obtain ⟨name, v⟩ := a
  refine follows_bind follows_here fun s₁ start start' hw₁ hstart => ?_
  refine follows_bind (follows_token _) fun s₂ name name' hw₂ hname => ?_
  have hspares₂ := hspares.mono (hw₁.trans hw₂)
  cases v with
  | none =>
    apply follows_node hspares₂ hstart rfl
    exact .leaf rfl rfl (by simp only [Content.relocate, hname, Option.map_none])
  | some v =>
    refine follows_bind (follows_token _) fun s₃ equals equals' hw₃ hequals => ?_
    refine follows_bind (follows_value (hspares₂.mono hw₃) v) fun s₄ id id' hw₄ hid => ?_
    exact follows_node (hspares₂.mono (hw₃.trans hw₄)) hstart rfl (.attr hname hequals hid)

theorem follows_tagPart (hspares : π.Spares s₀) (part : TagPart) :
    Follows π s₀ (fun d ids ids' => d.Refers π.gone ids ids') (tagPart true part)
      (tagPart π.keep part) := by
  have hone {m m' : Layout NodeId}
      (h : Follows π s₀ (fun d id id' => d.newId? π.gone id = some id') m m') :
      Follows π s₀ (fun d ids ids' => d.Refers π.gone ids ids')
        (do return [← m]) (do return [← m']) :=
    follows_bind h fun _ _ _ _ hid => follows_pure fun _ hw => .singleton (hw.newId?_mono hid)
  cases part with
  | erb e => exact hone (follows_erb hspares e)
  | attr a => exact hone (follows_attr hspares a)
  | blank text =>
    refine follows_bind follows_here fun s₁ start start' hw₁ hstart => ?_
    refine follows_bind (follows_token _) fun s₂ content content' hw₂ hcontent => ?_
    have hspares₂ := hspares.mono (hw₁.trans hw₂)
    intro s s' hw hs
    have hgone : π.gone s.slots.size (.whitespace content) = !π.keep := hspares₂ _ _ hw.size
    have hgrows := (Document.grows_push 0 s ⟨start, s.here⟩ (.whitespace content)).within
    cases hkeep : π.keep with
    | true =>
      rw [hkeep] at hgone
      have hlocation : Location.relocate π.move ⟨start', s'.here⟩ =
          Location.relocate π.move ⟨start, s.here⟩ := by
        simp only [Location.relocate, hstart, hs.here]
      have hblank : (Content.whitespace content).PrunesTo π (s.view 0) (.whitespace content') :=
        .leaf rfl rfl (by simp only [Content.relocate, hcontent])
      obtain ⟨hpush, hid⟩ := hs.push hgone hlocation hblank
      exact ⟨hgrows, hpush, .singleton hid⟩
    | false =>
      rw [hkeep] at hgone
      obtain ⟨hpush, hid⟩ := hs.push_gone ⟨start, s.here⟩ hgone (by simp [Content.children])
      exact ⟨hgrows, hpush, hid⟩

theorem follows_tagParts (hspares : π.Spares s₀) (parts : List TagPart) :
    Follows π s₀ (fun d ids ids' => d.Refers π.gone ids ids') (tagParts true parts)
      (tagParts π.keep parts) := by
  induction parts generalizing s₀ with
  | nil => exact follows_pure fun _ _ => .nil
  | cons part rest ih =>
    refine follows_bind (follows_tagPart hspares part) fun s₁ ids ids' hw₁ hids => ?_
    refine follows_bind (ih (hspares.mono hw₁)) fun s₂ more more' hw₂ hmore => ?_
    exact follows_pure fun s hw => (hids.mono (hw₂.trans hw)).append (hmore.mono hw)

theorem follows_openTag (hspares : π.Spares s₀) (t : OpenTag) {name : List Char}
    (h : π.names.opened t.name name) :
    Follows π s₀ (fun d id id' => d.newId? π.gone id = some id') (openTag true t)
      (openTag π.keep { t with name }) := by
  refine follows_bind follows_here fun s₁ start start' hw₁ hstart => ?_
  refine follows_bind (follows_token _) fun s₂ opening opening' hw₂ hopening => ?_
  refine follows_bind (follows_name (Or.inl h)) fun s₃ name name' hw₃ hname => ?_
  have hspares₃ := hspares.mono ((hw₁.trans hw₂).trans hw₃)
  refine follows_bind (follows_tagParts hspares₃ _) fun s₄ ids ids' hw₄ hids => ?_
  refine follows_bind (follows_token _) fun s₅ closing closing' hw₅ hclosing => ?_
  exact follows_node (hspares₃.mono (hw₄.trans hw₅)) hstart rfl
    (.openTag hopening hname hclosing (hids.mono hw₅))

theorem follows_closeTag (hspares : π.Spares s₀) (t : CloseTag) {name : List Char}
    (h : π.names.closed t.name name) :
    Follows π s₀ (fun d id id' => d.newId? π.gone id = some id') (closeTag t)
      (closeTag { t with name }) := by
  refine follows_bind follows_here fun s₁ start start' hw₁ hstart => ?_
  refine follows_bind (follows_token _) fun s₂ opening opening' hw₂ hopening => ?_
  refine follows_bind (follows_name (Or.inr h)) fun s₃ name name' hw₃ hname => ?_
  refine follows_bind (follows_token _) fun s₄ trailing trailing' hw₄ htrailing => ?_
  refine follows_bind (follows_token _) fun s₅ closing closing' hw₅ hclosing => ?_
  apply follows_node (hspares.mono ((((hw₁.trans hw₂).trans hw₃).trans hw₄).trans hw₅)) hstart rfl
  refine .closeTag hopening hname ?_ hclosing
  cases t.trailing.isEmpty <;> simp [htrailing]

/-! ## Elements -/

theorem follows_attach {id id' : NodeId} (h : (s₀.view 0).newId? π.gone id = some id') :
    Follows π s₀ (fun _ _ _ => True) (attach id) (attach id') := by
  intro s s' hw hs
  have hid := hw.newId?_mono h
  have hopen := hs.openElements
  have hview : ((s.attach id).view 0) = s.view 0 := by
    unfold Draft.attach
    split <;> rfl
  change (s.view 0).Within ((s.attach id).view 0) ∧ (s.attach id).PrunesTo π (s'.attach id') ∧ True
  refine ⟨by rw [hview]; exact .refl _, ?_, trivial⟩
  unfold Draft.attach
  generalize s.openElements = open_ at hopen
  generalize s'.openElements = open' at hopen
  cases hopen with
  | nil => exact ⟨hs.here, hs.nodes, .nil, hs.top.push hid⟩
  | cons he hrest =>
    exact ⟨hs.here, hs.nodes, .cons ⟨he.name, he.start, he.openTag, he.body.push hid⟩ hrest, hs.top⟩

theorem follows_beginElement (hspares : π.Spares s₀) (t : OpenTag) {name : List Char}
    (h : π.names.opened t.name name) {start start' : Position}
    (hstart : π.move start' = π.move start) {tag tag' : NodeId}
    (htag : (s₀.view 0).newId? π.gone tag = some tag') :
    Follows π s₀ (fun _ _ _ => True) (beginElement t start tag)
      (beginElement { t with name } start' tag') := by
  unfold beginElement
  rw [OpenTag.opens_renamed h, OpenTag.isVoid_renamed h]
  split
  · intro s s' hw hs
    have hopen : OpenElement.PrunesTo π (s.view 0) ⟨t.lowerName, tag, start, #[]⟩
        ⟨asciiLower name, tag', start', #[]⟩ :=
      ⟨⟨_, _, h, rfl, rfl⟩, hstart, hw.newId?_mono htag, .nil⟩
    exact ⟨.refl _, ⟨hs.here, hs.nodes, .cons hopen hs.openElements, hs.top⟩, trivial⟩
  · refine follows_bind (follows_node hspares hstart rfl (.element _ htag .nil .nil))
      fun s₁ id id' _ hid => ?_
    exact follows_attach hid

theorem follows_endUnclosed (hspares : π.Spares s₀) {e e' : OpenElement}
    (he : e.PrunesTo π (s₀.view 0) e') {stop stop' : Position}
    (hstop : π.move stop' = π.move stop) :
    Follows π s₀ (fun d id id' => d.newId? π.gone id = some id') (endUnclosed e stop)
      (endUnclosed e' stop') := by
  intro s s' hw hs
  have hkept : π.gone s.slots.size (.element e.openTag e.body.toList none false) =
      false := hspares _ _ hw.size
  have hlocation : Location.relocate π.move ⟨e'.start, stop'⟩ =
      Location.relocate π.move ⟨e.start, stop⟩ := by
    simp only [Location.relocate, he.start, hstop]
  have hcontent : (Content.element e.openTag e.body.toList none false).PrunesTo π (s₀.view 0)
      (.element e'.openTag e'.body.toList none false) := .element false he.openTag he.body .nil
  obtain ⟨hpush, hid⟩ := hs.push hkept hlocation (hcontent.mono hw)
  exact ⟨(Document.grows_push 0 s _ _).within, hpush, hid⟩

theorem follows_endElements (hspares : π.Spares s₀) {b b' : List Char}
    (hb : π.names.closed b b') {tag tag' : NodeId}
    (htag : (s₀.view 0).newId? π.gone tag = some tag') {before before' : Position}
    (hbefore : π.move before' = π.move before) {inner inner' : Array NodeId}
    (hinner : (s₀.view 0).Refers π.gone inner.toList inner'.toList) {open_ open' : List OpenElement}
    (h : List.Forall₂ (OpenElement.PrunesTo π (s₀.view 0)) open_ open') :
    Follows π s₀ (fun _ _ _ => True) (endElements (asciiLower b) tag before inner open_)
      (endElements (asciiLower b') tag' before' inner' open') := by
  induction open_ generalizing s₀ inner inner' open' with
  | nil =>
    cases h
    intro s s' hw hs
    refine ⟨.refl _, ⟨hs.here, hs.nodes, .nil, ?_⟩, trivial⟩
    exact hs.top.appendArray (hinner.mono hw)
  | cons e outer ih =>
    obtain ⟨e', outer', he, houter, rfl⟩ := List.forall₂_cons_left_iff.mp h
    have hbody : OpenElement.PrunesTo π (s₀.view 0) { e with body := e.body ++ inner }
        { e' with body := e'.body ++ inner' } :=
      ⟨he.name, he.start, he.openTag, he.body.appendArray hinner⟩
    unfold endElements
    simp only [he.name.eq_iff hb]
    split
    · have hcontent : (Content.element e.openTag (e.body ++ inner).toList
          (some tag) false).PrunesTo π (s₀.view 0)
          (.element e'.openTag (e'.body ++ inner').toList (some tag') false) :=
        .element false hbody.openTag hbody.body (.singleton htag)
      refine follows_bind (follows_node hspares he.start rfl hcontent) fun s₁ id id' hw₁ hid => ?_
      refine follows_bind (R := fun _ _ _ => True) ?_ fun s₂ _ _ hw₂ _ =>
        follows_attach (hw₂.newId?_mono hid)
      intro s s' hw hs
      exact ⟨.refl _,
        ⟨hs.here, hs.nodes, houter.imp fun _ _ h => h.mono (hw₁.trans hw), hs.top⟩, trivial⟩
    · refine follows_bind (follows_endUnclosed hspares hbody hbefore) fun s₁ id id' hw₁ hid => ?_
      exact ih (hspares.mono hw₁) (hw₁.newId?_mono htag) (.singleton hid)
        (houter.imp fun _ _ h => h.mono hw₁)

theorem any_name_eq {d : Document} {open_ open' : List OpenElement}
    (h : List.Forall₂ (OpenElement.PrunesTo π d) open_ open') {b b' : List Char}
    (hb : π.names.closed b b') :
    open'.any (·.name == asciiLower b') = open_.any (·.name == asciiLower b) := by
  induction h with
  | nil => rfl
  | cons he _ ih =>
    have hhead := he.name.eq_iff hb
    rw [List.any_cons, List.any_cons, ih, Bool.eq_iff_iff]
    simp only [Bool.or_eq_true, beq_iff_eq, hhead]

theorem follows_endByTag (hspares : π.Spares s₀) (t : CloseTag) {name : List Char}
    (h : π.names.closed t.name name) {start start' : Position}
    (hstart : π.move start' = π.move start) {tag tag' : NodeId}
    (htag : (s₀.view 0).newId? π.gone tag = some tag') :
    Follows π s₀ (fun _ _ _ => True) (endByTag t start tag)
      (endByTag { t with name } start' tag') := by
  refine follows_bind follows_get fun s₁ s s' hw₁ ⟨hview, hs⟩ => ?_
  have hopen := hview ▸ hs.openElements
  rw [CloseTag.lowerName, CloseTag.lowerName, any_name_eq hopen h]
  split
  · exact follows_endElements (hspares.mono hw₁) h (hw₁.newId?_mono htag) hstart .nil hopen
  · exact follows_attach (hw₁.newId?_mono htag)

theorem follows_endAll (hspares : π.Spares s₀) {inner inner' : Array NodeId}
    (hinner : (s₀.view 0).Refers π.gone inner.toList inner'.toList) {open_ open' : List OpenElement}
    (h : List.Forall₂ (OpenElement.PrunesTo π (s₀.view 0)) open_ open') :
    Follows π s₀ (fun _ _ _ => True) (endAll inner open_) (endAll inner' open') := by
  induction open_ generalizing s₀ inner inner' open' with
  | nil =>
    cases h
    intro s s' hw hs
    refine ⟨.refl _, ⟨hs.here, hs.nodes, .nil, ?_⟩, trivial⟩
    exact hs.top.appendArray (hinner.mono hw)
  | cons e outer ih =>
    obtain ⟨e', outer', he, houter, rfl⟩ := List.forall₂_cons_left_iff.mp h
    have hbody : OpenElement.PrunesTo π (s₀.view 0) { e with body := e.body ++ inner }
        { e' with body := e'.body ++ inner' } :=
      ⟨he.name, he.start, he.openTag, he.body.appendArray hinner⟩
    refine follows_bind follows_here fun s₁ stop stop' hw₁ hstop => ?_
    refine follows_bind (follows_endUnclosed (hspares.mono hw₁) (hbody.mono hw₁) hstop)
      fun s₂ id id' hw₂ hid => ?_
    have hw := hw₁.trans hw₂
    exact ih (hspares.mono hw) (.singleton hid) (houter.imp fun _ _ h => h.mono hw)

/-! ## Pieces -/

theorem follows_threeParts (hspares : π.Spares s₀) (opening content closing : List Char)
    {make : Token → Token → Token → Content}
    (hmake : ∀ t u v, (make t u v).isBlank = false ∧ (make t u v).children = [] ∧
      (∀ newId?, (make t u v).prune newId? = make t u v) ∧
      (make t u v).relocate π.move =
        make (t.relocate π.move) (u.relocate π.move) (v.relocate π.move)) :
    Follows π s₀ (fun _ _ _ => True) (threeParts opening content closing make)
      (threeParts opening content closing make) := by
  refine follows_bind follows_here fun s₁ start start' hw₁ hstart => ?_
  refine follows_bind (follows_token _) fun s₂ first first' hw₂ hfirst => ?_
  refine follows_bind (follows_token _) fun s₃ middle middle' hw₃ hmiddle => ?_
  refine follows_bind (follows_token _) fun s₄ last last' hw₄ hlast => ?_
  have hspares₄ := hspares.mono (((hw₁.trans hw₂).trans hw₃).trans hw₄)
  obtain ⟨hblank, hchildren, hprune, hrelocate⟩ := hmake first middle last
  have hcontent : (make first middle last).PrunesTo π (s₄.view 0) (make first' middle' last') := by
    apply Content.PrunesTo.leaf (hprune _) hchildren
    rw [hrelocate, (hmake first' middle' last').2.2.2, hfirst, hmiddle, hlast]
  refine follows_bind (follows_node hspares₄ hstart hblank hcontent) fun s₅ id id' _ hid => ?_
  exact follows_attach hid

theorem follows_piece (hspares : π.Spares s₀) {p p' : Piece} (h : p.Renamed π.names p') :
    Follows π s₀ (fun _ _ _ => True) (piece true p) (piece π.keep p') := by
  cases h with
  | @openTag t name h =>
    refine follows_bind follows_here fun s₁ start start' hw₁ hstart => ?_
    refine follows_bind (follows_openTag (hspares.mono hw₁) t h) fun s₂ tag tag' hw₂ htag => ?_
    exact follows_beginElement (hspares.mono (hw₁.trans hw₂)) t h hstart htag
  | @closeTag t name h =>
    refine follows_bind follows_here fun s₁ start start' hw₁ hstart => ?_
    refine follows_bind (follows_closeTag (hspares.mono hw₁) t h) fun s₂ tag tag' hw₂ htag => ?_
    exact follows_endByTag (hspares.mono (hw₁.trans hw₂)) t h hstart htag
  | same hopen hclose =>
    cases p with
    | text content =>
      refine follows_bind follows_here fun s₁ start start' hw₁ hstart => ?_
      refine follows_bind (follows_token _) fun s₂ content content' hw₂ hcontent => ?_
      have htext : (Content.text content).PrunesTo π (s₂.view 0) (.text content') :=
        .leaf rfl rfl (by simp only [Content.relocate, hcontent])
      refine follows_bind (follows_node (hspares.mono (hw₁.trans hw₂)) hstart rfl htext)
        fun s₃ id id' _ hid => ?_
      exact follows_attach hid
    | erb e =>
      refine follows_bind (follows_erb hspares e) fun s₁ id id' _ hid => ?_
      exact follows_attach hid
    | comment content =>
      exact follows_threeParts hspares _ _ _ fun _ _ _ => ⟨rfl, rfl, fun _ => rfl, rfl⟩
    | doctype content =>
      exact follows_threeParts hspares _ _ _ fun _ _ _ => ⟨rfl, rfl, fun _ => rfl, rfl⟩
    | openTag t => exact absurd rfl (hopen t)
    | closeTag t => exact absurd rfl (hclose t)

theorem follows_pieces (hspares : π.Spares s₀) {ps ps' : List Piece}
    (h : List.Forall₂ (Piece.Renamed π.names) ps ps') :
    Follows π s₀ (fun _ _ _ => True) (pieces true ps) (pieces π.keep ps') := by
  induction h generalizing s₀ with
  | nil => exact follows_pure fun _ _ => trivial
  | cons hp _ ih =>
    exact follows_bind (follows_piece hspares hp) fun s₁ _ _ hw₁ _ => ih (hspares.mono hw₁)

def ending : Layout NodeId := do
  let d ← get
  endAll #[] d.openElements
  let d ← get
  node .start (.document d.top.toList)

theorem follows_ending (hspares : π.Spares s₀) :
    Follows π s₀ (fun d id id' => d.newId? π.gone id = some id') ending ending := by
  refine follows_bind follows_get fun s₁ s s' hw₁ ⟨hview, hs⟩ => ?_
  have hopen := hview ▸ hs.openElements
  refine follows_bind (follows_endAll (hspares.mono hw₁) .nil hopen) fun s₂ _ _ hw₂ _ => ?_
  refine follows_bind follows_get fun s₃ s s' hw₃ ⟨hview, hs⟩ => ?_
  have htop := hview ▸ hs.top
  exact follows_node (hspares.mono ((hw₁.trans hw₂).trans hw₃)) rfl rfl (.document htop)

end Layout

theorem Draft.prunesTo_empty (π : Pruning) : Draft.empty.PrunesTo π Draft.empty := by
  refine ⟨rfl, ⟨rfl, fun x hx => ?_, fun x slot hslot => ?_⟩, .nil, .nil⟩
  · simp [Document.isKept, view, empty] at hx
  · simp [view, empty] at hslot

section Documents

variable (π : Pruning) {ps ps' : List Piece}

theorem Document.prunesTo_ofPieces (hspares : ∀ s, π.Spares s)
    (h : List.Forall₂ (Piece.Renamed π.names) ps ps') :
    (Document.ofPieces true ps).PrunesTo π.move π.look π.gone (Document.ofPieces π.keep ps') ∧
      (Document.ofPieces true ps).newId? π.gone (Document.ofPieces true ps).root =
        some (Document.ofPieces π.keep ps').root := by
  have hfollows : Follows π .empty (fun d id id' => d.newId? π.gone id = some id')
      (Layout.document true ps)
      (Layout.document π.keep ps') :=
    Layout.follows_bind (Layout.follows_pieces (hspares _) h) fun s _ _ _ _ =>
      Layout.follows_ending (hspares s)
  obtain ⟨-, hdraft, hroot⟩ := hfollows _ _ (.refl _) (Draft.prunesTo_empty π)
  exact ⟨⟨hdraft.nodes.size, hdraft.nodes.slots, hdraft.nodes.tabled⟩, hroot⟩

theorem Document.seen_ofPieces (hspares : ∀ s, π.Spares s)
    (h : List.Forall₂ (Piece.Renamed π.names) ps ps') :
    (Document.ofPieces π.keep ps').seen π.move π.look =
      ((Document.ofPieces true ps).prune π.gone).seen π.move π.look := by
  obtain ⟨hnodes, hroot⟩ := prunesTo_ofPieces π hspares h
  exact hnodes.seen_eq (by rw [hroot, Option.getD_some])

end Documents

/-- Blanks are left out, if they are not kept, and nothing else. -/
def Pruning.blanks (keep : Bool) : Pruning :=
  .named (fun p => p) (fun _ h => by rw [h]) (fun _ c => c.isBlank && !keep) keep

theorem Document.tabled_ofPieces (ps : List Piece) : (Document.ofPieces true ps).Tabled :=
  (prunesTo_ofPieces (.blanks true) (fun _ _ _ _ => rfl) (forall₂_renamed_none ps)).1.tabled

/-- Blanks that are not kept are all that a document without them lacks. -/
theorem Document.ofPieces_eq_prune (keep : Bool) (ps : List Piece) :
    Document.ofPieces keep ps = (Document.ofPieces true ps).prune fun _ c =>
      c.isBlank && !keep := by
  have hlook : (Pruning.blanks keep).look = fun c => c := by
    funext c
    simp [Pruning.blanks, Pruning.look, Pruning.named]
  have heq := seen_ofPieces (.blanks keep) (fun _ _ _ _ => rfl) (forall₂_renamed_none ps)
  rw [hlook, show (Pruning.blanks keep).move = fun p => p from rfl, seen_id, seen_id] at heq
  exact heq

end TemplateLint
